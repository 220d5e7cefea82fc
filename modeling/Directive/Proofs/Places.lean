import Directive.Proofs.Outline
import Directive.Proofs.Tiling
import Directive.Proofs.Validation

/-!
# Reports point at what they talk about

A report on a command that departs from its vocabulary marks the part of the text that is wrong.
The spans in an outline are those of its tokens, and the tokens of a text have the text under their
spans.  So a report on a name marks the name, and a report on a value marks the raw value whose
coercion was checked: that of the last parameter with the name, as the last one counts.

The pair of family and function is marked by one span.  Their tokens and the separator stand side by
side behind the mark (`Scanner.Headed`), so under it there is nothing else.
-/

namespace Directive

namespace Scanner

/-! ### The head of a directive -/

/-- The tokens of the head with family `f` and function `g`, the latest first. -/
def headTokens (f g : List Char) : List Token :=
  [Token.ofChars .functionName (3 + Text.size f + '.'.utf8Size) g,
    Token.ofChars .separator (3 + Text.size f) ['.'], Token.ofChars .familyName 3 f,
    Token.ofChars .mark 0 mark.toList]

/-- The tokens begin with those of the head, as far as it has been read. -/
inductive Headed : Part → List Token → Prop
  | family (read : List Char) : Headed (.family 3 read) [Token.ofChars .mark 0 mark.toList]
  | function (f read : List Char) :
      Headed (.function (3 + Text.size f + '.'.utf8Size) read)
        [Token.ofChars .separator (3 + Text.size f) ['.'], Token.ofChars .familyName 3 f,
          Token.ofChars .mark 0 mark.toList]
  | later (p : Part) (f g : List Char) (es : List Token) : Headed p (es ++ headTokens f g)

variable {extent : Extent} {cs : List Char} {s : Scanner} {ts es : List Token} {p : Part}

theorem Reached.headed (h : Reached extent cs s) : Headed s.part s.tokens := by
  induction h with
  | start => exact .family []
  | @move cs ts es n p p' c h hm ih =>
    cases ih with
    | later p f g es' =>
      show Headed p' (es ++ (es' ++ headTokens f g))
      rw [← List.append_assoc]
      exact .later p' f g (es ++ es')
    | family read =>
      cases hm with
      | familyChar => exact .family (c :: read)
      | familyEnd =>
        -- the name goes from behind the mark to the separator
        obtain ⟨covered, rfl, -, hstart⟩ := h.tiled
        have hn : n = Text.size (covered ++ read.reverse) := h.pos_eq
        have hcovered : 3 = Text.size covered := hstart
        rw [Text.size_append, ← hcovered] at hn
        rw [hn]
        exact .function read.reverse []
    | function f read =>
      cases hm with
      | functionChar => exact .function f (c :: read)
      | functionBlank => exact .later _ f read.reverse []
      | functionOpen => exact .later _ f read.reverse [Token.ofChars .paramOpen n ['{']]

/-- When the token at hand is complete and the stream is an outline, the head is complete too. -/
theorem Headed.exists_head {n : Nat} {o : Outline} (h : Headed p ts) (hp : Completes p es)
    (ho : Stage.mark.after? ((es ++ ts).reverse ++ [Token.ending n]) = some (.done o)) :
    ∃ f g us, es ++ ts = us ++ headTokens f g := by
  cases h with
  | later p f g es' => exact ⟨f, g, es ++ es', (List.append_assoc _ _ _).symm⟩
  | family read =>
    -- at most the family has been read
    cases hp with
    | family => cases ho
    | nothing => cases ho
  | function f read =>
    cases hp with
    | function => exact ⟨f, read.reverse, [], rfl⟩
    | nothing => cases ho

/-! ### The end of a text -/

/-- The stream of a text with an outline: its tokens tile the text, are taken one after the other,
and begin with those of the head. -/
theorem exists_stream_of_outline {o : Outline} {n : Nat}
    (h : (Scan.ofChars .whole cs).outline = .ok (o, n)) : ∃ tokens,
      (Scan.ofChars .whole cs).stream? = .ok (tokens, n) ∧ Tiling cs tokens.reverse ∧
        Stage.mark.after? tokens = some (.done o) ∧
          ∃ f g us, tokens = (headTokens f g).reverse ++ us := by
  obtain ⟨hok, ho⟩ := Scan.outline_eq_ok_iff.mp h
  obtain ⟨ts, es, p, hs, hp, hscan⟩ := exists_complete_of_ok hok
  have htiling := tiling_of_ok hok
  rw [hscan] at ho htiling ⊢
  -- what the end completes leads to a stage that only the end token can end
  obtain ⟨σ, hσ, hdone⟩ := hs.exists_stage hp
  have hafter := Stage.after?_of_ofTokens hσ hdone ho
  obtain ⟨f, g, us, hhead⟩ := hs.headed.exists_head hp hafter
  refine ⟨_, rfl, ?_, hafter, f, g, us.reverse ++ [Token.ending n], ?_⟩
  · rw [List.reverse_append]
    exact htiling
  · rw [hhead, List.reverse_append, List.append_assoc]

/-- The names of an outline are those of the head. -/
theorem head_of_outline {f g : List Char} {us : List Token} {o : Outline}
    (h : Stage.mark.after? ((headTokens f g).reverse ++ us) = some (.done o)) :
    o.family = (Token.ofChars .familyName 3 f).piece ∧
      o.function = (Token.ofChars .functionName (3 + Text.size f + '.'.utf8Size) g).piece := by
  have hhead : Stage.mark.after? (headTokens f g).reverse =
      some (.blockOrEnd (Token.ofChars .familyName 3 f).piece
        (Token.ofChars .functionName (3 + Text.size f + '.'.utf8Size) g).piece) := rfl
  rw [Stage.after?_append hhead] at h
  have hkept := Option.some.inj (Stage.head?_after? rfl h)
  exact Prod.mk.inj hkept

end Scanner

/-! ### Places in an outline -/

section

variable {cs : List Char} {tokens : List Token} {o : Outline} {name : String} {x : Value}

/-- A parameter of an outline has its last name and its last value in the stream. -/
theorem Outline.exists_lastParam (h : Stage.mark.after? tokens = some (.done o))
    (hx : o.parameters.get? name = some x) : ∃ n v, LastParam tokens name n v ∧
      o.nameSpan name = n.span ∧ o.valueSpan name = v.span ∧ Value.coerce v.text = x := by
  rw [get?_parameters] at hx
  obtain ⟨p, hp, rfl⟩ := Option.map_eq_some_iff.mp hx
  obtain ⟨n, v, hlast, rfl⟩ := (Stage.listed_of_done h).exists_of_find? hp
  rw [List.reverse_reverse] at hlast
  refine ⟨n, v, hlast, ?_, ?_, rfl⟩
  · unfold nameSpan
    rw [hp]
    rfl
  · unfold valueSpan
    rw [hp]
    rfl

theorem LastParam.mem {n v : Token} (h : LastParam tokens name n v) : n ∈ tokens ∧ v ∈ tokens := by
  obtain ⟨before, e, after, rfl, -⟩ := h
  simp

/-- Under the span of the head stand the family, the separator and the function. -/
theorem Outline.slice_headSpan {f g : List Char} {us : List Token}
    (htiling : Tiling cs ((Scanner.headTokens f g).reverse ++ us).reverse)
    (h : Stage.mark.after? ((Scanner.headTokens f g).reverse ++ us) = some (.done o)) :
    o.headSpan.slice? cs = some (f ++ ['.'] ++ g) := by
  obtain ⟨hfamily, hfunction⟩ := Scanner.head_of_outline h
  have hslice : ∀ t ∈ Scanner.headTokens f g, t.span.slice? cs = some t.text.toList := by
    intro t ht
    refine htiling.slice t ?_
    simp [ht]
  simp only [Scanner.headTokens, List.forall_mem_cons, Token.ofChars, String.toList_ofList]
    at hslice
  obtain ⟨hg, hdot, hf, -⟩ := hslice
  have hsize : 3 + Text.size f + '.'.utf8Size = 3 + Text.size (f ++ ['.']) := by
    rw [Text.size_append, Text.size_cons, Text.size_nil]
    omega
  rw [hsize] at hg hfunction
  have hspan : o.headSpan = Span.ofSize 3 (Text.size (f ++ ['.'] ++ g)) := by
    rw [headSpan, hfamily, hfunction]
    simp only [Token.piece, Token.ofChars, Span.union, Span.ofSize, Span.mk.injEq,
      Text.size_append]
    omega
  rw [hspan]
  exact Span.slice?_adjacent (Span.slice?_adjacent hf hdot) hg

end

/-! ### Reports on violations -/

/-- Under `span` stands the raw value `s` of the last parameter with the name, and it is the value
`x` that counts. -/
def ShowsValue (tokens : List Token) (c : Command) (span : Span) (s name : String) (x : Value) :
    Prop :=
  ∃ n v, LastParam tokens name n v ∧ v.span = span ∧ v.text = s ∧ Value.coerce s = x ∧
    c.get? name = some x

/-- Under `span` stands the text `s`, and it is what the violation is about. -/
def Violation.ShownAt (tokens : List Token) (c : Command) (span : Span) (s : String) :
    Violation → Prop
  | .unknownFamily _ _ => s = c.family ∧ ∃ t ∈ tokens, t.kind = .familyName ∧ t.span = span
  | .unknownFunction _ _ _ => s = c.function ∧ ∃ t ∈ tokens, t.kind = .functionName ∧ t.span = span
  | .missingParameter _ _ => s = c.family ++ "." ++ c.function ∧ ∃ t ∈ tokens, ∃ u ∈ tokens,
      t.kind = .familyName ∧ u.kind = .functionName ∧ span = t.span.union u.span
  | .unknownParameter _ name _ => s = name ∧ ∃ n v, LastParam tokens name n v ∧ n.span = span
  | .typeMismatch name _ x => ShowsValue tokens c span s name x
  | .valueNotAllowed name x _ => ShowsValue tokens c span s name x
  | .valueRejected name x _ => ShowsValue tokens c span s name x

section

variable {cs : List Char} {tokens : List Token} {o : Outline} {source name : String} {x : Value}
  {violation : Violation}

/-- A violation in the value of a parameter stands at the name or at the value. -/
theorem Contract.ValueFault.shown {contract : Contract}
    (hfault : contract.ValueFault name x violation)
    (hslice : ∀ t ∈ tokens, t.span.slice? cs = some t.text.toList)
    (h : Stage.mark.after? tokens = some (.done o)) (hx : o.parameters.get? name = some x) :
    ∃ s, (Fault.place o violation).slice? cs = some s.toList ∧
      violation.ShownAt tokens (o.command source) (Fault.place o violation) s := by
  obtain ⟨n, v, hlast, hname, hvalue, hcoerce⟩ := Outline.exists_lastParam h hx
  obtain ⟨hn, hv⟩ := hlast.mem
  have hshows : ShowsValue tokens (o.command source) (o.valueSpan name) v.text name x :=
    ⟨n, v, hlast, hvalue.symm, rfl, hcoerce, hx⟩
  have hunder : (o.valueSpan name).slice? cs = some v.text.toList := hvalue ▸ hslice v hv
  cases hfault with
  | unknown =>
    have htext : n.text = name := by
      obtain ⟨before, e, after, -, -, htext, -⟩ := hlast
      exact htext
    have hunder : (o.nameSpan name).slice? cs = some n.text.toList := hname ▸ hslice n hn
    exact ⟨n.text, hunder, htext, n, v, hlast, hname.symm⟩
  | mistyped => exact ⟨v.text, hunder, hshows⟩
  | notAllowed => exact ⟨v.text, hunder, hshows⟩
  | rejected => exact ⟨v.text, hunder, hshows⟩

/-- Every violation stands at what it is about. -/
theorem Vocabulary.FirstViolation.shown {vocabulary : Vocabulary}
    (hfirst : vocabulary.FirstViolation (o.command source) violation)
    (htiling : Tiling cs tokens.reverse) (h : Stage.mark.after? tokens = some (.done o))
    (hhead : ∃ f g us, tokens = (Scanner.headTokens f g).reverse ++ us) :
    ∃ s, (Fault.place o violation).slice? cs = some s.toList ∧
      violation.ShownAt tokens (o.command source) (Fault.place o violation) s := by
  have hslice : ∀ t ∈ tokens, t.span.slice? cs = some t.text.toList := fun t ht =>
    htiling.slice t (List.mem_reverse.mpr ht)
  obtain ⟨f, g, us, rfl⟩ := hhead
  obtain ⟨hfamily, hfunction⟩ := Scanner.head_of_outline h
  have ht : Token.ofChars .familyName 3 f ∈ (Scanner.headTokens f g).reverse ++ us := by
    simp [Scanner.headTokens]
  have hu : Token.ofChars .functionName (3 + Text.size f + '.'.utf8Size) g ∈
      (Scanner.headTokens f g).reverse ++ us := by
    simp [Scanner.headTokens]
  cases hfirst with
  | unknownFamily =>
    refine ⟨o.family.text, ?_, rfl, _, ht, rfl, (congrArg Piece.span hfamily).symm⟩
    show o.family.span.slice? cs = some o.family.text.toList
    rw [hfamily]
    exact hslice _ ht
  | unknownFunction =>
    refine ⟨o.function.text, ?_, rfl, _, hu, rfl, (congrArg Piece.span hfunction).symm⟩
    show o.function.span.slice? cs = some o.function.text.toList
    rw [hfunction]
    exact hslice _ hu
  | contract _ _ _ hfirst =>
    cases hfirst with
    | missing =>
      have hunder := Outline.slice_headSpan htiling h
      have htext : (o.family.text ++ "." ++ o.function.text).toList = f ++ ['.'] ++ g := by
        rw [hfamily, hfunction]
        simp [Token.piece, Token.ofChars]
      refine ⟨o.family.text ++ "." ++ o.function.text, ?_, rfl, _, ht, _, hu, rfl, rfl, ?_⟩
      · rw [htext]
        exact hunder
      · show o.family.span.union o.function.span = _
        rw [hfamily, hfunction]
        rfl
    | @value _ _ name x _ _ hentries _ hfault =>
      have hmem : (name, x) ∈ (o.command source).parameters.entries := by
        rw [hentries]
        exact List.mem_append_right _ List.mem_cons_self
      exact hfault.shown hslice h (OrderedMap.mem_entries_iff.mp hmem)

end

namespace Vocabulary

/-- Where a text has the syntax of a directive and fails the check against a registry that was
built, the report is on the first violation of its command.  Under its primary label stands what the
violation is about: the family, the function, the two with a dot between them, the last name of the
parameter, or the last raw value of the parameter, which coerces to the value that was checked. -/
theorem parse_points_at_violation {v : Vocabulary} {r : Registry} (hbuild : v.build = .ok r)
    {text : String} {c : Command} (hc : parseSyntax text = .ok c) {report : Report}
    (hparse : r.parse text = .error report) : ∃ tokens violation span s,
      tokenize text = .ok tokens ∧ v.FirstViolation c violation ∧
      report.source = text ∧ report.diagnostic.code = some violation.code ∧
      report.diagnostic.primarySpan? = some span ∧
      span.slice? text.toList = some s.toList ∧ violation.ShownAt tokens c span s := by
  obtain ⟨d, hd, rfl⟩ := exists_draft_of_parseSyntax hc
  obtain ⟨violation, hviolation, rfl⟩ := Registry.exists_violation_of_parse hd hparse
  have hfirst := (makes_of_build hbuild).violation?_eq_some_iff.mp hviolation
  obtain ⟨o, n, ho, rfl⟩ := Draft.ofChars_eq_ok_iff.mp hd
  obtain ⟨tokens, hstream, htiling, hafter, hhead⟩ := Scanner.exists_stream_of_outline ho
  obtain ⟨s, hslice, hshown⟩ := hfirst.shown htiling hafter hhead
  have htokens : tokenize text = .ok tokens := by
    unfold tokenize
    rw [hstream]
  exact ⟨tokens, violation, Fault.place o violation, s, htokens, hfirst, rfl, rfl, rfl, hslice,
    hshown⟩

/-- The value that counts is the last one. -/
theorem parse_points_at_violation_last : ∃ v r c report span s, build v = .ok r ∧
    parseSyntax ".p/a.b\x7bx=1, x= é \x7d" = .ok c ∧
      r.parse ".p/a.b\x7bx=1, x= é \x7d" = .error report ∧
      report.diagnostic.code = some .typeMismatch ∧
      report.diagnostic.primarySpan? = some span ∧
      span.slice? ".p/a.b\x7bx=1, x= é \x7d".toList = some s.toList ∧
      Value.coerce s = .string "é" := by
  let contract : Contract :=
    { family := "a", name := "b", parameters := .ofList [("x", { tag := .integer })] }
  let v : Vocabulary := ⟨[⟨"a", ""⟩], [contract]⟩
  let c : Command := ⟨"a", "b", .ofList [("x", .string "é")], ".p/a.b\x7bx=1, x= é \x7d"⟩
  obtain ⟨r, hr⟩ : ∃ r, v.build = .ok r := by
    unfold v contract
    exact ⟨_, rfl⟩
  have hc : parseSyntax ".p/a.b\x7bx=1, x= é \x7d" = .ok c := rfl
  have hrule : contract.rule? "x" = some { tag := .integer } := rfl
  have hfault : contract.ValueFault "x" (.string "é") (.typeMismatch "x" .integer (.string "é")) :=
    .mistyped hrule rfl
  have hfirst : v.FirstViolation c (.typeMismatch "x" .integer (.string "é")) :=
    .contract (List.mem_singleton.mpr rfl) rfl rfl
      (.value (List.forall_mem_nil _) (List.nil_append _).symm (List.forall_mem_nil _) hfault)
  have hviolation := (makes_of_build hr).violation?_eq_some_iff.mpr hfirst
  obtain ⟨report, hreport, -, hcode, -⟩ := Registry.parse_of_violation hc hviolation
  obtain ⟨tokens, violation, span, s, -, hfirst', -, -, hspan, hslice, hshown⟩ :=
    parse_points_at_violation hr hc hreport
  rw [(makes_of_build hr).violation?_eq_some_iff.mpr hfirst', Option.some.injEq] at hviolation
  subst hviolation
  obtain ⟨-, -, -, -, -, hcoerce, -⟩ := hshown
  exact ⟨v, r, c, report, span, s, hr, hc, hreport, hcode, hspan, hslice, hcoerce⟩

end Vocabulary

end Directive
