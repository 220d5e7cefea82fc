import Directive.Draft
import Directive.Proofs.OrderedMap
import Directive.Proofs.Remainder

/-!
# The parser accepts exactly its grammar

A text is read by the scanner and the outline together.  What is left of a directive when the
scanner is at its start is the directive without its mark; every move takes a character from it,
and at the end of the text nothing may be left.  So a whole text is read exactly if it is a
directive, and then as its one reading.
-/

namespace Directive

open Grammar
open Scanner (Remains Fits Reached texts reading)
open Text (Blanks)

/-! ### Outlines of scans -/

/-- The reading an outline stands for. -/
def Outline.reading (o : Outline) : Reading :=
  ⟨o.family.text.toList, o.function.text.toList, o.params.map texts⟩

/-- The outline of a scan and the number of bytes it spans. -/
def Scan.outline (scan : Scan) : Except Fault (Outline × Nat) :=
  match scan.stream? with
  | .error fault => .error (.lexical fault)
  | .ok (tokens, consumed) =>
    match Outline.ofTokens tokens with
    | .error fault => .error (.structural fault)
    | .ok o => .ok (o, consumed)

/-- A scan has an outline if it has no fault and its stream has one. -/
theorem Scan.outline_eq_ok_iff {scan : Scan} {o : Outline} {n : Nat} :
    scan.outline = .ok (o, n) ↔ scan.outcome = .ok n ∧
      Outline.ofTokens (scan.tokens ++ [Token.ending n]) = .ok o := by
  unfold outline
  cases hstream : scan.stream? with
  | error fault =>
    refine iff_of_false (fun h => by cases h) fun ⟨hok, _⟩ => ?_
    rw [stream?_eq_ok_iff.mpr ⟨hok, rfl⟩] at hstream
    cases hstream
  | ok x =>
    obtain ⟨tokens, m⟩ := x
    obtain ⟨hok, rfl⟩ := stream?_eq_ok_iff.mp hstream
    dsimp only
    rw [hok]
    constructor
    · intro h
      cases ho : Outline.ofTokens (scan.tokens ++ [Token.ending m]) with
      | error fault =>
        rw [ho] at h
        cases h
      | ok o' =>
        rw [ho] at h
        cases h
        exact ⟨rfl, ho⟩
    · rintro ⟨hm, ho⟩
      obtain rfl := Except.ok.inj hm
      rw [ho]

theorem Draft.ofChars_eq (extent : Extent) (cs : List Char) :
    Draft.ofChars extent cs = (Scan.ofChars extent cs).outline.map fun x =>
      ⟨x.1.command (String.ofList (Text.takeBytes x.2 cs)), x.1, x.2⟩ := by
  unfold Draft.ofChars Scan.outline
  cases (Scan.ofChars extent cs).stream? with
  | error fault => rfl
  | ok x =>
    obtain ⟨tokens, consumed⟩ := x
    dsimp only
    cases Outline.ofTokens tokens with
    | error fault => rfl
    | ok o => rfl

namespace Scanner

/-- The end token may end a directive. -/
theorem outline_accept {ts : List Token} {σ : Stage} {n : Nat} {o : Outline}
    (hσ : Stage.mark.after? ts = some σ) (ho : σ.next? (Token.ending n) = some (.done o)) :
    (Scan.mk ts (.ok n)).outline = .ok (o, n) :=
  Scan.outline_eq_ok_iff.mpr ⟨rfl, Outline.ofTokens_of_done hσ ho⟩

/-- Where it may not, the directive is incomplete. -/
theorem outline_incomplete {ts : List Token} {σ : Stage} {n : Nat}
    (hσ : Stage.mark.after? ts = some σ) (hn : σ.next? (Token.ending n) = none)
    (hdone : ∀ o, σ ≠ .done o) : (Scan.mk ts (.ok n)).outline =
      .error (.structural (.incomplete σ.expected (Span.point n))) := by
  show (match Outline.ofTokens (ts ++ [Token.ending n]) with
    | .error fault => .error (.structural fault)
    | .ok o => .ok (o, n) : Except Fault (Outline × Nat)) = _
  rw [Outline.ofTokens_of_next?_eq_none hσ hdone hn]
  rfl

/-! ### The end of the text -/

/-- What is missing at the end of a text of `n` bytes if the scanner is in part `p` there. -/
inductive EndFault (n : Nat) : Part → Fault → Prop
  | incomplete {p : Part} {expected : String} :
      EndFault n p (.structural (.incomplete expected (Span.point n)))
  | openQuote {v : ValueState} {q : Char} {start : Nat} :
      v.quote = some (q, start) →
        EndFault n (.value v) (.lexical (.openQuote q (Span.ofBounds start n)))
  | openList {v : ValueState} {opened : Nat} :
      EndFault n (.value v) (.lexical (.openList opened n))

section

variable {ts : List Token} {n start : Nat} {read : List Char} {σ σ' : Stage}

/-- A token that the scanner emits moves the outline on by one stage. -/
theorem after?_emit {t : Token} (hσ : Stage.mark.after? ts.reverse = some σ)
    (ht : σ.next? t = some σ') : Stage.mark.after? (t :: ts).reverse = some σ' := by
  rw [List.reverse_cons, Stage.after?_append hσ]
  simp [Stage.after?, ht]

/-- A text that ends in the family lacks a function. -/
theorem outline_finish_family (hσ : Stage.mark.after? ts.reverse = some .family) :
    ∃ expected, (finish .whole ⟨ts, n, .family start read⟩).outline =
      .error (.structural (.incomplete expected (Span.point n))) := by
  cases read with
  | nil => exact ⟨_, outline_incomplete hσ rfl (by simp)⟩
  | cons c read =>
    have hafter := after?_emit (t := Token.ofChars .familyName start (c :: read).reverse) hσ rfl
    exact ⟨_, outline_incomplete hafter rfl (by simp)⟩

/-- A text that ends in the function is a directive without parameters. -/
theorem outline_finish_function {f : Piece} (hread : IsName read)
    (hσ : Stage.mark.after? ts.reverse = some (.function f)) :
    ∃ o, (finish .whole ⟨ts, n, .function start read⟩).outline = .ok (o, n) ∧
      ∀ r, Remains (.function start read) (.function f) r [] ↔ r = o.reading := by
  cases read with
  | nil => exact absurd rfl hread.1
  | cons c read =>
    have hafter := after?_emit (t := Token.ofChars .functionName start (c :: read).reverse) hσ rfl
    refine ⟨_, outline_accept hafter rfl, ?_⟩
    rintro ⟨f', g, ps⟩
    have hname : IsName (c :: read).reverse := isName_reverse hread.2 hread.1
    show f' = f.text.toList ∧ Named (c :: read) g (Block ps) [] ↔
      Reading.mk f' g ps = ⟨f.text.toList, (String.ofList (c :: read).reverse).toList, []⟩
    rw [named_nil, block_nil_iff, String.toList_ofList, Reading.mk.injEq]
    constructor
    · rintro ⟨hf', hg, -, hps⟩
      exact ⟨hf', hg, hps⟩
    · rintro ⟨hf', hg, hps⟩
      exact ⟨hf', hg, hg ▸ hname, hps⟩

/-- A text that ends in a parameter name lacks the sign. -/
theorem outline_finish_name (hread : IsName read)
    (hσ : Stage.mark.after? ts.reverse = some σ)
    (hnext : σ.next? (Token.ofChars .paramName start read.reverse) = some σ')
    (hn : σ'.next? (Token.ending n) = none) (hdone : ∀ o, σ' ≠ .done o) :
    (finish .whole ⟨ts, n, .name start read⟩).outline =
      .error (.structural (.incomplete σ'.expected (Span.point n))) := by
  cases read with
  | nil => exact absurd rfl hread.1
  | cons c read => exact outline_incomplete (after?_emit hσ hnext) hn hdone

/-- A text that ends in a value lacks the quote or the brackets that close it, or what stands behind
it. -/
theorem outline_finish_value {v : ValueState} {f g m : Piece} {qs : List RawParam}
    (hσ : Stage.mark.after? ts.reverse = some (.value f g qs m)) :
    ∃ fault, (finish .whole ⟨ts, n, .value v⟩).outline = .error fault ∧
      EndFault n (.value v) fault := by
  obtain ⟨start, read, opened, fresh, quote⟩ := v
  cases quote with
  | some q => exact ⟨_, rfl, .openQuote rfl⟩
  | none =>
    cases hlast : opened.getLast? with
    | some o =>
      refine ⟨.lexical (.openList o n), ?_, .openList⟩
      simp only [finish, hlast]
      rfl
    | none =>
      have hafter :=
        after?_emit (t := Token.ofChars .paramValue start (Text.trimEnd read.reverse)) hσ rfl
      have hfinish : finish .whole ⟨ts, n, .value ⟨start, read, opened, fresh, none⟩⟩ =
          ⟨(Token.ofChars .paramValue start (Text.trimEnd read.reverse) :: ts).reverse, .ok n⟩ := by
        simp only [finish, hlast]
        rfl
      rw [hfinish]
      exact ⟨_, outline_incomplete hafter rfl (by simp), .incomplete⟩

end

/-- At the end of a text either nothing is left of a directive, and its outline is the reading, or
something is missing and no directive ends there. -/
theorem outline_finish {ts : List Token} {n : Nat} {p : Part} {σ : Stage}
    (hσ : Stage.mark.after? ts.reverse = some σ) (hf : Fits p σ) :
    (∃ o, (finish .whole ⟨ts, n, p⟩).outline = .ok (o, n) ∧
        ∀ r, Remains p σ r [] ↔ r = o.reading) ∨
      ∃ fault, (finish .whole ⟨ts, n, p⟩).outline = .error fault ∧ EndFault n p fault ∧
        ∀ r, ¬Remains p σ r [] := by
  cases hf with
  | family =>
    obtain ⟨expected, hfault⟩ := outline_finish_family hσ
    refine Or.inr ⟨_, hfault, .incomplete, ?_⟩
    rintro ⟨f, g, ps⟩ h
    exact not_after_nil (named_nil.mp h).2.2
  | @function start read f hread =>
    cases read with
    | nil =>
      refine Or.inr ⟨_, outline_incomplete hσ rfl (by simp), .incomplete, ?_⟩
      rintro ⟨f', g, ps⟩ h
      exact not_named_nil h.2
    | cons c read => exact Or.inl (outline_finish_function ⟨List.cons_ne_nil _ _, hread⟩ hσ)
  | @gap ended f g =>
    refine Or.inl ⟨_, outline_accept hσ rfl, fun r => ?_⟩
    show (∃ ps, r = reading f g [] ps ∧ Block ps []) ↔ r = ⟨f.text.toList, g.text.toList, []⟩
    constructor
    · rintro ⟨ps, rfl, h⟩
      rw [block_nil_iff.mp h]
      rfl
    · rintro rfl
      exact ⟨[], rfl, block_nil_iff.mpr rfl⟩
  | entryFirst =>
    refine Or.inr ⟨_, outline_incomplete hσ rfl (by simp), .incomplete, ?_⟩
    rintro r ⟨ps, -, h⟩
    exact not_entries_nil ps (spaced_nil.mp h)
  | entry =>
    refine Or.inr ⟨_, outline_incomplete hσ rfl (by simp), .incomplete, ?_⟩
    rintro r ⟨p, ps, -, h⟩
    exact not_named_nil (spaced_nil.mp h)
  | nameFirst hread =>
    refine Or.inr ⟨_, outline_finish_name hread hσ rfl rfl (by simp), .incomplete, ?_⟩
    rintro r ⟨name, v, ps, -, h⟩
    exact not_signed_nil (named_nil.mp h).2.2
  | name hread =>
    refine Or.inr ⟨_, outline_finish_name hread hσ rfl rfl (by simp), .incomplete, ?_⟩
    rintro r ⟨name, v, ps, -, h⟩
    exact not_signed_nil (named_nil.mp h).2.2
  | equals =>
    refine Or.inr ⟨_, outline_incomplete hσ rfl (by simp), .incomplete, ?_⟩
    rintro r ⟨v, ps, -, h⟩
    exact not_signed_nil h
  | beforeValue =>
    refine Or.inr ⟨_, outline_incomplete hσ rfl (by simp), .incomplete, ?_⟩
    rintro r ⟨v, ps, -, h⟩
    exact not_valued_nil (spaced_nil.mp h)
  | value =>
    obtain ⟨fault, hfault, hend⟩ := outline_finish_value hσ
    refine Or.inr ⟨fault, hfault, hend, ?_⟩
    rintro r ⟨v, ps, -, h⟩
    exact not_inValue_nil (not_tail_nil ps) h
  | @closed f g qs =>
    refine Or.inl ⟨_, outline_accept hσ rfl, fun r => ?_⟩
    show (r = reading f g qs [] ∧ Blanks []) ↔ r = ⟨f.text.toList, g.text.toList, qs.reverse.map texts⟩
    rw [reading, List.append_nil]
    exact and_iff_left Text.blanks_nil

/-! ### The beginning of the text -/

theorem param_iff {p : List Char × List Char} {P : List Char → Prop} {cs : List Char} :
    Param p P cs ↔ ∃ t y, cs = t ++ y ∧ IsParam p t ∧ P y := by
  constructor
  · rintro ⟨n, -, rfl, hp, hn, w₁, -, rfl, hw₁, -, rfl, w₂, -, rfl, hw₂, -, rfl, hv, w₃, y, rfl,
      hw₃, hy⟩
    obtain ⟨n', v⟩ := p
    obtain rfl : n' = n := hp
    exact ⟨_, y, by simp, .intro hn hw₁ hw₂ hv hw₃, hy⟩
  · rintro ⟨-, y, rfl, ⟨hn, hw₁, hw₂, hv, hw₃⟩, hy⟩
    rename_i n w₁ w₂ v w₃
    exact ⟨n, _, by simp, rfl, hn, w₁, _, rfl, hw₁, _, rfl, w₂, _, rfl, hw₂, _, rfl, hv, w₃, y,
      rfl, hw₃, hy⟩

theorem tail_iff {ps : List (List Char × List Char)} {cs : List Char} :
    Tail ps cs ↔ ∃ ts w, cs = ts ++ '}' :: w ∧ MoreParams ps ts ∧ Blanks w := by
  induction ps generalizing cs with
  | nil =>
    constructor
    · rintro ⟨w, rfl, hw⟩
      exact ⟨[], w, rfl, .nil, hw⟩
    · rintro ⟨ts, w, rfl, ⟨⟩, hw⟩
      exact ⟨w, rfl, hw⟩
  | cons p ps ih =>
    constructor
    · rintro ⟨x, rfl, w, z, rfl, hw, h⟩
      obtain ⟨t, y, rfl, hp, hy⟩ := param_iff.mp h
      obtain ⟨ts, w', rfl, hps, hw'⟩ := ih.mp hy
      exact ⟨_, w', by simp, .cons hw hp hps, hw'⟩
    · rintro ⟨x, w', rfl, h, hw'⟩
      cases h with
      | @cons _ _ w t ts hw hp hps =>
        refine ⟨w ++ (t ++ (ts ++ '}' :: w')), by simp, w, _, rfl, hw, ?_⟩
        exact param_iff.mpr ⟨t, _, rfl, hp, ih.mpr ⟨ts, w', rfl, hps, hw'⟩⟩

/-- A block with blanks behind it. -/
theorem after_entries_iff {ps : List (List Char × List Char)} {cs : List Char} :
    After '{' (Spaced (Entries ps)) cs ↔ ∃ b w, cs = b ++ w ∧ IsBlock ps b ∧ Blanks w := by
  cases ps with
  | nil =>
    constructor
    · rintro ⟨x, rfl, w, y, rfl, hw, w', rfl, hw'⟩
      exact ⟨_, w', by simp, .empty hw, hw'⟩
    · rintro ⟨b, w', rfl, ⟨hw⟩, hw'⟩
      exact ⟨_, rfl, _, '}' :: w', by simp, hw, w', rfl, hw'⟩
  | cons p ps =>
    constructor
    · rintro ⟨x, rfl, w, z, rfl, hw, h⟩
      obtain ⟨t, y, rfl, hp, hy⟩ := param_iff.mp h
      obtain ⟨ts, w', rfl, hps, hw'⟩ := tail_iff.mp hy
      exact ⟨_, w', by simp, .params hw hp hps, hw'⟩
    · rintro ⟨b, w', rfl, h, hw'⟩
      cases h with
      | @params _ _ w t ts hw hp hps =>
        refine ⟨w ++ (t ++ (ts ++ '}' :: w')), by simp, w, _, rfl, hw, ?_⟩
        exact param_iff.mpr ⟨t, _, rfl, hp, tail_iff.mpr ⟨ts, w', rfl, hps, hw'⟩⟩

theorem block_iff {ps : List (List Char × List Char)} {cs : List Char} :
    Block ps cs ↔ (ps = [] ∧ Blanks cs) ∨
      ∃ w b w', cs = w ++ (b ++ w') ∧ Blanks w ∧ IsBlock ps b ∧ Blanks w' := by
  constructor
  · rintro ⟨w, y, rfl, hw, ⟨rfl, rfl⟩ | h⟩
    · exact Or.inl ⟨rfl, by rwa [List.append_nil]⟩
    · obtain ⟨b, w', rfl, hb, hw'⟩ := after_entries_iff.mp h
      exact Or.inr ⟨w, b, w', rfl, hw, hb, hw'⟩
  · rintro (⟨rfl, hw⟩ | ⟨w, b, w', rfl, hw, hb, hw'⟩)
    · exact ⟨cs, [], (List.append_nil cs).symm, hw, Or.inl ⟨rfl, rfl⟩⟩
    · exact ⟨w, _, rfl, hw, Or.inr (after_entries_iff.mpr ⟨b, w', rfl, hb, hw'⟩)⟩

/-- A directive is its mark and what is left of it behind the mark. -/
theorem isDirective_iff_remains {r : Reading} {cs : List Char} :
    IsDirective r cs ↔ ∃ rest, cs = mark.toList ++ rest ∧ Remains (.family 3 []) .family r rest := by
  obtain ⟨f, g, ps⟩ := r
  constructor
  · intro h
    cases h with
    | @bare _ _ w hf hg hw =>
      refine ⟨f ++ '.' :: (g ++ w), by simp, f, _, rfl, rfl, hf, _, rfl, g, w, rfl, rfl, hg, ?_⟩
      exact block_iff.mpr (Or.inl ⟨rfl, hw⟩)
    | @block _ _ w b w' _ hf hg hw hb hw' =>
      refine ⟨f ++ '.' :: (g ++ (w ++ (b ++ w'))), by simp, f, _, rfl, rfl, hf, _, rfl, g, _, rfl,
        rfl, hg, ?_⟩
      exact block_iff.mpr (Or.inr ⟨w, b, w', rfl, hw, hb, hw'⟩)
  · rintro ⟨rest, rfl, f', -, rfl, hf', hf, -, rfl, g', w, rfl, hg', hg, h⟩
    obtain rfl : f = f' := hf'
    obtain rfl : g = g' := hg'
    rcases block_iff.mp h with ⟨rfl, hw⟩ | ⟨w, b, w', rfl, hw, hb, hw'⟩
    · have := IsDirective.bare hf hg hw
      simpa using this
    · have := IsDirective.block hf hg hw hb hw'
      simpa using this

/-! ### Runs -/

/-- From a reached state the rest of the text is read, and its reading is the one that is left, or
there is a fault and no directive goes on like this. -/
theorem outline_run {cs : List Char} {s : Scanner} {σ : Stage} (h : Reached .whole cs s)
    (hσ : Stage.mark.after? s.tokens.reverse = some σ) (hf : Fits s.part σ) (rest : List Char) :
    (∃ o, (run .whole s rest).outline = .ok (o, Text.size (cs ++ rest)) ∧
        ∀ r, Remains s.part σ r rest ↔ r = o.reading) ∨
      ∃ fault, (run .whole s rest).outline = .error fault ∧ ∀ r, ¬Remains s.part σ r rest := by
  induction rest generalizing cs s σ with
  | nil =>
    obtain ⟨ts, n, p⟩ := s
    have hn : n = Text.size cs := h.pos_eq
    rw [List.append_nil, ← hn, run]
    rcases outline_finish hσ hf with hok | ⟨fault, hfault, -, hno⟩
    · exact Or.inl hok
    · exact Or.inr ⟨fault, hfault, hno⟩
  | cons c rest ih =>
    obtain ⟨ts, n, p⟩ := s
    cases hs : step .whole ⟨ts, n, p⟩ c with
    | next s' =>
      obtain ⟨es, p', hm, rfl⟩ := move_of_step hs
      obtain ⟨σ', hσ', hf'⟩ := hm.fits hf
      have hafter : Stage.mark.after? (es ++ ts).reverse = some σ' := by
        rw [List.reverse_append, Stage.after?_append hσ, hσ']
      have hcs : cs ++ c :: rest = cs ++ [c] ++ rest := by simp
      simp only [run, hs, remains_cons_of_move hm hf hσ', hcs]
      exact ih (h.move hm) hafter hf'
    | stop result =>
      have hstop : StopsAt n c (.stop result) := hs ▸ stopsAt_step
      obtain ⟨fault, hfault, -⟩ := hstop
      refine Or.inr ⟨.lexical fault, ?_, fun r hr => ?_⟩
      · simp [run, hs, Scan.outline, Scan.stream?, hfault, Except.map]
      · obtain ⟨es, p', hm⟩ := exists_move_of_remains hf hr n
        rw [step_of_move hm] at hs
        cases hs

/-- A text has an outline, which is its one reading, or a fault, and then it is no directive. -/
theorem outline_ofChars (cs : List Char) :
    (∃ o, (Scan.ofChars .whole cs).outline = .ok (o, Text.size cs) ∧
        ∀ r, IsDirective r cs ↔ r = o.reading) ∨
      ∃ fault, (Scan.ofChars .whole cs).outline = .error fault ∧ ∀ r, ¬IsDirective r cs := by
  by_cases hmark : ∃ rest, cs = mark.toList ++ rest
  · obtain ⟨rest, rfl⟩ := hmark
    have hstart : Reached .whole mark.toList start := .start
    obtain ⟨σ, hσ, hf⟩ := hstart.fits
    obtain rfl : σ = .family := (Option.some.inj hσ).symm
    have hiff : ∀ r, IsDirective r (mark.toList ++ rest) ↔ Remains start.part .family r rest := by
      intro r
      rw [isDirective_iff_remains]
      constructor
      · rintro ⟨rest', hrest, h⟩
        rw [List.append_cancel_left hrest]
        exact h
      · intro h
        exact ⟨rest, rfl, h⟩
    simp only [hiff, ofChars_mark]
    exact outline_run hstart hσ hf rest
  · rw [not_exists] at hmark
    refine Or.inr ⟨_, congrArg Scan.outline (ofChars_of_not_mark hmark), fun r hr => ?_⟩
    obtain ⟨rest, h, -⟩ := isDirective_iff_remains.mp hr
    exact hmark rest h

end Scanner

/-! ### Commands -/

/-- The command that a text with this reading stands for. -/
def Grammar.Reading.command (r : Reading) (text : String) : Command :=
  ⟨String.ofList r.family, String.ofList r.function,
    .ofList (r.params.map fun p => (String.ofList p.1, Value.coerce (String.ofList p.2))), text⟩

/-- A directive has one reading. -/
theorem Grammar.IsDirective.unique {r r' : Reading} {cs : List Char} (h : IsDirective r cs)
    (h' : IsDirective r' cs) : r = r' := by
  rcases Scanner.outline_ofChars cs with ⟨o, -, ho⟩ | ⟨fault, -, hno⟩
  · rw [(ho r).mp h, (ho r').mp h']
  · exact absurd h (hno r)

theorem Outline.command_eq (o : Outline) (text : String) :
    o.command text = o.reading.command text := by
  simp [Outline.command, Outline.parameters, Reading.command, Outline.reading, texts,
    Function.comp_def]

/-- A text is read as a command exactly if it is a directive and the command is what its reading
says. -/
theorem parseSyntax_eq_ok_iff {text : String} {c : Command} :
    parseSyntax text = .ok c ↔ ∃ r, IsDirective r text.toList ∧ c = r.command text := by
  have hsource : String.ofList (Text.takeBytes (Text.size text.toList) text.toList) = text := by
    rw [Text.takeBytes_size, String.ofList_toList]
  unfold parseSyntax
  rw [Draft.ofChars_eq]
  rcases Scanner.outline_ofChars text.toList with ⟨o, ho, hiff⟩ | ⟨fault, hfault, hno⟩
  · rw [ho]
    show Except.ok (o.command _) = _ ↔ _
    rw [hsource, Outline.command_eq]
    constructor
    · intro h
      exact ⟨o.reading, (hiff _).mpr rfl, (Except.ok.inj h).symm⟩
    · rintro ⟨r, hr, rfl⟩
      rw [(hiff r).mp hr]
  · rw [hfault]
    constructor
    · intro h
      cases h
    · rintro ⟨r, hr, -⟩
      exact absurd hr (hno r)

/-- The parser accepts exactly its grammar.  A text that it accepts has one reading; the command has
the family and the function of the reading and is read from the whole text; its parameters stand at
the places of their first occurrences and have the values of their last ones. -/
theorem parseSyntax_accepts_grammar (text : String) :
    ((∃ c, parseSyntax text = .ok c) ↔ ∃ r, IsDirective r text.toList) ∧
      (∀ r r', IsDirective r text.toList → IsDirective r' text.toList → r = r') ∧
      ∀ c r, parseSyntax text = .ok c → IsDirective r text.toList →
        c.family.toList = r.family ∧ c.function.toList = r.function ∧ c.source = text ∧
          c.parameters.names = (r.params.map fun p => String.ofList p.1).eraseDups ∧
          ∀ n, c.get? n = ((r.params.filter fun p => String.ofList p.1 == n).getLast?).map
            fun p => Value.coerce (String.ofList p.2) := by
  refine ⟨?_, fun r r' => IsDirective.unique, ?_⟩
  · constructor
    · rintro ⟨c, hc⟩
      obtain ⟨r, hr, -⟩ := parseSyntax_eq_ok_iff.mp hc
      exact ⟨r, hr⟩
    · rintro ⟨r, hr⟩
      exact ⟨r.command text, parseSyntax_eq_ok_iff.mpr ⟨r, hr, rfl⟩⟩
  · intro c r hc hr
    obtain ⟨r', hr', rfl⟩ := parseSyntax_eq_ok_iff.mp hc
    obtain rfl := hr.unique hr'
    refine ⟨String.toList_ofList, String.toList_ofList, rfl, ?_, fun n => ?_⟩
    · show (OrderedMap.ofList _).names = _
      rw [OrderedMap.names_ofList, List.map_map]
      rfl
    · show (OrderedMap.ofList _).get? n = _
      rw [OrderedMap.get?_ofList, List.filter_map, List.getLast?_map, Option.map_map]
      rfl

/-- A parameter that is given twice keeps its last value. -/
theorem parseSyntax_accepts_grammar_twice :
    ∃ c, parseSyntax ".p/a.b\x7bx=1,x=2\x7d" = .ok c ∧ c.parameters.names = ["x"] ∧
      c.get? "x" = some (.integer 2) := by
  have hx : IsName ['x'] := isName_singleton rfl
  have h₁ : IsParam (['x'], ['1']) ['x', '=', '1'] :=
    .intro hx Text.blanks_nil Text.blanks_nil (isValue_singleton rfl rfl rfl) Text.blanks_nil
  have h₂ : IsParam (['x'], ['2']) ['x', '=', '2'] :=
    .intro hx Text.blanks_nil Text.blanks_nil (isValue_singleton rfl rfl rfl) Text.blanks_nil
  have hr : IsDirective ⟨['a'], ['b'], [(['x'], ['1']), (['x'], ['2'])]⟩
      (".p/a.b\x7bx=1,x=2\x7d" : String).toList :=
    .block (isName_singleton rfl) (isName_singleton rfl) Text.blanks_nil
      (.params Text.blanks_nil h₁ (.cons Text.blanks_nil h₂ .nil)) Text.blanks_nil
  obtain ⟨c, hc⟩ := (parseSyntax_accepts_grammar ".p/a.b\x7bx=1,x=2\x7d").1.mpr ⟨_, hr⟩
  obtain ⟨-, -, -, hnames, hget⟩ :=
    (parseSyntax_accepts_grammar ".p/a.b\x7bx=1,x=2\x7d").2.2 c _ hc hr
  exact ⟨c, hc, hnames, hget "x"⟩

end Directive
