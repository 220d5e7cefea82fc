import Directive.Proofs.Acceptance

/-!
# Errors tell where a text stops being a directive

A text is viable if a directive begins with it.  Whatever state the scanner reaches, a few
characters complete what it has read (`exists_remains`): letters for the names that are missing,
the quote and the brackets that are open, and a closing brace.  So every text that the scanner gets
through is viable, and a text it rejects is either incomplete, or dead from the character on that
stopped the scanner; the code of the error tells which, and its position tells where.
-/

namespace Directive

open Grammar
open Scanner (Remains Fits Reached)

/-! ### Viable texts -/

/-- A text that the parser accepts begins like this. -/
def Viable (cs : List Char) : Prop :=
  ∃ rest c, parseSyntax (String.ofList (cs ++ rest)) = .ok c

theorem viable_iff {cs : List Char} : Viable cs ↔ ∃ rest r, IsDirective r (cs ++ rest) := by
  constructor
  · rintro ⟨rest, c, h⟩
    obtain ⟨r, hr, -⟩ := parseSyntax_eq_ok_iff.mp h
    rw [String.toList_ofList] at hr
    exact ⟨rest, r, hr⟩
  · rintro ⟨rest, r, hr⟩
    refine ⟨rest, _, parseSyntax_eq_ok_iff.mpr ⟨r, ?_, rfl⟩⟩
    rwa [String.toList_ofList]

namespace Scanner

/-- What is left after a reached state is left of a directive that begins with the text read. -/
theorem isDirective_append_iff {cs : List Char} {s : Scanner} {σ : Stage}
    (h : Reached .whole cs s) (hσ : Stage.mark.after? s.tokens.reverse = some σ)
    (hf : Fits s.part σ) (rest : List Char) (r : Reading) :
    IsDirective r (cs ++ rest) ↔ Remains s.part σ r rest := by
  have hscan := h.ofChars_append rest
  rcases outline_run h hσ hf rest with ⟨o, ho, hiff⟩ | ⟨fault, hfault, hno⟩
  · rcases outline_ofChars (cs ++ rest) with ⟨o', ho', hiff'⟩ | ⟨fault', hfault', -⟩
    · rw [hscan, ho] at ho'
      cases ho'
      rw [hiff, hiff']
    · rw [hscan, ho] at hfault'
      cases hfault'
  · rcases outline_ofChars (cs ++ rest) with ⟨o', ho', -⟩ | ⟨fault', -, hno'⟩
    · rw [hscan, hfault] at ho'
      cases ho'
    · exact iff_of_false (hno' r) (hno r)

/-! ### Completions -/

theorem tail_close : Tail [] ['}'] :=
  after_cons_self.mpr Text.blanks_nil

theorem valued_a : Spaced (Valued ['a'] (Tail [])) ['a', '}'] :=
  ⟨[], _, rfl, Text.blanks_nil, ['}'], rfl, isValue_singleton rfl rfl rfl, [], _, rfl, Text.blanks_nil, tail_close⟩

theorem signed_a : Signed ['a'] (Tail []) ['=', 'a', '}'] :=
  signed_cons_sign.mpr valued_a

theorem named_of_isName {read cs : List Char} {P : List Char → Prop} (h : IsName read.reverse)
    (hP : P cs) : Named read read.reverse P cs :=
  ⟨[], cs, rfl, (List.append_nil _).symm, h, hP⟩

/-- One letter completes a name. -/
theorem named_concat_a {read cs : List Char} {P : List Char → Prop} (h : NameChars read)
    (hP : P cs) : Named read (read.reverse ++ ['a']) P ('a' :: cs) := by
  refine ⟨['a'], cs, rfl, rfl, ⟨by simp, ?_⟩, hP⟩
  intro c hc
  rcases List.mem_append.mp hc with hc | hc
  · exact h c (List.mem_reverse.mp hc)
  · exact (isName_singleton rfl).2 c hc

/-- Whatever has been read, some text completes it. -/
theorem exists_remains {p : Part} {σ : Stage} (hf : Fits p σ) : ∃ rest r, Remains p σ r rest := by
  have hnil : NameChars [] := by simp [NameChars]
  cases hf with
  | family hread =>
    have hg : Named [] ['a'] (Block []) ['a'] := named_concat_a hnil (block_nil_iff.mpr rfl)
    exact ⟨['a', '.', 'a'], ⟨_, ['a'], []⟩, named_concat_a hread (after_cons_self.mpr hg)⟩
  | function hread =>
    exact ⟨['a'], ⟨_, _, []⟩, rfl, named_concat_a hread (block_nil_iff.mpr rfl)⟩
  | gap => exact ⟨[], _, [], rfl, block_nil_iff.mpr rfl⟩
  | entryFirst => exact ⟨['}'], _, [], rfl, [], _, rfl, Text.blanks_nil, tail_close⟩
  | entry =>
    exact ⟨['a', '=', 'a', '}'], _, (['a'], ['a']), [], rfl, [], _, rfl, Text.blanks_nil,
      named_concat_a hnil signed_a⟩
  | nameFirst hread =>
    exact ⟨['=', 'a', '}'], _, _, ['a'], [], rfl,
      named_of_isName (isName_reverse hread.2 hread.1) signed_a⟩
  | name hread =>
    exact ⟨['=', 'a', '}'], _, _, ['a'], [], rfl,
      named_of_isName (isName_reverse hread.2 hread.1) signed_a⟩
  | equals => exact ⟨['=', 'a', '}'], _, ['a'], [], rfl, signed_a⟩
  | beforeValue => exact ⟨['a', '}'], _, ['a'], [], rfl, valued_a⟩
  | @value v =>
    obtain ⟨b, hb⟩ := exists_closes v
    exact ⟨b ++ ['}'], _, _, [], rfl, b, ['}'], rfl, rfl, hb, tail_close⟩
  | closed => exact ⟨[], _, rfl, Text.blanks_nil⟩

/-- The scanner reaches a state only after a viable text. -/
theorem Reached.viable {cs : List Char} {s : Scanner} (h : Reached .whole cs s) : Viable cs := by
  obtain ⟨σ, hσ, hf⟩ := h.fits
  obtain ⟨rest, r, hr⟩ := exists_remains hf
  exact viable_iff.mpr ⟨rest, r, (isDirective_append_iff h hσ hf rest r).mpr hr⟩

/-- A character that stops the scanner is in no directive at that place. -/
theorem Reached.not_viable {cs : List Char} {s : Scanner} {c : Char} {result : Scan}
    (h : Reached .whole cs s) (hs : step .whole s c = .stop result) : ¬Viable (cs ++ [c]) := by
  rw [viable_iff]
  rintro ⟨rest, r, hr⟩
  obtain ⟨σ, hσ, hf⟩ := h.fits
  rw [List.append_assoc, List.singleton_append, isDirective_append_iff h hσ hf] at hr
  obtain ⟨es, p', hm⟩ := exists_move_of_remains hf hr s.pos
  obtain ⟨ts, n, p⟩ := s
  rw [step_of_move hm] at hs
  cases hs

/-! ### Open quotes -/

/-- The scanner waits for the quote `q`, and the one it has met stands at `n`. -/
def Awaits (q : Char) (n : Nat) (s : Scanner) : Prop :=
  ∃ v, s.part = .value v ∧ v.quote = some (q, n)

/-- An open quote stays open up to the next quote of its kind. -/
theorem Reached.awaits_append {cs b : List Char} {s : Scanner} {q : Char} {n : Nat}
    (h : Reached .whole cs s) (hs : Awaits q n s) (hb : q ∉ b) :
    ∃ s', Reached .whole (cs ++ b) s' ∧ Awaits q n s' := by
  induction b generalizing cs s with
  | nil => exact ⟨s, by rwa [List.append_nil], hs⟩
  | cons c b ih =>
    obtain ⟨ts, pos, p⟩ := s
    obtain ⟨v, rfl, hv⟩ := hs
    rw [List.mem_cons, not_or] at hb
    have hends : v.ends c = false := by simp [ValueState.ends, hv]
    have hover : v.overflows c = false := by simp [ValueState.overflows, hv]
    have hnext : (v.next pos c).quote = some (q, n) := by
      simp [ValueState.next, hv, Ne.symm hb.1]
    obtain ⟨s', hs', ha⟩ := ih (h.move (.valueChar hends hover)) ⟨_, rfl, hnext⟩ hb.2
    exact ⟨s', by simpa using hs', ha⟩

/-- A quote the scanner waits for was met, and not again since. -/
theorem Reached.exists_quote {cs : List Char} {s : Scanner} {q : Char} {n : Nat}
    (h : Reached .whole cs s) (hs : Awaits q n s) :
    ∃ a b s', cs = a ++ q :: b ∧ Text.isQuote q = true ∧ q ∉ b ∧ n = Text.size a ∧
      Reached .whole (a ++ [q]) s' ∧ Awaits q n s' := by
  induction h with
  | start =>
    obtain ⟨v, hv, -⟩ := hs
    cases hv
  | @move cs ts es pos p p' c h hm ih =>
    -- Only the moves into and through a value end in one.
    have hvalue : ∃ v v', p' = .value v' ∧ v' = v.next pos c ∧
        (p = .value v ∨ v = .initial pos) := by
      obtain ⟨v', hv', -⟩ := hs
      cases hm with
      | valueStart => exact ⟨_, _, rfl, rfl, Or.inr rfl⟩
      | valueChar => exact ⟨_, _, rfl, rfl, Or.inl rfl⟩
      | _ => cases hv'
    obtain ⟨v, v', rfl, rfl, hp⟩ := hvalue
    obtain ⟨v', hv', hq⟩ := hs
    cases hv'
    rcases quote_next hq with ⟨hv, hc⟩ | ⟨rfl, rfl, hc⟩
    · rcases hp with rfl | rfl
      · obtain ⟨a, b, s', rfl, hquote, hb, hn, hs', ha⟩ := ih ⟨v, rfl, hv⟩
        refine ⟨a, b ++ [c], s', by simp, hquote, ?_, hn, hs', ha⟩
        rw [List.mem_append, List.mem_singleton, not_or]
        exact ⟨hb, Ne.symm hc⟩
      · cases hv
    · exact ⟨cs, [], _, rfl, hc, by simp, h.pos_eq, h.move hm, _, rfl, hq⟩

end Scanner

/-! ### Reports -/

/-- Behind the text `cs` the quote `q` opens a span: whatever follows, the directive is not complete
before the next `q`, and the error stands at this one. -/
def OpensSpan (cs : List Char) (q : Char) : Prop :=
  ∀ b, q ∉ b → ∃ report, parseSyntax (String.ofList (cs ++ q :: b)) = .error report ∧
    report.diagnostic.code = some .unterminatedQuote ∧ report.position = Text.size cs

/-- The report says that the text is incomplete, and some continuation of the text is accepted.  The
position is the end of the text, or that of an opening quote that does not occur again. -/
structure IsIncomplete (text : String) (report : Report) : Prop where
  viable : Viable text.toList
  place : ((report.diagnostic.code = some .incompleteInput ∨
        report.diagnostic.code = some .unclosedList) ∧ report.position = Text.size text.toList) ∨
      (report.diagnostic.code = some .unterminatedQuote ∧
        ∃ cs q b, text.toList = cs ++ q :: b ∧ report.position = Text.size cs ∧
          Text.isQuote q = true ∧ OpensSpan cs q ∧ q ∉ b)

/-- The report says that the text is dead at its position: what stands before the character there
can be completed, and no more can be with that character. -/
structure IsDead (text : String) (report : Report) : Prop where
  code : report.diagnostic.code = some .unexpectedCharacter ∨
    report.diagnostic.code = some .nestingTooDeep
  place : ∃ cs c b, text.toList = cs ++ c :: b ∧ report.position = Text.size cs ∧ Viable cs ∧
    ¬Viable (cs ++ [c])

theorem parseSyntax_of_outline_error {text : String} {fault : Fault}
    (h : (Scan.ofChars .whole text.toList).outline = .error fault) :
    parseSyntax text = .error ⟨fault.diagnostic, text⟩ := by
  unfold parseSyntax
  rw [Draft.ofChars_eq, h]
  rfl

theorem exists_outline_error {text : String} {report : Report}
    (h : parseSyntax text = .error report) :
    ∃ fault, (Scan.ofChars .whole text.toList).outline = .error fault ∧
      report = ⟨fault.diagnostic, text⟩ := by
  cases ho : (Scan.ofChars .whole text.toList).outline with
  | error fault =>
    rw [parseSyntax_of_outline_error ho, Except.error.injEq] at h
    exact ⟨fault, rfl, h.symm⟩
  | ok x =>
    unfold parseSyntax at h
    rw [Draft.ofChars_eq, ho] at h
    cases h

namespace Scanner

/-- The outline of a scan that has a fault. -/
theorem outline_of_fault {scan : Scan} {fault : ScanFault} (h : scan.outcome = .error fault) :
    scan.outline = .error (.lexical fault) := by
  simp [Scan.outline, Scan.stream?, h, Except.map]

/-- Where the text ends with a quote open, the error stands at the quote. -/
theorem Reached.outline_of_awaits {cs : List Char} {s : Scanner} {q : Char} {n : Nat}
    (h : Reached .whole cs s) (hs : Awaits q n s) : (Scan.ofChars .whole cs).outline =
      .error (.lexical (.openQuote q (Span.ofBounds n s.pos))) := by
  obtain ⟨ts, pos, p⟩ := s
  obtain ⟨v, rfl, hv⟩ := hs
  rw [h.ofChars_eq]
  refine outline_of_fault ?_
  simp only [finish, hv]
  rfl

/-- A quote the scanner waits for opens a span. -/
theorem Reached.opensSpan {cs : List Char} {s : Scanner} {q : Char}
    (h : Reached .whole (cs ++ [q]) s) (hs : Awaits q (Text.size cs) s) : OpensSpan cs q := by
  intro b hb
  obtain ⟨s', hs', ha⟩ := h.awaits_append hs hb
  rw [List.append_assoc, List.singleton_append] at hs'
  have hscan : (Scan.ofChars .whole (String.ofList (cs ++ q :: b)).toList).outline =
      .error (.lexical (.openQuote q (Span.ofBounds (Text.size cs) s'.pos))) := by
    rw [String.toList_ofList]
    exact hs'.outline_of_awaits ha
  refine ⟨_, parseSyntax_of_outline_error hscan, rfl, ?_⟩
  show min (Text.size cs) (Text.size (String.ofList (cs ++ q :: b)).toList) = Text.size cs
  rw [String.toList_ofList, Text.size_append]
  omega

/-- What is missing at the end of a text that the scanner gets through leaves it incomplete. -/
theorem Reached.isIncomplete {text : String} {s : Scanner} {fault : Fault}
    (h : Reached .whole text.toList s) (hf : EndFault s.pos s.part fault) :
    IsIncomplete text ⟨fault.diagnostic, text⟩ := by
  refine ⟨h.viable, ?_⟩
  obtain ⟨ts, n, p⟩ := s
  have hn : n = Text.size text.toList := h.pos_eq
  cases hf with
  | incomplete =>
    refine Or.inl ⟨Or.inl rfl, ?_⟩
    show min n (Text.size text.toList) = _
    omega
  | @openList v o =>
    refine Or.inl ⟨Or.inr rfl, ?_⟩
    show min n (Text.size text.toList) = _
    omega
  | @openQuote v q start hq =>
    obtain ⟨cs, b, s', hcs, hquote, hb, rfl, hs', ha⟩ := h.exists_quote ⟨v, rfl, hq⟩
    refine Or.inr ⟨rfl, cs, q, b, hcs, ?_, hquote, hs'.opensSpan ha, hb⟩
    show min (Text.size cs) (Text.size text.toList) = Text.size cs
    rw [hcs, Text.size_append]
    omega

/-- A character that stops the scanner leaves the text dead. -/
theorem Reached.isDead {text : String} {s : Scanner} {cs b : List Char} {c : Char} {result : Scan}
    {fault : ScanFault} (h : Reached .whole cs s) (ht : text.toList = cs ++ c :: b)
    (hs : step .whole s c = .stop result) (hf : FaultAt s.pos c fault) :
    IsDead text ⟨(Fault.lexical fault).diagnostic, text⟩ := by
  have hpos : min s.pos (Text.size text.toList) = Text.size cs := by
    rw [h.pos_eq, ht, Text.size_append]
    omega
  cases hf with
  | unexpected e => exact ⟨Or.inl rfl, cs, c, b, ht, hpos, h.viable, h.not_viable hs⟩
  | nestingTooDeep => exact ⟨Or.inr rfl, cs, c, b, ht, hpos, h.viable, h.not_viable hs⟩

/-- A text with the mark in front that is rejected is incomplete or dead. -/
theorem isIncomplete_or_isDead {text : String} {rest : List Char} {fault : Fault}
    (ht : text.toList = mark.toList ++ rest)
    (h : (Scan.ofChars .whole text.toList).outline = .error fault) :
    IsIncomplete text ⟨fault.diagnostic, text⟩ ∨ IsDead text ⟨fault.diagnostic, text⟩ := by
  have hstart : Reached .whole mark.toList start := .start
  rcases hstart.extend rest with ⟨s, hs⟩ | ⟨pre, c, post, s, result, rfl, hs, hstop⟩
  · rw [← ht] at hs
    obtain ⟨ts, n, p⟩ := s
    obtain ⟨σ, hσ, hf⟩ := hs.fits
    rw [hs.ofChars_eq] at h
    rcases outline_finish (n := n) hσ hf with ⟨o, ho, -⟩ | ⟨fault', hfault, hend, -⟩
    · rw [ho] at h
      cases h
    · rw [hfault] at h
      cases h
      exact Or.inl (hs.isIncomplete hend)
  · rw [← List.append_assoc] at ht
    obtain ⟨fault', hfault, hat⟩ : StopsAt s.pos c (.stop result) := hstop ▸ stopsAt_step
    rw [ht, hs.ofChars_stop hstop, outline_of_fault hfault] at h
    cases h
    exact Or.inr (hs.isDead ht hstop hat)

end Scanner

/-- Every error of the parser has one of five codes.  A text that begins with the mark and is
rejected is either incomplete or dead, and the error says which and where. -/
theorem parseSyntax_error (text : String) (report : Report) (h : parseSyntax text = .error report) :
    (∃ code ∈ [Code.incompleteInput, .unterminatedQuote, .unclosedList, .unexpectedCharacter,
        .nestingTooDeep], report.diagnostic.code = some code) ∧
      (mark.toList <+: text.toList → Xor (IsIncomplete text report) (IsDead text report)) := by
  obtain ⟨fault, hfault, rfl⟩ := exists_outline_error h
  by_cases hmark : ∃ rest, text.toList = mark.toList ++ rest
  · obtain ⟨rest, ht⟩ := hmark
    rcases Scanner.isIncomplete_or_isDead ht hfault with hinc | hdead
    · refine ⟨?_, fun _ => Or.inl ⟨hinc, fun hdead => ?_⟩⟩
      · rcases hinc.place with ⟨hc | hc, -⟩ | ⟨hc, -⟩
        · exact ⟨_, by simp, hc⟩
        · exact ⟨_, by simp, hc⟩
        · exact ⟨_, by simp, hc⟩
      · rcases hinc.place with ⟨hc | hc, -⟩ | ⟨hc, -⟩ <;> rcases hdead.code with hd | hd <;>
          rw [hc] at hd <;> cases hd
    · refine ⟨?_, fun _ => Or.inr ⟨hdead, fun hinc => ?_⟩⟩
      · rcases hdead.code with hc | hc
        · exact ⟨_, by simp, hc⟩
        · exact ⟨_, by simp, hc⟩
      · rcases hinc.place with ⟨hc | hc, -⟩ | ⟨hc, -⟩ <;> rcases hdead.code with hd | hd <;>
          rw [hc] at hd <;> cases hd
  · rw [not_exists] at hmark
    rw [Scanner.ofChars_of_not_mark hmark, Scanner.outline_of_fault rfl] at hfault
    cases hfault
    refine ⟨⟨.unexpectedCharacter, by simp, rfl⟩, fun ⟨rest, hrest⟩ => ?_⟩
    exact absurd hrest.symm (hmark rest)

/-- A quote that is still open at the end leaves the text incomplete. -/
theorem parseSyntax_error_open_quote :
    ∃ report, parseSyntax ".p/a.b\x7bx='1\x7d" = .error report ∧ report.position = 9 ∧
      Xor (IsIncomplete ".p/a.b\x7bx='1\x7d" report) (IsDead ".p/a.b\x7bx='1\x7d" report) := by
  have h : parseSyntax ".p/a.b\x7bx='1\x7d" = .error
      ⟨(ScanFault.openQuote '\'' (Span.ofBounds 9 12)).diagnostic, ".p/a.b\x7bx='1\x7d"⟩ := by rfl
  exact ⟨_, h, by decide, (parseSyntax_error _ _ h).2 (by decide)⟩

end Directive
