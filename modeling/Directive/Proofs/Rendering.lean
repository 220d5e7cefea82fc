import Directive.Proofs.Agreement
import Directive.Proofs.Places
import Directive.Proofs.Viability
import Mathlib.Order.MinMax

/-!
# Every report can be shown

The labels of a report mark parts of its text: both ends of their spans stand between two
characters, however many bytes these have.  For a fault of the scanner this is read off the course
of its scan.  A fault of the outline lies at the end of the text.  A violation marks tokens, since an
outline has no other spans than theirs.

So the position of a report stands between two characters as well.  There `Report.pointer` cuts the
text, and what it shows is the line around the position, with the caret under the character there
(`Report.exists_line`).
-/

namespace Directive

/-! ### Boundaries -/

namespace Text

/-- The offset stands between two characters of the text, or at one of its ends. -/
def IsBoundary (n : Nat) (cs : List Char) : Prop :=
  ∃ before after, cs = before ++ after ∧ n = size before

theorem isBoundary_append (before after : List Char) :
    IsBoundary (size before) (before ++ after) :=
  ⟨before, after, rfl, rfl⟩

theorem isBoundary_size (cs : List Char) : IsBoundary (size cs) cs :=
  ⟨cs, [], (List.append_nil cs).symm, rfl⟩

theorem IsBoundary.le_size {n : Nat} {cs : List Char} (h : IsBoundary n cs) : n ≤ size cs := by
  obtain ⟨before, after, rfl, rfl⟩ := h
  rw [size_append]
  omega

end Text

namespace Span

/-- Both ends of the span stand between two characters of the text, or at its ends. -/
def OnBoundaries (s : Span) (cs : List Char) : Prop :=
  Text.IsBoundary s.start cs ∧ Text.IsBoundary s.stop cs

variable {s : Span} {cs t : List Char} {m n : Nat}

theorem onBoundaries_of_slice? (h : s.slice? cs = some t) : s.OnBoundaries cs := by
  obtain ⟨before, after, rfl, rfl⟩ := slice?_eq_some_iff.mp h
  refine ⟨Text.isBoundary_append before (t ++ after), before ++ t, after, by simp, ?_⟩
  exact (Text.size_append before t).symm

theorem onBoundaries_point (h : Text.IsBoundary n cs) : (point n).OnBoundaries cs :=
  ⟨h, h⟩

theorem onBoundaries_ofBounds (hm : Text.IsBoundary m cs) (hn : Text.IsBoundary n cs) :
    (ofBounds m n).OnBoundaries cs := by
  refine ⟨hm, ?_⟩
  show Text.IsBoundary (max n m) cs
  rcases max_choice n m with h | h
  · rwa [h]
  · rwa [h]

/-- The span of one character. -/
theorem onBoundaries_char (before : List Char) (c : Char) (after : List Char) :
    (ofSize (Text.size before) c.utf8Size).OnBoundaries (before ++ c :: after) := by
  refine onBoundaries_of_slice? (t := [c]) (slice?_eq_some_iff.mpr ⟨before, after, rfl, ?_⟩)
  rw [Text.size_cons, Text.size_nil, Nat.add_zero]

/-- The ends of a union are ends of its parts. -/
theorem OnBoundaries.union {u : Span} (hs : s.OnBoundaries cs) (hu : u.OnBoundaries cs) :
    (s.union u).OnBoundaries cs := by
  constructor
  · show Text.IsBoundary (min s.start u.start) cs
    rcases min_choice s.start u.start with h | h
    · rw [h]
      exact hs.1
    · rw [h]
      exact hu.1
  · show Text.IsBoundary (max s.stop u.stop) cs
    rcases max_choice s.stop u.stop with h | h
    · rw [h]
      exact hs.2
    · rw [h]
      exact hu.2

end Span

/-! ### Faults of scanning -/

/-- The labels of a fault mark the character that stops the scanner, the first character of a text
without the mark, or what is open at the end. -/
theorem Scanner.Course.onBoundaries {cs : List Char} {scan : Scan} {fault : ScanFault}
    (h : Course cs scan) (hfault : scan.outcome = .error fault) :
    ∀ l ∈ fault.diagnostic.labels, l.span.OnBoundaries cs := by
  cases h with
  | complete => cases hfault
  | unmarked =>
    obtain rfl := Except.error.inj hfault
    refine List.forall_mem_singleton.mpr (Span.onBoundaries_of_slice? (t := cs.take 1) ?_)
    exact Span.slice?_eq_some_iff.mpr ⟨[], cs.drop 1, (List.take_append_drop 1 cs).symm, rfl⟩
  | @unfinished _ ts n v _ hs hv =>
    obtain rfl := Except.error.inj hfault
    have hn : n = Text.size cs := hs.pos_eq
    have hend : Text.IsBoundary n cs := hn ▸ Text.isBoundary_size cs
    obtain ⟨before, t, rfl, rfl, -⟩ := hs.exists_traced rfl
    cases hv with
    | @openQuote q _ hq =>
      obtain ⟨pre, post, rfl, rfl, -⟩ := ValueState.exists_quote_of_after hq
      have hstart := Text.isBoundary_append (before ++ pre) (q :: post)
      rw [Text.size_append, List.append_assoc] at hstart
      exact List.forall_mem_singleton.mpr (Span.onBoundaries_ofBounds hstart hend)
    | openList hq hlast =>
      obtain ⟨pre, post, rfl, rfl, -⟩ := ValueState.exists_bracket_of_after hlast
      have hbracket := Span.onBoundaries_char (before ++ pre) '[' post
      rw [Text.size_append, List.append_assoc] at hbracket
      exact List.forall_mem_cons.mpr
        ⟨Span.onBoundaries_point hend, List.forall_mem_singleton.mpr hbracket⟩
  | @stopped cs rest ts es n p c _ hs hfails =>
    obtain rfl := Except.error.inj hfault
    have hn : n = Text.size cs := hs.pos_eq
    have hchar := Span.onBoundaries_char cs c rest
    rw [← hn] at hchar
    cases hfails with
    | unexpected => exact List.forall_mem_singleton.mpr hchar
    | nestingTooDeep => exact List.forall_mem_singleton.mpr hchar

/-! ### Faults of a text -/

/-- Wherever in a directive a violation may stand, its place is on boundaries if all spans are. -/
theorem Fault.onBoundaries_place {o : Outline} {cs : List Char}
    (h : ∀ s ∈ o.spans, s.OnBoundaries cs) (violation : Violation) :
    (place o violation).OnBoundaries cs := by
  have hfamily : o.family.span.OnBoundaries cs := h _ (by simp [Outline.spans])
  have hfunction : o.function.span.OnBoundaries cs := h _ (by simp [Outline.spans])
  cases violation with
  | unknownFamily => exact hfamily
  | unknownFunction => exact hfunction
  | missingParameter => exact hfamily.union hfunction
  | unknownParameter _ name => exact h _ (Outline.nameSpan_mem_spans name)
  | typeMismatch name => exact h _ (Outline.valueSpan_mem_spans name)
  | valueNotAllowed name => exact h _ (Outline.valueSpan_mem_spans name)
  | valueRejected name => exact h _ (Outline.valueSpan_mem_spans name)

/-- The labels of a fault in the syntax of a text. -/
theorem Fault.onBoundaries_of_outline {cs : List Char} {fault : Fault}
    (h : (Scan.ofChars .whole cs).outline = .error fault) :
    ∀ l ∈ fault.diagnostic.labels, l.span.OnBoundaries cs := by
  have hcourse := Scanner.course_ofChars cs
  cases houtcome : (Scan.ofChars .whole cs).outcome with
  | error scanFault =>
    rw [Scanner.outline_of_fault houtcome] at h
    cases h
    exact hcourse.onBoundaries houtcome
  | ok n =>
    obtain rfl := Scanner.eq_size_of_ok houtcome
    obtain ⟨σ, hσ, hdone⟩ := hcourse.exists_stage
    rw [Scan.outline, Scan.stream?_eq_ok_iff.mpr ⟨houtcome, rfl⟩] at h
    dsimp only at h
    -- the outline has no other fault than to be incomplete
    rcases Outline.ofTokens_ending hσ hdone (Text.size cs) with ⟨o, ho⟩ | herror
    · rw [ho] at h
      cases h
    · rw [herror] at h
      cases h
      exact List.forall_mem_singleton.mpr (Span.onBoundaries_point (Text.isBoundary_size cs))

/-- The label of a violation in a text. -/
theorem Fault.onBoundaries_of_violation {cs : List Char} {o : Outline} {n : Nat}
    (h : (Scan.ofChars .whole cs).outline = .ok (o, n)) (violation : Violation) :
    ∀ l ∈ (Fault.contractual violation o).diagnostic.labels, l.span.OnBoundaries cs := by
  obtain ⟨tokens, -, htiling, hafter, -⟩ := Scanner.exists_stream_of_outline h
  refine List.forall_mem_singleton.mpr (Fault.onBoundaries_place (fun s hs => ?_) violation)
  obtain ⟨t, ht, rfl⟩ := Stage.exists_token_of_mem_spans hafter hs
  exact Span.onBoundaries_of_slice? (htiling.slice t (List.mem_reverse.mpr ht))

/-- Every error is the account of a fault whose labels are on boundaries. -/
theorem exists_fault_of_error {r : Registry} {text : String} {report : Report}
    (h : tokenize text = .error report ∨ parseSyntax text = .error report ∨
      r.parse text = .error report) : ∃ fault : Fault, report = ⟨fault.diagnostic, text⟩ ∧
        ∀ l ∈ fault.diagnostic.labels, l.span.OnBoundaries text.toList := by
  have hsyntax : parseSyntax text = .error report → ∃ fault : Fault,
      report = ⟨fault.diagnostic, text⟩ ∧
        ∀ l ∈ fault.diagnostic.labels, l.span.OnBoundaries text.toList := by
    intro h
    obtain ⟨fault, hfault, rfl⟩ := exists_outline_error h
    exact ⟨fault, rfl, Fault.onBoundaries_of_outline hfault⟩
  rcases h with h | h | h
  · obtain ⟨fault, hfault, rfl⟩ := exists_fault_of_tokenize h
    exact ⟨.lexical fault, rfl, (Scanner.course_ofChars text.toList).onBoundaries hfault⟩
  · exact hsyntax h
  · cases hparse : parseSyntax text with
    | error report' =>
      rw [Registry.parse_of_parseSyntax_error hparse] at h
      cases h
      exact hsyntax hparse
    | ok c =>
      -- the syntax is right, so it is the check that fails
      obtain ⟨d, hd, -⟩ := exists_draft_of_parseSyntax hparse
      obtain ⟨violation, -, rfl⟩ := Registry.exists_violation_of_parse hd h
      obtain ⟨o, n, ho, rfl⟩ := Draft.ofChars_eq_ok_iff.mp hd
      exact ⟨_, rfl, Fault.onBoundaries_of_violation ho violation⟩

/-! ### Lines -/

/-- The line of the text around offset `n`: `before` stands in front of the offset, `behind` behind
it. -/
def Text.IsLineAt (cs : List Char) (n : Nat) (before behind : List Char) : Prop :=
  ∃ above below, cs = above ++ (before ++ behind) ++ below ∧ n = Text.size (above ++ before) ∧
    '\n' ∉ before ++ behind ∧ (above = [] ∨ above.getLast? = some '\n') ∧
      (below = [] ∨ below.head? = some '\n')

/-- Before an offset and behind it the line goes as far as there is no line break. -/
theorem Text.isLineAt_of_append (front rest : List Char) :
    IsLineAt (front ++ rest) (size front) (front.rtakeWhile (· != '\n'))
      (rest.takeWhile (· != '\n')) := by
  refine ⟨front.rdropWhile (· != '\n'), rest.dropWhile (· != '\n'), ?_, ?_, ?_, ?_, ?_⟩
  -- the two parts of the line and what is around them make up the text
  · rw [← List.append_assoc, List.rdropWhile_append_rtakeWhile, List.append_assoc,
      List.takeWhile_append_dropWhile]
  · rw [List.rdropWhile_append_rtakeWhile]
  · intro hmem
    rcases List.mem_append.mp hmem with hmem | hmem
    · have := List.mem_rtakeWhile_imp hmem
      simp at this
    · have := List.mem_takeWhile_imp hmem
      simp at this
  -- what stops the search is a line break, if anything does
  · by_cases hnil : front.rdropWhile (· != '\n') = []
    · exact Or.inl hnil
    · have hlast := List.rdropWhile_last_not (· != '\n') front hnil
      refine Or.inr ?_
      rw [List.getLast?_eq_some_getLast hnil]
      simpa using hlast
  · have hhead := List.head?_dropWhile_not (· != '\n') rest
    cases hdrop : rest.dropWhile (· != '\n') with
    | nil => exact Or.inl rfl
    | cons c cs =>
      rw [hdrop] at hhead
      exact Or.inr (by simpa using hhead)

namespace Report

/-- A report whose position is a boundary shows the line around it, with the caret behind as many
spaces as there are characters in front of the position. -/
theorem exists_line {report : Report}
    (h : Text.IsBoundary report.position report.source.toList) : ∃ before behind,
      Text.IsLineAt report.source.toList report.position before behind ∧
        report.pointer = report.diagnostic.message ++ "\n" ++ String.ofList (before ++ behind) ++
          "\n" ++ String.ofList (List.replicate before.length ' ') ++ "^" := by
  obtain ⟨front, rest, hcs, hn⟩ := h
  have hbefore : report.lineBefore = front.rtakeWhile (· != '\n') := by
    rw [lineBefore, hcs, hn, Text.takeBytes_size_append]
    rfl
  have hbehind : report.lineAfter = rest.takeWhile (· != '\n') := by
    rw [lineAfter, hcs, hn, Text.dropBytes_size]
  refine ⟨report.lineBefore, report.lineAfter, ?_, rfl⟩
  rw [hbefore, hbehind, hcs, hn]
  exact Text.isLineAt_of_append front rest

end Report

/-! ### Reports -/

/-- A diagnostic has one primary label. -/
theorem Fault.exists_primary (fault : Fault) :
    ∃ l, fault.diagnostic.labels.filter (fun l => l.style == .primary) = [l] := by
  cases fault with
  | lexical fault => cases fault <;> exact ⟨_, rfl⟩
  | structural fault => cases fault <;> exact ⟨_, rfl⟩
  | contractual => exact ⟨_, rfl⟩

/-- Every error of the scanner, of the parser, or of a check against any registry can be shown: its
labels are within the text and on boundaries of characters, one of them is the primary one, and at
its start the report cuts out the line of the text. -/
theorem Registry.error_renderable (r : Registry) (text : String) (report : Report)
    (h : tokenize text = .error report ∨ parseSyntax text = .error report ∨
      r.parse text = .error report) :
    report.source = text ∧
    (∀ l ∈ report.diagnostic.labels, l.span.start ≤ l.span.stop ∧
      l.span.stop ≤ Text.size text.toList ∧ l.span.OnBoundaries text.toList) ∧
    (∃ l, report.diagnostic.labels.filter (fun l => l.style == .primary) = [l] ∧
      report.position = l.span.start) ∧
    ∃ before behind, Text.IsLineAt text.toList report.position before behind ∧
      report.pointer = report.diagnostic.message ++ "\n" ++ String.ofList (before ++ behind) ++
        "\n" ++ String.ofList (List.replicate before.length ' ') ++ "^" := by
  obtain ⟨fault, rfl, hlabels⟩ := exists_fault_of_error h
  obtain ⟨l, hprimary⟩ := fault.exists_primary
  have hl : l ∈ fault.diagnostic.labels :=
    List.mem_of_mem_filter (hprimary ▸ List.mem_singleton_self l)
  have hposition : (Report.mk fault.diagnostic text).position = l.span.start := by
    have hspan : fault.diagnostic.primarySpan? = some l.span := by
      rw [Diagnostic.primarySpan?, ← List.head?_filter, hprimary]
      rfl
    simp only [Report.position, hspan]
    exact Nat.min_eq_left (hlabels l hl).1.le_size
  have hboundary : Text.IsBoundary (Report.mk fault.diagnostic text).position text.toList := by
    rw [hposition]
    exact (hlabels l hl).1
  exact ⟨rfl, fun l hl => ⟨l.span.start_le_stop, (hlabels l hl).2.le_size, hlabels l hl⟩,
    ⟨l, hprimary, hposition⟩, Report.exists_line hboundary⟩

/-- An error on the second line, behind a blank of three bytes. -/
theorem Registry.error_renderable_second_line : ∃ report before behind,
    tokenize ".p/a.b \x7bx=é,\n\u3000ü=1\x7d" = .error report ∧ report.position = 17 ∧
      Text.IsLineAt ".p/a.b \x7bx=é,\n\u3000ü=1\x7d".toList report.position before behind ∧
      report.pointer = "expected parameter name\n" ++ String.ofList (before ++ behind) ++ "\n" ++
        String.ofList (List.replicate before.length ' ') ++ "^" := by
  have h : tokenize ".p/a.b \x7bx=é,\n\u3000ü=1\x7d" = .error
      ⟨(ScanFault.unexpected .name (Span.ofSize 17 2)).diagnostic,
        ".p/a.b \x7bx=é,\n\u3000ü=1\x7d"⟩ := by rfl
  obtain ⟨-, -, -, before, behind, hline, hpointer⟩ :=
    Registry.error_renderable .empty _ _ (Or.inl h)
  exact ⟨_, before, behind, h, by decide, hline, hpointer⟩

end Directive
