import Directive.Proofs.Acceptance

/-!
# Drafts and the scans they come from

A draft comes from the outline of a scan and holds the text that the scan spans; a checked draft is
one whose command meets its contract.  These are the equations through which drafts are spoken of:
what `Draft.ofChars`, `Registry.draft`, `Registry.parse` and `parseSyntax` return, and when.
-/

namespace Directive

/-! ### Drafts -/

/-- A draft is an outline with the command read from it. -/
theorem Draft.ofChars_eq_ok_iff {extent : Extent} {cs : List Char} {d : Draft} :
    Draft.ofChars extent cs = .ok d ↔ ∃ o n, (Scan.ofChars extent cs).outline = .ok (o, n) ∧
      d = ⟨o.command (String.ofList (Text.takeBytes n cs)), o, n⟩ := by
  rw [Draft.ofChars_eq]
  cases (Scan.ofChars extent cs).outline with
  | error fault =>
    constructor
    · intro h
      cases h
    · rintro ⟨o, n, h, -⟩
      cases h
  | ok x =>
    obtain ⟨o, n⟩ := x
    constructor
    · intro h
      exact ⟨o, n, rfl, (Except.ok.inj h).symm⟩
    · rintro ⟨o', n', h, rfl⟩
      cases h
      rfl

/-- The syntax of a text is the command of its draft. -/
theorem parseSyntax_of_draft {text : String} {d : Draft}
    (h : Draft.ofChars .whole text.toList = .ok d) : parseSyntax text = .ok d.command := by
  unfold parseSyntax
  rw [h]

theorem exists_draft_of_parseSyntax {text : String} {c : Command} (h : parseSyntax text = .ok c) :
    ∃ d, Draft.ofChars .whole text.toList = .ok d ∧ d.command = c := by
  unfold parseSyntax at h
  cases hd : Draft.ofChars .whole text.toList with
  | ok d =>
    rw [hd] at h
    exact ⟨d, rfl, Except.ok.inj h⟩
  | error fault =>
    rw [hd] at h
    cases h

namespace Registry

variable {r : Registry}

/-- A checked draft is a draft without a violation. -/
theorem draft_eq_ok_iff {extent : Extent} {cs : List Char} {d : Draft} :
    r.draft extent cs = .ok d ↔
      Draft.ofChars extent cs = .ok d ∧ r.violation? d.command = none := by
  unfold draft
  cases Draft.ofChars extent cs with
  | error fault =>
    constructor
    · intro h
      cases h
    · rintro ⟨h, -⟩
      cases h
  | ok d' =>
    dsimp only
    cases hv : r.violation? d'.command with
    | none =>
      constructor
      · intro h
        cases h
        exact ⟨rfl, hv⟩
      · rintro ⟨h, -⟩
        exact h
    | some violation =>
      constructor
      · intro h
        cases h
      · rintro ⟨h, hnone⟩
        cases h
        rw [hv] at hnone
        cases hnone

/-- The text of a checked draft is what its scan spans. -/
theorem source_of_draft {extent : Extent} {cs : List Char} {d : Draft}
    (h : r.draft extent cs = .ok d) :
    d.command.source = String.ofList (Text.takeBytes d.consumed cs) := by
  obtain ⟨o, n, -, rfl⟩ := Draft.ofChars_eq_ok_iff.mp (draft_eq_ok_iff.mp h).1
  rfl

theorem parse_eq_ok_iff {text : String} {c : Command} :
    r.parse text = .ok c ↔ ∃ d, r.draft .whole text.toList = .ok d ∧ d.command = c := by
  unfold parse
  cases r.draft .whole text.toList with
  | error fault =>
    constructor
    · intro h
      cases h
    · rintro ⟨d, h, -⟩
      cases h
  | ok d =>
    constructor
    · intro h
      exact ⟨d, rfl, Except.ok.inj h⟩
    · rintro ⟨d', h, rfl⟩
      cases h
      rfl

/-- What the check accepts has the syntax of a directive. -/
theorem parseSyntax_of_parse {text : String} {c : Command} (h : r.parse text = .ok c) :
    parseSyntax text = .ok c := by
  obtain ⟨d, hd, rfl⟩ := parse_eq_ok_iff.mp h
  exact parseSyntax_of_draft (draft_eq_ok_iff.mp hd).1

/-- A text is read exactly if its syntax is, and its command is without a violation. -/
theorem parse_eq_ok_iff_parseSyntax {text : String} {c : Command} :
    r.parse text = .ok c ↔ parseSyntax text = .ok c ∧ r.violation? c = none := by
  constructor
  · intro h
    obtain ⟨d, hd, rfl⟩ := parse_eq_ok_iff.mp h
    exact ⟨parseSyntax_of_parse h, (draft_eq_ok_iff.mp hd).2⟩
  · rintro ⟨h, hv⟩
    obtain ⟨d, hd, rfl⟩ := exists_draft_of_parseSyntax h
    exact parse_eq_ok_iff.mpr ⟨d, draft_eq_ok_iff.mpr ⟨hd, hv⟩, rfl⟩

/-- A text whose syntax is wrong is not checked. -/
theorem parse_of_parseSyntax_error {text : String} {report : Report}
    (h : parseSyntax text = .error report) : r.parse text = .error report := by
  unfold parseSyntax at h
  unfold parse draft
  cases hd : Draft.ofChars .whole text.toList with
  | ok d =>
    rw [hd] at h
    cases h
  | error fault =>
    rw [hd] at h
    exact h

/-- The report of a violation tells its code and its message. -/
theorem parse_of_violation {text : String} {c : Command} {violation : Violation}
    (h : parseSyntax text = .ok c) (hv : r.violation? c = some violation) :
    ∃ report, r.parse text = .error report ∧ report.source = text ∧
      report.diagnostic.code = some violation.code ∧
        report.diagnostic.message = violation.message := by
  obtain ⟨d, hd, rfl⟩ := exists_draft_of_parseSyntax h
  refine ⟨⟨(Fault.contractual violation d.outline).diagnostic, text⟩, ?_, rfl, rfl, rfl⟩
  unfold parse draft
  rw [hd]
  dsimp only
  rw [hv]

/-- What the check of a draft reports is a violation of its command. -/
theorem exists_violation_of_parse {text : String} {d : Draft} {report : Report}
    (hd : Draft.ofChars .whole text.toList = .ok d) (h : r.parse text = .error report) :
    ∃ violation, r.violation? d.command = some violation ∧
      report = ⟨(Fault.contractual violation d.outline).diagnostic, text⟩ := by
  unfold parse draft at h
  rw [hd] at h
  dsimp only at h
  cases hv : r.violation? d.command with
  | none =>
    rw [hv] at h
    cases h
  | some violation =>
    rw [hv] at h
    exact ⟨violation, rfl, (Except.error.inj h).symm⟩

end Registry

end Directive
