import Directive.Proofs.Outline
import Directive.Proofs.Streams

/-!
# Where the outline of a stream fails

The scanner and the outline agree on a text.  Its tokens, up to where the scanner stops, lead the
outline to a stage that wants more, so the outline gets as far as the scanner does.  There only the
end of the text can be wrong, if nothing else is; and what the scanner could not read is a token
that fits at no stage.
-/

namespace Directive

/-- The diagnostic has the code, and its one label marks the span as the place of the failure. -/
def Diagnostic.Marks (d : Diagnostic) (code : Code) (span : Span) : Prop :=
  d.code = some code ∧ ∃ text, d.labels = [⟨.primary, span, text⟩]

/-! ### Tokens that end a stream -/

namespace Stage

variable {σ σ' : Stage} {t : Token} {ts : List Token}

theorem Takes.kind_ne_invalid (h : Takes σ t σ') : t.kind ≠ .invalid := by
  cases h <;> simp [*]

/-- Only an end token ends the outline, and it does nothing else. -/
theorem Takes.exists_done (h : Takes σ t σ') (hk : t.kind = .endOfInput) : ∃ o, σ' = .done o := by
  cases h with
  | bareEnd => exact ⟨_, rfl⟩
  | ending => exact ⟨_, rfl⟩
  | _ hk' =>
    rw [hk] at hk'
    cases hk'

/-- What could not be scanned fits nowhere. -/
theorem next?_of_invalid (σ : Stage) (h : t.kind = .invalid) : σ.next? t = none := by
  cases hnext : σ.next? t with
  | none => rfl
  | some σ' => exact absurd h (takes_of_next? hnext).kind_ne_invalid

theorem kind_ne_invalid_of_after? (h : Stage.mark.after? ts = some σ) :
    ∀ t ∈ ts, t.kind ≠ .invalid := by
  have hreverse : ∀ t ∈ ts.reverse, t.kind ≠ .invalid :=
    after?_induct (P := fun _ ts => ∀ t ∈ ts, t.kind ≠ .invalid) (List.forall_mem_nil _)
      (fun hts ht => List.forall_mem_cons.mpr ⟨ht.kind_ne_invalid, hts⟩) h
  exact fun t ht => hreverse t (List.mem_reverse.mpr ht)

end Stage

/-- Behind tokens that fit, the end of the text ends the outline or leaves it incomplete. -/
theorem Outline.ofTokens_ending {ts : List Token} {σ : Stage}
    (hσ : Stage.mark.after? ts = some σ) (hdone : ∀ o, σ ≠ .done o) (n : Nat) :
    (∃ o, ofTokens (ts ++ [Token.ending n]) = .ok o) ∨
      ofTokens (ts ++ [Token.ending n]) = .error (.incomplete σ.expected (Span.point n)) := by
  cases hnext : σ.next? (Token.ending n) with
  | none => exact Or.inr (ofTokens_of_next?_eq_none hσ hdone hnext [])
  | some σ' =>
    obtain ⟨o, rfl⟩ := (Stage.takes_of_next? hnext).exists_done rfl
    exact Or.inl ⟨o, ofTokens_of_done hσ hnext⟩

/-! ### Outlines of texts -/

/-- The scanner and the outline agree on every text.  A text that can be scanned has the same stream
in both ways, and it either has an outline or is incomplete, and then at its very end.  In the
stream of any other text, the tokens before the invalid one all fit, and the outline fails at just
that token. -/
theorem outline_of_scan (text : String) :
    match tokenize text with
    | .ok tokens => scan text = tokens ∧
        ((∃ o, Outline.ofTokens tokens = .ok o) ∨
          ∃ fault, Outline.ofTokens tokens = .error fault ∧
            fault.diagnostic.Marks .incompleteInput (Span.point (Text.size text.toList)))
    | .error _ => ∃ before invalid stage fault,
        scan text = before ++ [invalid, Token.ending (Text.size text.toList)] ∧
        (∀ t ∈ before, t.kind ≠ .invalid) ∧ invalid.kind = .invalid ∧
        Stage.mark.after? before = some stage ∧
        Outline.ofTokens (scan text) = .error fault ∧
        fault.diagnostic.Marks .unexpectedToken invalid.span := by
  obtain ⟨σ, hσ, hdone⟩ := (Scanner.course_ofChars text.toList).exists_stage
  unfold tokenize
  cases houtcome : (Scan.ofChars .whole text.toList).outcome with
  | ok n =>
    obtain rfl := Scanner.eq_size_of_ok houtcome
    rw [Scan.stream?_eq_ok_iff.mpr ⟨houtcome, rfl⟩]
    refine ⟨by simp only [scan, Scan.stream, houtcome], ?_⟩
    rcases Outline.ofTokens_ending hσ hdone (Text.size text.toList) with hok | herror
    · exact Or.inl hok
    · exact Or.inr ⟨_, herror, rfl, _, rfl⟩
  | error fault =>
    have hstream : (Scan.ofChars .whole text.toList).stream? = .error fault := by
      rw [Scan.stream?, houtcome]
      rfl
    obtain ⟨invalid, hinvalid, hscan⟩ : ∃ invalid : Token, invalid.kind = .invalid ∧
        scan text = (Scan.ofChars .whole text.toList).tokens ++
          [invalid, Token.ending (Text.size text.toList)] := by
      simp only [scan, Scan.stream, houtcome]
      exact ⟨_, rfl, rfl⟩
    have hfault := Outline.ofTokens_of_next?_eq_none hσ hdone (σ.next?_of_invalid hinvalid)
      [Token.ending (Text.size text.toList)]
    rw [← hscan, GrammarFault.ofToken, if_neg (by rw [hinvalid]; decide)] at hfault
    rw [hstream]
    exact ⟨_, invalid, σ, _, hscan, Stage.kind_ne_invalid_of_after? hσ, hinvalid, hσ, hfault, rfl,
      _, rfl⟩

/-- A colon in the place of the sign stops the scanner, and with it the outline. -/
theorem outline_of_scan_colon : ∃ before invalid stage fault,
    scan ".p/a.b\x7bx:1\x7d" = before ++ [invalid, Token.ending 11] ∧
      (∀ t ∈ before, t.kind ≠ .invalid) ∧ invalid.kind = .invalid ∧
      Stage.mark.after? before = some stage ∧
      Outline.ofTokens (scan ".p/a.b\x7bx:1\x7d") = .error fault ∧
      fault.diagnostic.Marks .unexpectedToken invalid.span := by
  have h := outline_of_scan ".p/a.b\x7bx:1\x7d"
  have hreport : tokenize ".p/a.b\x7bx:1\x7d" = .error ⟨(ScanFault.unexpected .equals
      (Span.ofSize 8 1)).diagnostic, ".p/a.b\x7bx:1\x7d"⟩ := by rfl
  rw [hreport] at h
  exact h

end Directive
