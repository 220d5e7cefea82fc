import Directive.Outline
import Directive.Proofs.Grammar
import Directive.Proofs.Scanner

/-!
# Scanner and outline in lock step

Every token the scanner completes is one that the outline expects next.  `Fits p σ` says which stage
of the outline belongs to a part of the directive; each move of the scanner keeps it, so the tokens
of a scan that has not stopped lead the outline to a stage that fits the scanner's part.  Where the
scan of a whole text stops, the outline still wants more (`Scanner.Course.exists_stage`).
-/

namespace Directive

open Grammar (IsName NameChars)

/-! ### Stages after tokens -/

namespace Stage

/-- The stage after some tokens, if all of them fit. -/
def after? (σ : Stage) (ts : List Token) : Option Stage :=
  ts.foldlM Stage.next? σ

theorem after?_append {σ σ' : Stage} {ts us : List Token} (h : σ.after? ts = some σ') :
    σ.after? (ts ++ us) = σ'.after? us := by
  unfold after? at h ⊢
  rw [List.foldlM_append, h]
  rfl

/-- Before the end, the next token decides how reading goes on. -/
theorem run_cons {σ : Stage} (hdone : ∀ o, σ ≠ .done o) (last : Nat) (t : Token)
    (ts : List Token) : run last σ (t :: ts) =
      match σ.next? t with
      | some σ' => run t.span.stop σ' ts
      | none => .error (.ofToken σ.expected t) := by
  cases σ with
  | done o => exact absurd rfl (hdone o)
  | _ => rfl

/-- Tokens that fit are read, and reading goes on at the stage they lead to. -/
theorem run_append {σ σ' : Stage} {ts : List Token} (h : σ.after? ts = some σ') (last : Nat) :
    ∃ last', ∀ us, run last σ (ts ++ us) = run last' σ' us := by
  induction ts generalizing σ last with
  | nil =>
    cases h
    exact ⟨last, fun us => rfl⟩
  | cons t ts ih =>
    unfold after? at h
    rw [List.foldlM_cons] at h
    cases hn : σ.next? t with
    | none =>
      rw [hn] at h
      cases h
    | some σ₁ =>
      rw [hn] at h
      obtain ⟨last', hrun⟩ := ih h t.span.stop
      refine ⟨last', fun us => ?_⟩
      rw [← hrun, List.cons_append]
      -- Only the last stage takes no token, and it is not the one at hand.
      cases σ with
      | done o => cases hn
      | _ => simp only [run, hn]

end Stage

namespace Outline

variable {ts : List Token} {σ : Stage} {t : Token}

/-- Behind tokens that fit, a token may end the outline. -/
theorem ofTokens_of_done {o : Outline} (hσ : Stage.mark.after? ts = some σ)
    (ht : σ.next? t = some (.done o)) : ofTokens (ts ++ [t]) = .ok o := by
  obtain ⟨last, hrun⟩ := Stage.run_append hσ 0
  unfold ofTokens
  rw [hrun]
  cases σ with
  | done o' => cases ht
  | _ => simp only [Stage.run, ht]

/-- Behind tokens that fit, the fault lies with the first token that does not. -/
theorem ofTokens_of_next?_eq_none (hσ : Stage.mark.after? ts = some σ) (hdone : ∀ o, σ ≠ .done o)
    (ht : σ.next? t = none) (us : List Token) :
    ofTokens (ts ++ t :: us) = .error (.ofToken σ.expected t) := by
  obtain ⟨last, hrun⟩ := Stage.run_append hσ 0
  unfold ofTokens
  rw [hrun, Stage.run_cons hdone, ht]

end Outline

namespace Scanner

/-! ### Parts and stages -/

/-- The stage of the outline that belongs to a part of the directive.  What has been read of a name
consists of name characters, and no more brackets are open than lists may nest. -/
inductive Fits : Part → Stage → Prop
  | family {start : Nat} {read : List Char} :
      NameChars read → Fits (.family start read) .family
  | function {start : Nat} {read : List Char} {f : Piece} :
      NameChars read → Fits (.function start read) (.function f)
  | gap {ended : Nat} {f g : Piece} : Fits (.gap ended) (.blockOrEnd f g)
  | entryFirst {f g : Piece} : Fits (.entry true) (.nameOrClose f g)
  | entry {f g : Piece} {ps : List RawParam} : Fits (.entry false) (.name f g ps)
  | nameFirst {start : Nat} {read : List Char} {f g : Piece} :
      IsName read → Fits (.name start read) (.nameOrClose f g)
  | name {start : Nat} {read : List Char} {f g : Piece} {ps : List RawParam} :
      IsName read → Fits (.name start read) (.name f g ps)
  | equals {f g n : Piece} {ps : List RawParam} : Fits .equals (.equals f g ps n)
  | beforeValue {f g n : Piece} {ps : List RawParam} : Fits .beforeValue (.value f g ps n)
  | value {v : ValueState} {f g n : Piece} {ps : List RawParam} :
      v.opened.length ≤ maxListDepth → Fits (.value v) (.value f g ps n)
  | closed {f g : Piece} {ps : List RawParam} : Fits .closed (.ending f g ps)

/-- A character that does not nest too deep opens at most one bracket. -/
theorem length_opened_next {v : ValueState} {pos : Nat} {c : Char}
    (h : v.opened.length ≤ maxListDepth) (ho : v.overflows c = false) :
    (v.next pos c).opened.length ≤ maxListDepth := by
  obtain ⟨-, -, hkeep | ⟨hq, rfl, hopen⟩ | hclose⟩ := v.next_cases pos c
  · rw [hkeep]
    exact h
  · have hne : v.opened.length ≠ maxListDepth := by
      intro hmax
      rw [ValueState.overflows_iff.mpr ⟨hq, rfl, hmax⟩] at ho
      cases ho
    rw [hopen, List.length_cons]
    omega
  · rw [hclose, List.length_drop]
    omega

/-- The tokens that a move completes lead the outline from a stage that fits to one that fits. -/
theorem Move.fits {extent : Extent} {n : Nat} {p p' : Part} {c : Char} {es : List Token}
    {σ : Stage} (h : Move extent n p c es p') (hf : Fits p σ) :
    ∃ σ', σ.after? es.reverse = some σ' ∧ Fits p' σ' := by
  cases h with
  | familyChar hc =>
    cases hf with
    | family hr => exact ⟨_, rfl, .family (List.forall_mem_cons.mpr ⟨hc, hr⟩)⟩
  | familyEnd =>
    cases hf with
    | family hr => exact ⟨_, rfl, .function (by simp [NameChars])⟩
  | functionChar hc =>
    cases hf with
    | function hr => exact ⟨_, rfl, .function (List.forall_mem_cons.mpr ⟨hc, hr⟩)⟩
  | functionBlank =>
    cases hf
    exact ⟨_, rfl, .gap⟩
  | functionOpen =>
    cases hf
    exact ⟨_, rfl, .entryFirst⟩
  | gapBlank =>
    cases hf
    exact ⟨_, rfl, .gap⟩
  | gapOpen =>
    cases hf
    exact ⟨_, rfl, .entryFirst⟩
  | entryBlank => exact ⟨σ, rfl, hf⟩
  | entryName hc =>
    have hr : IsName [c] := ⟨List.cons_ne_nil _ _, List.forall_mem_cons.mpr ⟨hc, by simp⟩⟩
    cases hf with
    | entryFirst => exact ⟨_, rfl, .nameFirst hr⟩
    | entry => exact ⟨_, rfl, .name hr⟩
  | entryClose =>
    cases hf
    exact ⟨_, rfl, .closed⟩
  | @nameChar _ read _ hc =>
    have hcons : ∀ {read : List Char}, IsName read → IsName (c :: read) := fun hr =>
      ⟨List.cons_ne_nil _ _, List.forall_mem_cons.mpr ⟨hc, hr.2⟩⟩
    cases hf with
    | nameFirst hr => exact ⟨_, rfl, .nameFirst (hcons hr)⟩
    | name hr => exact ⟨_, rfl, .name (hcons hr)⟩
  | nameBlank =>
    cases hf with
    | nameFirst => exact ⟨_, rfl, .equals⟩
    | name => exact ⟨_, rfl, .equals⟩
  | nameSign =>
    cases hf with
    | nameFirst => exact ⟨_, rfl, .beforeValue⟩
    | name => exact ⟨_, rfl, .beforeValue⟩
  | equalsBlank => exact ⟨σ, rfl, hf⟩
  | equalsSign =>
    cases hf
    exact ⟨_, rfl, .beforeValue⟩
  | valueBlank => exact ⟨σ, rfl, hf⟩
  | valueStart hb hcomma hbrace =>
    cases hf
    exact ⟨_, rfl, .value (length_opened_next (Nat.zero_le _) (ValueState.overflows_initial _ _))⟩
  | valueChar he ho =>
    cases hf with
    | value hv => exact ⟨_, rfl, .value (length_opened_next hv ho)⟩
  | valueComma =>
    cases hf
    exact ⟨_, rfl, .entry⟩
  | valueClose =>
    cases hf
    exact ⟨_, rfl, .closed⟩
  | closedBlank => exact ⟨σ, rfl, hf⟩

/-- The tokens of a reached state lead the outline to a stage that fits. -/
theorem Reached.fits {extent : Extent} {cs : List Char} {s : Scanner} (h : Reached extent cs s) :
    ∃ σ, Stage.mark.after? s.tokens.reverse = some σ ∧ Fits s.part σ := by
  induction h with
  | start => exact ⟨.family, rfl, .family (by simp [NameChars])⟩
  | move _ hm ih =>
    obtain ⟨σ, hσ, hf⟩ := ih
    obtain ⟨σ', hσ', hf'⟩ := hm.fits hf
    refine ⟨σ', ?_, hf'⟩
    rw [List.reverse_append, Stage.after?_append hσ, hσ']

/-! ### Scans that have stopped -/

/-- The outline is not complete before the scanner has stopped. -/
theorem Fits.ne_done {p : Part} {σ : Stage} (h : Fits p σ) (o : Outline) : σ ≠ .done o := by
  rintro rfl
  cases h

/-- A token that is completed at the end of a text leads to a stage that wants more. -/
theorem Completes.fits {p : Part} {es : List Token} {σ : Stage} (h : Completes p es)
    (hf : Fits p σ) : ∃ σ', σ.after? es.reverse = some σ' ∧ ∀ o, σ' ≠ .done o := by
  cases h with
  | family =>
    cases hf
    exact ⟨_, rfl, fun _ => Stage.noConfusion⟩
  | function =>
    cases hf
    exact ⟨_, rfl, fun _ => Stage.noConfusion⟩
  | name =>
    cases hf with
    | nameFirst => exact ⟨_, rfl, fun _ => Stage.noConfusion⟩
    | name => exact ⟨_, rfl, fun _ => Stage.noConfusion⟩
  | value =>
    cases hf
    exact ⟨_, rfl, fun _ => Stage.noConfusion⟩
  | nothing => exact ⟨σ, rfl, hf.ne_done⟩

/-- The tokens of a state, with those that complete what has been read, lead to a stage that wants
more. -/
theorem Reached.exists_stage {extent : Extent} {cs : List Char} {ts es : List Token} {n : Nat}
    {p : Part} (h : Reached extent cs ⟨ts, n, p⟩) (hp : Completes p es) :
    ∃ σ, Stage.mark.after? (es ++ ts).reverse = some σ ∧ ∀ o, σ ≠ .done o := by
  obtain ⟨σ, hσ, hf⟩ := h.fits
  obtain ⟨σ', hσ', hdone⟩ := hp.fits hf
  refine ⟨σ', ?_, hdone⟩
  rw [List.reverse_append, Stage.after?_append hσ, hσ']

/-- However the scan of a whole text goes, its tokens lead the outline to a stage that wants
more. -/
theorem Course.exists_stage {cs : List Char} {scan : Scan} (h : Course cs scan) :
    ∃ σ, Stage.mark.after? scan.tokens = some σ ∧ ∀ o, σ ≠ .done o := by
  -- a value that is not complete has no token, and the stage is the one that fits it
  have hreached : ∀ {cs ts n p}, Reached .whole cs ⟨ts, n, p⟩ →
      ∃ σ, Stage.mark.after? ts.reverse = some σ ∧ ∀ o, σ ≠ .done o := by
    intro cs ts n p hs
    obtain ⟨σ, hσ, hf⟩ := hs.fits
    exact ⟨σ, hσ, hf.ne_done⟩
  cases h with
  | unmarked => exact ⟨.mark, rfl, fun _ => Stage.noConfusion⟩
  | complete hs hp => exact hs.exists_stage hp
  | unfinished hs => exact hreached hs
  | stopped hs hfails =>
    cases hfails with
    | unexpected e hp => exact hs.exists_stage hp
    | nestingTooDeep => exact hreached hs

end Scanner

end Directive
