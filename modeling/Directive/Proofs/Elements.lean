import Directive.Proofs.Grammar

/-!
# Splitting a list into its elements

The splitting of a list passes over the text of an element without finding a comma that counts: the
commas of inner groups stand in brackets, and those of a quoted span stand between quotes that
match.  `Passes s t s'` says so; it is shown along the grammar, one lemma for each of its kinds of
text, and it gives the elements of a group back from its text (`elements_eq`).
-/

namespace Directive.Value

open Grammar
open Text (Blanks)

/-- Puts a text in front of the first element. -/
def prepend (t : List Char) (es : List (List Char)) : List (List Char) :=
  t.foldr consHead es

theorem prepend_append (t u : List Char) (es : List (List Char)) :
    prepend (t ++ u) es = prepend t (prepend u es) :=
  List.foldr_append

theorem prepend_cons (t e : List Char) (es : List (List Char)) :
    prepend t (e :: es) = (t ++ e) :: es := by
  induction t with
  | nil => rfl
  | cons c t ih =>
    show consHead c (prepend t (e :: es)) = _
    rw [ih]
    rfl

/-- Splitting passes over the text `t`, from state `s` to state `s'`, whatever follows. -/
def Passes (s : ElementState) (t : List Char) (s' : ElementState) : Prop :=
  ∀ rest, elementsFrom s (t ++ rest) = prepend t (elementsFrom s' rest)

theorem passes_nil (s : ElementState) : Passes s [] s :=
  fun _ => rfl

theorem Passes.append {s s₁ s₂ : ElementState} {t u : List Char} (h : Passes s t s₁)
    (hu : Passes s₁ u s₂) : Passes s (t ++ u) s₂ := by
  intro rest
  rw [List.append_assoc, h, hu, prepend_append]

theorem passes_cons {s s₁ s' : ElementState} {c : Char} {t : List Char} (hc : s.splits c = false)
    (hs : ∀ rest, s.next c rest = s₁) (ht : Passes s₁ t s') : Passes s (c :: t) s' := by
  intro rest
  show elementsFrom s (c :: (t ++ rest)) = consHead c (prepend t (elementsFrom s' rest))
  rw [elementsFrom, hc, hs, ht]
  rfl

/-! ### Single characters -/

section

variable {d : Nat} {fresh : Bool} {c : Char} {t : List Char} {s' : ElementState}

theorem passes_open (ht : Passes ⟨d + 1, true, none⟩ t s') :
    Passes ⟨d, fresh, none⟩ ('[' :: t) s' := by
  refine passes_cons (by simp [ElementState.splits]) (fun rest => ?_) ht
  simp [ElementState.next, Text.isQuote]

theorem passes_close (ht : Passes ⟨d, false, none⟩ t s') :
    Passes ⟨d + 1, fresh, none⟩ (']' :: t) s' := by
  refine passes_cons (by simp [ElementState.splits]) (fun rest => ?_) ht
  simp [ElementState.next, Text.isQuote]

/-- A comma in brackets does not count. -/
theorem passes_comma (ht : Passes ⟨d + 1, true, none⟩ t s') :
    Passes ⟨d + 1, fresh, none⟩ (',' :: t) s' := by
  refine passes_cons (by simp [ElementState.splits]) (fun rest => ?_) ht
  simp [ElementState.next, Text.isQuote]

/-- After a blank an element may still begin. -/
theorem passes_ordinary (hc : Place.ordinary .element c = true)
    (hq : fresh = true → Text.isQuote c = false)
    (ht : Passes ⟨d, fresh && Text.isBlank c, none⟩ t s') :
    Passes ⟨d, fresh, none⟩ (c :: t) s' := by
  have hne : c ≠ ',' ∧ c ≠ '[' ∧ c ≠ ']' := by
    refine ⟨?_, ?_, ?_⟩ <;> rintro rfl <;> cases hc
  refine passes_cons (by simp [ElementState.splits, hne]) (fun rest => ?_) ht
  have hq' : (fresh && Text.isQuote c) = false := by
    cases fresh with
    | false => rfl
    | true => exact hq rfl
  simp only [ElementState.next, hq', hne, if_false, Bool.false_eq_true]
  cases hb : Text.isBlank c <;> simp

end

/-! ### Quoted spans -/

theorem passes_quoted_body {d : Nat} {q : Char} {b : List Char} (hb : q ∉ b) :
    Passes ⟨d, false, some q⟩ b ⟨d, false, some q⟩ := by
  induction b with
  | nil => exact passes_nil _
  | cons c b ih =>
    rw [List.mem_cons, not_or] at hb
    refine passes_cons rfl (fun rest => ?_) (ih hb.2)
    simp [ElementState.next, Ne.symm hb.1]

/-- A quoted span begins an element and is passed over whole. -/
theorem passes_isQuoted {d : Nat} {q : List Char} (h : IsQuoted q) :
    Passes ⟨d, true, none⟩ q ⟨d, false, none⟩ := by
  obtain ⟨hq, hb⟩ := h
  rename_i q body
  have hclose : Passes ⟨d, false, some q⟩ [q] ⟨d, false, none⟩ := by
    refine passes_cons rfl (fun rest => ?_) (passes_nil _)
    simp [ElementState.next]
  intro rest
  have hsplits : ElementState.splits ⟨d, true, none⟩ q = false := by
    have hne : q ≠ ',' := by
      rintro rfl
      cases hq
    simp [ElementState.splits, hne]
  have hnext : ElementState.next ⟨d, true, none⟩ q (body ++ [q] ++ rest) = ⟨d, false, some q⟩ := by
    simp [ElementState.next, hq]
  show elementsFrom ⟨d, true, none⟩ (q :: (body ++ [q] ++ rest)) = _
  rw [elementsFrom, hsplits, hnext, (passes_quoted_body hb).append hclose]
  rfl

theorem passes_blanks {d : Nat} {w : List Char} (hw : Blanks w) :
    Passes ⟨d, true, none⟩ w ⟨d, true, none⟩ := by
  induction w with
  | nil => exact passes_nil _
  | cons c w ih =>
    obtain ⟨hc, hw⟩ := Text.blanks_cons.mp hw
    refine passes_ordinary (ordinary_of_isBlank hc) (fun _ => ?_) ?_
    · rw [Bool.eq_false_iff]
      intro hq
      rw [not_isBlank_of_isQuote hq] at hc
      cases hc
    · rw [hc]
      exact ih hw

/-! ### Groups and their elements -/

mutual

/-- A group is passed over whole. -/
theorem passes_group {k : Nat} {g : List Char} (h : Group k g) (d : Nat) (fresh : Bool) :
    Passes ⟨d, fresh, none⟩ g ⟨d, false, none⟩ := by
  match h with
  | .intro hk he hes =>
    obtain ⟨f₁, h₁⟩ := passes_item he rfl (d + 1)
    obtain ⟨f₂, h₂⟩ := passes_elements hes d f₁
    exact passes_open ((h₁.append h₂).append (passes_close (passes_nil _)))
termination_by structural h

theorem passes_elements {k : Nat} {es : List Char} (h : Elements k es) (d : Nat) (fresh : Bool) :
    ∃ fresh', Passes ⟨d + 1, fresh, none⟩ es ⟨d + 1, fresh', none⟩ := by
  match h with
  | .nil => exact ⟨fresh, passes_nil _⟩
  | .cons he hes =>
    obtain ⟨f₁, h₁⟩ := passes_item he rfl (d + 1)
    obtain ⟨f₂, h₂⟩ := passes_elements hes d f₁
    exact ⟨f₂, passes_comma (h₁.append h₂)⟩
termination_by structural h

theorem passes_run {p : Place} {k : Nat} {t : List Char} (h : Run p k t) (hp : p = .element)
    (d : Nat) (fresh : Bool) (hq : fresh = true → ¬OpensWithQuote t) :
    ∃ fresh', Passes ⟨d, fresh, none⟩ t ⟨d, fresh', none⟩ := by
  match h with
  | .nil => exact ⟨fresh, passes_nil _⟩
  | .char (c := c) (t := t) hc ht =>
    have hquote : fresh = true → Text.isQuote c = false := by
      intro hf
      rw [Bool.eq_false_iff]
      intro hc
      exact hq hf (opensWithQuote_cons.mpr (Or.inr hc))
    have hopens : (fresh && Text.isBlank c) = true → ¬OpensWithQuote t := by
      intro hf ho
      rw [Bool.and_eq_true] at hf
      exact hq hf.1 (opensWithQuote_cons.mpr (Or.inl ⟨hf.2, ho⟩))
    obtain ⟨f₁, h₁⟩ := passes_run ht hp d (fresh && Text.isBlank c) hopens
    exact ⟨f₁, passes_ordinary (hp ▸ hc) hquote h₁⟩
  | .group hg ht =>
    obtain ⟨f₁, h₁⟩ := passes_run ht hp d false (by simp)
    exact ⟨f₁, (passes_group hg d fresh).append h₁⟩
termination_by structural h

/-- An element is passed over from where it begins. -/
theorem passes_item {p : Place} {k : Nat} {t : List Char} (h : Item p k t) (hp : p = .element)
    (d : Nat) :
    ∃ fresh, Passes ⟨d, true, none⟩ t ⟨d, fresh, none⟩ := by
  match h with
  | .quoted hw hq ht =>
    obtain ⟨f₁, h₁⟩ := passes_run ht hp d false (by simp)
    exact ⟨f₁, ((passes_blanks hw).append (passes_isQuoted hq)).append h₁⟩
  | .plain ht hq => exact passes_run ht hp d true fun _ => hq
termination_by structural h

end

/-- Elements with a comma between each two. -/
def joined : List (List Char) → List Char
  | [] => []
  | [e] => e
  | e :: e' :: es => e ++ ',' :: joined (e' :: es)

theorem joined_cons_space (e : List Char) (es : List (List Char)) :
    joined ((' ' :: e) :: es) = ' ' :: joined (e :: es) := by
  cases es <;> rfl

theorem elementsFrom_ne_nil (s : ElementState) (cs : List Char) : elementsFrom s cs ≠ [] := by
  cases cs with
  | nil => exact List.cons_ne_nil _ _
  | cons c cs =>
    rw [elementsFrom]
    split
    · exact List.cons_ne_nil _ _
    · cases elementsFrom (s.next c cs) cs <;> exact List.cons_ne_nil _ _

/-- Splitting loses nothing but the commas that it splits at. -/
theorem joined_elementsFrom (s : ElementState) (cs : List Char) :
    joined (elementsFrom s cs) = cs := by
  induction cs generalizing s with
  | nil => rfl
  | cons c cs ih =>
    have ih := ih (s.next c cs)
    have hne := elementsFrom_ne_nil (s.next c cs) cs
    rw [elementsFrom]
    cases hrest : elementsFrom (s.next c cs) cs with
    | nil => exact absurd hrest hne
    | cons e es =>
      rw [hrest] at ih
      split
      · rename_i hsplits
        have hc : c = ',' := by
          simp only [ElementState.splits, Bool.and_eq_true, beq_iff_eq] at hsplits
          exact hsplits.1.2
        show ',' :: joined (e :: es) = c :: cs
        rw [ih, hc]
      · show joined ((c :: e) :: es) = c :: cs
        rw [← ih]
        cases es <;> rfl

theorem joined_elements (cs : List Char) : joined (elements cs) = cs :=
  joined_elementsFrom .start cs

theorem exists_joined_eq (e : List Char) (es : List (List Char)) :
    ∃ rest, joined (e :: es) = e ++ rest := by
  cases es with
  | nil => exact ⟨[], (List.append_nil e).symm⟩
  | cons e' es => exact ⟨_, rfl⟩

/-- Elements that commas separate are the elements that splitting finds. -/
theorem elements_joined {k : Nat} {e : List Char} {es : List (List Char)}
    (h : ∀ t ∈ e :: es, Item .element k t) : elements (joined (e :: es)) = e :: es := by
  induction es generalizing e with
  | nil =>
    obtain ⟨f, hf⟩ := passes_item (h e (by simp)) rfl 0
    have := hf []
    rw [List.append_nil] at this
    show elementsFrom .start e = _
    rw [ElementState.start, this, elementsFrom, prepend_cons, List.append_nil]
  | cons e' es ih =>
    obtain ⟨f, hf⟩ := passes_item (h e (by simp)) rfl 0
    have hnext : ∀ rest, ElementState.next ⟨0, f, none⟩ ',' rest = .start := by
      intro rest
      simp [ElementState.next, ElementState.start, Text.isQuote]
    show elementsFrom .start (e ++ ',' :: joined (e' :: es)) = _
    rw [ElementState.start, hf, elementsFrom, hnext]
    have hrest : elementsFrom .start (joined (e' :: es)) = e' :: es :=
      ih fun t ht => h t (List.mem_cons_of_mem _ ht)
    rw [hrest]
    show prepend e ([] :: e' :: es) = _
    rw [prepend_cons, List.append_nil]

end Directive.Value
