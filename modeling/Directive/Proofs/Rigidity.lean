import Directive.Proofs.Inversion
import Mathlib.Data.List.Forall2

/-!
# Where written values end

When two texts go on with a delimiter and one of them begins with the written form of a value, the
other one cannot begin with a different text that is read as this value.  So the texts that are read
as the parameters of a command can be compared with the written parameters from left to right.
-/

namespace Directive.Value

open Text (Blanks)

/-- The two texts are equal if the same text begins with both of them, each in front of a
delimiter. -/
def Rigid (x y : List Char) : Prop :=
  ∀ ⦃δ δ' : Char⦄ ⦃a b : List Char⦄, isDelimiter δ = true → isDelimiter δ' = true →
    x ++ δ :: a = y ++ δ' :: b → x = y

/-! ### Texts and what follows them -/

/-- Texts end at the same place if a character that both lack follows them. -/
theorem eq_of_append_cons_eq {p : Char → Bool} {x y a b : List Char} {c d : Char}
    (hx : ∀ e ∈ x, p e = true) (hy : ∀ e ∈ y, p e = true) (hc : p c = false) (hd : p d = false)
    (h : x ++ c :: a = y ++ d :: b) : x = y := by
  have htake := congrArg (List.takeWhile p) h
  rwa [List.takeWhile_append_of_pos hx, List.takeWhile_append_of_pos hy,
    List.takeWhile_cons_of_neg (by simpa using hc), List.takeWhile_cons_of_neg (by simpa using hd),
    List.append_nil, List.append_nil] at htake

/-- A text can stand in front of itself only if it repeats one character, and then so does what
follows it. -/
theorem head?_of_append_eq_cons {x y z : List Char} {q : Char} (h : x ++ y = q :: (x ++ q :: z)) :
    y.head? = some q := by
  induction x generalizing z with
  | nil =>
    rw [List.nil_append] at h
    rw [h]
    rfl
  | cons c x ih =>
    rw [List.cons_append, List.cons_append, List.cons.injEq] at h
    rw [h.1] at h
    exact ih h.2

theorem not_isDelimiter_of_isBlank {c : Char} (h : Text.isBlank c = true) :
    isDelimiter c = false := by
  rw [Bool.eq_false_iff]
  intro hd
  simp only [isDelimiter, Bool.or_eq_true, beq_iff_eq] at hd
  rcases hd with ((rfl | rfl) | rfl) | rfl <;> cases h

theorem not_isQuote_of_isDelimiter {c : Char} (h : isDelimiter c = true) :
    Text.isQuote c = false := by
  rw [Bool.eq_false_iff]
  intro hq
  rw [not_isDelimiter_of_isQuote hq] at h
  cases h

/-- Neither a blank nor a delimiter is a quote. -/
theorem not_isQuote_of_head? {w a : List Char} {δ q : Char} (hw : Blanks w)
    (hδ : isDelimiter δ = true) (h : (w ++ δ :: a).head? = some q) : Text.isQuote q = false := by
  cases w with
  | nil =>
    cases h
    exact not_isQuote_of_isDelimiter hδ
  | cons c w =>
    cases h
    rw [Bool.eq_false_iff]
    intro hq
    have hblank := hw q List.mem_cons_self
    rw [Grammar.not_isBlank_of_isQuote hq] at hblank
    cases hblank

/-! ### Strings -/

theorem isBare_complete : isBare complete.toList = true := by
  decide +kernel

/-- The text of a string in front of a delimiter ends where the written string ends. -/
theorem eq_writeString {n : Nat} {e w a b : List Char} {s : String} {δ δ' : Char}
    (hr : Reads n e (.string s)) (hw : Blanks w) (hδ : isDelimiter δ = true)
    (h : e ++ (w ++ δ :: a) = writeString s.toList ++ δ' :: b) : e = writeString s.toList := by
  cases hr with
  | @quoted _ q cs hq =>
    rw [String.toList_ofList] at h ⊢
    by_cases hbare : isBare cs = true
    · -- a bare string does not begin with a quote
      rw [writeString, if_pos hbare] at h
      obtain ⟨hne, -, hhead, -⟩ := isBare_iff.mp hbare
      cases cs with
      | nil => exact absurd rfl hne
      | cons c cs =>
        have hqc : q = c := (List.cons.inj h).1
        rw [hqc, hhead c rfl] at hq
        cases hq
    · -- both texts are as long as the string and two quotes
      rw [writeString, if_neg hbare] at h ⊢
      exact (List.append_inj h (by simp [quoteWith])).1
  | complete hword =>
    have hlen : e.length = complete.toList.length := by
      rw [← beq_iff_eq.mp hword, List.length_map]
    rw [writeString, if_pos isBare_complete] at h ⊢
    exact (List.append_inj h hlen).1
  | bare =>
    rw [String.toList_ofList] at h ⊢
    by_cases hbare : isBare e = true
    · rw [writeString, if_pos hbare]
    · -- the quote in front shifts the string by one place, so it would have to stand behind it too
      rw [writeString, if_neg hbare, quoteWith, List.cons_append, List.append_assoc] at h
      have hquote := not_isQuote_of_head? hw hδ (head?_of_append_eq_cons h)
      rw [isQuote_quoteFor] at hquote
      cases hquote
  | atom _ hv => cases hv

/-! ### Elements -/

/-- Blanks around a text that ends where the written value ends are none. -/
theorem rigid_of_trim {v : Value} {raw : List Char}
    (h : ∀ ⦃w a b : List Char⦄ ⦃δ δ' : Char⦄, Blanks w → isDelimiter δ = true →
      isDelimiter δ' = true → Text.trim raw ++ (w ++ δ :: a) = write v ++ δ' :: b →
        Text.trim raw = write v) : Rigid raw v.write := by
  intro δ δ' a b hδ hδ' heq
  obtain ⟨c, t, hc, hblank⟩ := (tight_write v).exists_cons
  obtain ⟨w₁, w₂, hw₁, hw₂, hraw⟩ := Text.exists_append_trim_append raw
  -- no written value begins with a blank
  have hnil : w₁ = [] := by
    rw [hraw, hc, List.append_assoc] at heq
    exact Text.blanks_eq_nil_of_append_eq hw₁ hblank heq
  rw [hnil, List.nil_append] at hraw
  rw [hraw, List.append_assoc] at heq
  have htrim := h hw₂ hδ hδ' heq
  have hδ'' : Text.isBlank δ' = false := by
    rw [Bool.eq_false_iff]
    intro hb
    rw [not_isDelimiter_of_isBlank hb] at hδ'
    cases hδ'
  rw [htrim, List.append_cancel_left_eq] at heq
  have hnil₂ := Text.blanks_eq_nil_of_append_eq hw₂ hδ'' heq
  rw [hraw, htrim, hnil₂, List.append_nil]

theorem rigid_space {v : Value} {n : Nat} {raw : List Char}
    (h : ∀ raw, coerceWithin n raw = v → Rigid raw v.write) (hraw : coerceWithin n raw = v) :
    Rigid raw (' ' :: v.write) := by
  intro δ δ' a b hδ hδ' heq
  cases raw with
  | nil =>
    rw [List.nil_append, List.cons_append, List.cons.injEq] at heq
    rw [heq.1] at hδ
    cases hδ
  | cons c raw =>
    rw [List.cons_append, List.cons_append, List.cons.injEq] at heq
    obtain ⟨rfl, heq⟩ := heq
    rw [coerceWithin_space] at hraw
    rw [h raw hraw hδ hδ' heq]

/-- Texts that are separated by commas are equal one by one. -/
theorem eq_of_joined_append_eq {es ts : List (List Char)} (h : List.Forall₂ Rigid es ts)
    (hne : es ≠ []) {δ δ' : Char} {a b : List Char} (hδ : isDelimiter δ = true)
    (hδ' : isDelimiter δ' = true) (heq : joined es ++ δ :: a = joined ts ++ δ' :: b) : es = ts := by
  induction h with
  | nil => exact absurd rfl hne
  | @cons x y es ts hxy hes ih =>
    cases hes with
    | nil => rw [hxy hδ hδ' heq]
    | @cons x' y' es ts hxy' hes =>
      have heq' : x ++ ',' :: (joined (x' :: es) ++ δ :: a) =
          y ++ ',' :: (joined (y' :: ts) ++ δ' :: b) := by
        simpa [joined] using heq
      obtain rfl := hxy rfl rfl heq'
      rw [List.append_cancel_left_eq, List.cons.injEq] at heq'
      rw [ih (List.cons_ne_nil _ _) heq'.2]

/-! ### Values -/

theorem rigid_itemTexts {n : Nat} {es : List (List Char)} (hne : es ≠ [])
    (h : ∀ v ∈ es.map (coerceWithin n), ∀ raw, coerceWithin n raw = v → Rigid raw v.write) :
    List.Forall₂ Rigid es (itemTexts (es.map (coerceWithin n))) := by
  cases es with
  | nil => exact absurd rfl hne
  | cons e es =>
    rw [List.map_cons, List.forall_mem_cons] at h
    refine .cons (h.1 e rfl) ?_
    rw [List.forall₂_map_right_iff, List.forall₂_map_right_iff, List.forall₂_same]
    intro x hx
    exact rigid_space (h.2 _ (List.mem_map_of_mem hx)) rfl

/-- The text of an atom in front of a delimiter ends where the written atom ends. -/
theorem eq_write_of_plain {e w a b : List Char} {v : Value} {δ δ' : Char} (he : Plain e)
    (hv : v.isAtom = true) (hw : Blanks w) (hδ : isDelimiter δ = true) (hδ' : isDelimiter δ' = true)
    (h : e ++ (w ++ δ :: a) = write v ++ δ' :: b) : e = write v := by
  have hplain := (plain_write hv).1
  have hleft : ∀ c ∈ e ++ w, (!isDelimiter c) = true := by
    refine List.forall_mem_append.mpr ⟨fun c hc => ?_, fun c hc => ?_⟩
    · rw [(isPlain_iff.mp (he c hc)).1]
      rfl
    · rw [not_isDelimiter_of_isBlank (hw c hc)]
      rfl
  have hright : ∀ c ∈ write v, (!isDelimiter c) = true := by
    intro c hc
    rw [(isPlain_iff.mp (hplain c hc)).1]
    rfl
  rw [← List.append_assoc] at h
  have heq := eq_of_append_cons_eq hleft hright (by rw [hδ]; rfl) (by rw [hδ']; rfl) h
  -- no blank belongs to a written atom
  have hnil : w = [] := by
    rw [List.eq_nil_iff_forall_not_mem]
    intro c hc
    have hmem : c ∈ write v := by
      rw [← heq]
      exact List.mem_append_right e hc
    have hblank := (isPlain_iff.mp (hplain c hmem)).2.2.1
    rw [hw c hc] at hblank
    cases hblank
  rw [← heq, hnil, List.append_nil]

/-- A text that is read as a value ends, in front of a delimiter, where the written value ends. -/
theorem rigid_write (v : Value) {n : Nat} {raw : List Char} (hraw : coerceWithin n raw = v) :
    Rigid raw v.write := by
  induction v using induct generalizing n raw with
  | atom v hv =>
    refine rigid_of_trim fun w a b δ δ' hw hδ hδ' heq => ?_
    have hr := reads_coerceWithin n raw
    rw [hraw] at hr
    generalize Text.trim raw = e at hr heq ⊢
    cases hr with
    | quoted | complete | bare | empty | items => cases hv
    | atom he => exact eq_write_of_plain he hv hw hδ hδ' heq
  | string s =>
    refine rigid_of_trim fun w a b δ δ' hw hδ _ heq => ?_
    have hr := reads_coerceWithin n raw
    rw [hraw] at hr
    exact eq_writeString hr hw hδ heq
  | list items ih =>
    refine rigid_of_trim fun w a b δ δ' _ _ _ heq => ?_
    have hr := reads_coerceWithin n raw
    rw [hraw] at hr
    generalize Text.trim raw = e at hr heq ⊢
    cases hr with
    | atom _ hv => cases hv
    | @empty m w' hw' =>
      have heq' : w' ++ ']' :: (w ++ δ :: a) = ']' :: δ' :: b := by
        simpa [write, writeItems] using heq
      rw [Text.blanks_eq_nil_of_append_eq hw' (by decide) heq']
      rfl
    | @items m cs =>
      have heq' : cs ++ ']' :: (w ++ δ :: a) =
          writeItems ((elements cs).map (coerceWithin m)) ++ ']' :: δ' :: b := by
        simpa [write] using heq
      -- the elements that are read stand one by one for the items that are written
      have hne : elements cs ≠ [] := elementsFrom_ne_nil _ cs
      have hrigid := rigid_itemTexts hne fun v hv raw h => ih v hv h
      rw [writeItems_eq] at heq'
      nth_rewrite 1 [← joined_elements cs] at heq'
      have helems := eq_of_joined_append_eq hrigid hne rfl rfl heq'
      rw [write, writeItems_eq, ← helems, joined_elements]

end Directive.Value
