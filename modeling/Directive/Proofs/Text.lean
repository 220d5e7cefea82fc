import Directive.Text.Blank
import Mathlib.Data.List.DropRight

/-!
# Blanks at the ends of a text

Trimming takes away the blanks at the ends of a text and nothing else: what it leaves neither begins
nor ends with a blank, blanks that are put around a text are gone after it, and a text without
blanks at its ends stays as it is.  Sizes and cuts in bytes add up along `++`.
-/

namespace Directive.Text

/-! ### Runs of blanks -/

/-- Any number of blanks. -/
def Blanks (cs : List Char) : Prop :=
  ∀ c ∈ cs, isBlank c = true

theorem blanks_nil : Blanks [] := by
  intro c hc
  cases hc

theorem blanks_cons {c : Char} {w : List Char} :
    Blanks (c :: w) ↔ isBlank c = true ∧ Blanks w :=
  List.forall_mem_cons

/-- The space is the blank that written forms use. -/
theorem blanks_space : Blanks [' '] := by
  intro c hc
  rw [List.mem_singleton.mp hc]
  decide

theorem not_mem_of_blanks {w : List Char} {c : Char} (h : Blanks w) (hc : isBlank c = false) :
    c ∉ w := by
  intro hm
  rw [h c hm] at hc
  cases hc

/-- A run of blanks in front of a character that is none is empty if something else is there. -/
theorem blanks_eq_nil_of_append_eq {w x y : List Char} {c : Char} (hw : Blanks w)
    (hc : isBlank c = false) (h : w ++ x = c :: y) : w = [] := by
  cases w with
  | nil => rfl
  | cons b w =>
    rw [List.cons_append, List.cons.injEq] at h
    rw [h.1] at hw
    rw [(blanks_cons.mp hw).1] at hc
    cases hc

/-- Blanks at the end of a text stand behind the last character that is none. -/
theorem exists_append_of_append_eq {x r t w : List Char} {c : Char} (hw : Blanks w)
    (hx : x.getLast? = some c) (hc : isBlank c = false) (h : x ++ r = t ++ w) :
    ∃ u, t = x ++ u ∧ r = u ++ w := by
  rcases List.append_eq_append_iff.mp h with hu | ⟨u, hx', hw'⟩
  · exact hu
  · rcases List.eq_nil_or_concat u with hu | ⟨u, d, hu⟩
    · exact ⟨[], by rw [hx', hu, List.append_nil, List.append_nil], by simp [hw', hu]⟩
    · rw [hx', hu, List.concat_eq_append, ← List.append_assoc, List.getLast?_concat,
        Option.some.injEq] at hx
      have hmem : c ∈ w := by
        rw [hw', hu, hx]
        simp
      exact absurd hmem (not_mem_of_blanks hw hc)

/-- No name has a blank in it. -/
theorem isNameChar_eq_false_of_isBlank {c : Char} (h : isBlank c = true) :
    isNameChar c = false := by
  rw [Bool.eq_false_iff]
  intro hn
  simp only [isNameChar, Bool.or_eq_true, Bool.and_eq_true, decide_eq_true_eq,
    beq_iff_eq] at hn
  rcases hn with ⟨ha, hz⟩ | rfl
  · have ha' : 97 ≤ c.toNat := ha
    have hz' : c.toNat ≤ 122 := hz
    simp only [isBlank, Bool.or_eq_true, Bool.and_eq_true, decide_eq_true_eq,
      beq_iff_eq] at h
    omega
  · revert h
    decide

theorem not_isBlank_of_isNameChar {c : Char} (h : isNameChar c = true) : isBlank c = false := by
  rw [Bool.eq_false_iff]
  intro hb
  rw [isNameChar_eq_false_of_isBlank hb] at h
  cases h

theorem dropWhile_eq_nil_of_blanks {w : List Char} (hw : Blanks w) : w.dropWhile isBlank = [] :=
  List.dropWhile_eq_nil_iff.mpr hw

/-- Blanks behind a text do not change what it begins with. -/
theorem head?_dropWhile_append_blanks {t w : List Char} (hw : Blanks w) :
    ((t ++ w).dropWhile isBlank).head? = (t.dropWhile isBlank).head? := by
  induction t with
  | nil => simp [dropWhile_eq_nil_of_blanks hw]
  | cons c t ih =>
    by_cases hc : isBlank c = true
    · simpa [hc] using ih
    · simp [hc]

/-! ### Trimming -/

theorem trimEnd_eq_rdropWhile (cs : List Char) : trimEnd cs = cs.rdropWhile isBlank :=
  rfl

/-- What trimming takes from the end are blanks. -/
theorem exists_trimEnd_append (cs : List Char) : ∃ w, Blanks w ∧ cs = trimEnd cs ++ w := by
  refine ⟨cs.rtakeWhile isBlank, ?_, ?_⟩
  · intro c hc
    exact List.mem_rtakeWhile_imp hc
  · rw [trimEnd_eq_rdropWhile, List.rdropWhile_append_rtakeWhile]

theorem trimEnd_append_blanks {t w : List Char} (hw : Blanks w) :
    trimEnd (t ++ w) = trimEnd t := by
  unfold trimEnd
  rw [List.reverse_append, List.dropWhile_append_of_pos]
  intro c hc
  exact hw c (List.mem_reverse.mp hc)

theorem trimEnd_of_getLast? {cs : List Char}
    (h : ∀ c, cs.getLast? = some c → isBlank c = false) : trimEnd cs = cs := by
  rw [trimEnd_eq_rdropWhile, List.rdropWhile_eq_self_iff]
  intro hne hb
  rw [h _ (List.getLast?_eq_some_getLast hne)] at hb
  cases hb

theorem isBlank_of_getLast?_trimEnd {cs : List Char} {c : Char}
    (h : (trimEnd cs).getLast? = some c) : isBlank c = false := by
  have hne : trimEnd cs ≠ [] := by
    intro hnil
    rw [hnil] at h
    cases h
  have hlast := List.rdropWhile_last_not isBlank cs hne
  rw [List.getLast?_eq_some_getLast hne, Option.some.injEq] at h
  rw [← h]
  exact Bool.eq_false_iff.mpr hlast

/-- A text that has no blank at either end is its own trimmed form. -/
theorem trim_eq_self {cs : List Char} (hhead : ∀ c, cs.head? = some c → isBlank c = false)
    (hlast : ∀ c, cs.getLast? = some c → isBlank c = false) : trim cs = cs := by
  have hdrop : cs.dropWhile isBlank = cs := by
    cases cs with
    | nil => rfl
    | cons c cs => simp [hhead c rfl]
  rw [trim, hdrop, trimEnd_of_getLast? hlast]

/-- Blanks around a text are gone after trimming. -/
theorem trim_blanks_append {w t : List Char} (hw : Blanks w) : trim (w ++ t) = trim t := by
  unfold trim
  rw [List.dropWhile_append_of_pos hw]

theorem trim_append_blanks {t w : List Char} (hw : Blanks w) : trim (t ++ w) = trim t := by
  unfold trim
  by_cases ht : Blanks t
  · have hall : Blanks (t ++ w) := by
      intro c hc
      rcases List.mem_append.mp hc with hc | hc
      · exact ht c hc
      · exact hw c hc
    rw [dropWhile_eq_nil_of_blanks ht, dropWhile_eq_nil_of_blanks hall]
  · have hne : t.dropWhile isBlank ≠ [] := by
      intro h
      exact ht (List.dropWhile_eq_nil_iff.mp h)
    rw [List.dropWhile_append, if_neg (by simpa using hne), trimEnd_append_blanks hw]

/-- What trimming takes from a text are blanks at its two ends. -/
theorem exists_append_trim_append (cs : List Char) :
    ∃ w₁ w₂, Blanks w₁ ∧ Blanks w₂ ∧ cs = w₁ ++ (trim cs ++ w₂) := by
  obtain ⟨w₂, hw₂, h⟩ := exists_trimEnd_append (cs.dropWhile isBlank)
  refine ⟨cs.takeWhile isBlank, w₂, ?_, hw₂, ?_⟩
  · intro c hc
    exact List.mem_takeWhile_imp hc
  · rw [trim, ← h, List.takeWhile_append_dropWhile]

theorem blanks_of_trim_eq_nil {cs : List Char} (h : trim cs = []) : Blanks cs := by
  obtain ⟨w₁, w₂, hw₁, hw₂, hcs⟩ := exists_append_trim_append cs
  rw [h, List.nil_append] at hcs
  rw [hcs]
  exact List.forall_mem_append.mpr ⟨hw₁, hw₂⟩

/-- Trimmed text does not end with a blank. -/
theorem isBlank_of_getLast?_trim {cs : List Char} {c : Char} (h : (trim cs).getLast? = some c) :
    isBlank c = false :=
  isBlank_of_getLast?_trimEnd h

/-- Trimmed text does not begin with a blank. -/
theorem isBlank_of_head?_trim {cs : List Char} {c : Char} (h : (trim cs).head? = some c) :
    isBlank c = false := by
  obtain ⟨w, -, hw⟩ := exists_trimEnd_append (cs.dropWhile isBlank)
  have hhead : (cs.dropWhile isBlank).head? = some c := by
    rw [hw, List.head?_append]
    show (trim cs).head?.or w.head? = some c
    rw [h]
    rfl
  have hnot := List.head?_dropWhile_not isBlank cs
  rw [hhead] at hnot
  exact hnot

theorem trim_trim (cs : List Char) : trim (trim cs) = trim cs :=
  trim_eq_self (fun _ hc => isBlank_of_head?_trim hc) (fun _ hc => isBlank_of_getLast?_trim hc)

/-! ### Sizes -/

theorem size_nil : size [] = 0 :=
  rfl

theorem size_cons (c : Char) (cs : List Char) : size (c :: cs) = c.utf8Size + size cs := by
  simp [size]

theorem size_append (cs ds : List Char) : size (cs ++ ds) = size cs + size ds := by
  simp [size]

/-- The size of a text is the number of bytes of its encoding. -/
theorem size_eq_utf8ByteSize (cs : List Char) : size cs = (String.ofList cs).utf8ByteSize := by
  induction cs with
  | nil => rfl
  | cons c cs ih =>
    have h : String.ofList (c :: cs) = String.singleton c ++ String.ofList cs := by
      apply String.toList_inj.mp
      simp
    rw [h, String.utf8ByteSize_append, ← ih, String.utf8ByteSize_singleton, size_cons]

/-- A cut at the end of a text leaves all of it in front. -/
theorem takeBytes_size (cs : List Char) : takeBytes (size cs) cs = cs := by
  induction cs with
  | nil => rfl
  | cons c cs ih =>
    have hpos := c.utf8Size_pos
    rw [size_cons, takeBytes, if_neg (by omega), Nat.add_sub_cancel_left, ih]

/-- A cut behind a text goes on in what follows it. -/
theorem takeBytes_size_add (cs ds : List Char) (n : Nat) :
    takeBytes (size cs + n) (cs ++ ds) = cs ++ takeBytes n ds := by
  induction cs with
  | nil => rw [size_nil, Nat.zero_add, List.nil_append, List.nil_append]
  | cons c cs ih =>
    have hpos := c.utf8Size_pos
    have hsub : c.utf8Size + size cs + n - c.utf8Size = size cs + n := by omega
    rw [size_cons, List.cons_append, takeBytes, if_neg (by omega), hsub, ih, List.cons_append]

theorem takeBytes_zero (cs : List Char) : takeBytes 0 cs = [] := by
  cases cs <;> rfl

/-- A cut at the end of a text leaves out what follows it. -/
theorem takeBytes_size_append (cs ds : List Char) : takeBytes (size cs) (cs ++ ds) = cs := by
  have h := takeBytes_size_add cs ds 0
  rwa [Nat.add_zero, takeBytes_zero, List.append_nil] at h

theorem dropBytes_zero (cs : List Char) : dropBytes 0 cs = cs := by
  cases cs <;> rfl

/-- A cut at the end of a text leaves what follows it behind. -/
theorem dropBytes_size (cs ds : List Char) : dropBytes (size cs) (cs ++ ds) = ds := by
  induction cs with
  | nil => exact dropBytes_zero ds
  | cons c cs ih =>
    have hpos := c.utf8Size_pos
    rw [size_cons, List.cons_append, dropBytes, if_neg (by omega), Nat.add_sub_cancel_left, ih]

end Directive.Text
