import Directive.Proofs.Inversion

/-!
# Equals signs

Reading a value and writing it again keeps the number of equals signs: quotes, blanks and words have
none, and neither have the commas at which lists are split.  Names have none either, so the equals
signs of a canonical text tell how many parameters there are to be read in it.
-/

namespace Directive.Value

open Text (Blanks)

/-- The number of equals signs in a text. -/
def signs (cs : List Char) : Nat :=
  cs.count '='

@[simp] theorem signs_cons_sign (cs : List Char) : signs ('=' :: cs) = signs cs + 1 :=
  List.count_cons_self

theorem signs_cons_of_ne {c : Char} (h : c ≠ '=') (cs : List Char) : signs (c :: cs) = signs cs :=
  List.count_cons_of_ne h

@[simp] theorem signs_append (cs ds : List Char) : signs (cs ++ ds) = signs cs + signs ds :=
  List.count_append

theorem signs_eq_zero {cs : List Char} (h : '=' ∉ cs) : signs cs = 0 :=
  List.count_eq_zero_of_not_mem h

theorem signs_of_blanks {w : List Char} (hw : Blanks w) : signs w = 0 :=
  signs_eq_zero (Text.not_mem_of_blanks hw rfl)

theorem signs_of_plain {cs : List Char} (h : Plain cs) : signs cs = 0 :=
  signs_eq_zero fun hm => (isPlain_iff.mp (h '=' hm)).2.2.2 rfl

theorem signs_trim (cs : List Char) : signs (Text.trim cs) = signs cs := by
  obtain ⟨w₁, w₂, hw₁, hw₂, hcs⟩ := Text.exists_append_trim_append cs
  have h := congrArg signs hcs
  rw [signs_append, signs_append, signs_of_blanks hw₁, signs_of_blanks hw₂] at h
  omega

/-- The commas between elements are no equals signs. -/
theorem signs_joined (es : List (List Char)) : signs (joined es) = (es.map signs).sum := by
  induction es with
  | nil => rfl
  | cons e es ih =>
    cases es with
    | nil => simp [joined]
    | cons e' es =>
      rw [joined, signs_append, signs_cons_of_ne (by decide), ih]
      simp only [List.map_cons, List.sum_cons]

/-! ### Written values -/

theorem signs_quoteWith {q : Char} (hq : Text.isQuote q = true) (cs : List Char) :
    signs (quoteWith q cs) = signs cs := by
  have hne : q ≠ '=' := by
    rintro rfl
    cases hq
  rw [quoteWith, signs_cons_of_ne hne, signs_append, signs_cons_of_ne hne]
  rfl

theorem signs_writeString (cs : List Char) : signs (writeString cs) = signs cs := by
  unfold writeString
  split_ifs
  · rfl
  · exact signs_quoteWith (isQuote_quoteFor cs) cs

theorem signs_brackets (cs : List Char) : signs ('[' :: (cs ++ [']'])) = signs cs := by
  rw [signs_cons_of_ne (by decide), signs_append, signs_cons_of_ne (by decide)]
  rfl

theorem signs_writeItems (items : List Value) :
    signs (writeItems items) = (items.map fun v => signs v.write).sum := by
  rw [writeItems_eq, signs_joined]
  cases items with
  | nil => rfl
  | cons v items =>
    -- spaces are no equals signs either
    have hspace : ∀ cs, signs (' ' :: cs) = signs cs := signs_cons_of_ne (by decide)
    rw [itemTexts, List.map_cons, List.map_map, List.map_cons]
    simp only [Function.comp_def, hspace]

theorem Reads.signs_write {n : Nat} {cs : List Char} {v : Value} (h : Reads n cs v)
    (hlist : ∀ m, n = m + 1 → ∀ e, signs (coerceWithin m e).write = signs e) :
    signs v.write = signs cs := by
  cases h with
  | @quoted _ q cs hq =>
    rw [write, String.toList_ofList, signs_writeString, signs_quoteWith hq]
  | complete hword =>
    rw [signs_of_plain (plain_of_isWord hword (by decide))]
    decide +kernel
  | bare => rw [write, String.toList_ofList, signs_writeString]
  | atom hcs hv => rw [signs_of_plain hcs, signs_of_plain (plain_write hv).1]
  | @empty m w hw =>
    rw [signs_brackets, signs_of_blanks hw]
    rfl
  | @items m inner =>
    have hitems : ((elements inner).map (coerceWithin m)).map (fun v => signs v.write) =
        (elements inner).map signs := by
      rw [List.map_map]
      exact List.map_congr_left fun e _ => hlist m rfl e
    rw [write, signs_brackets, signs_brackets, signs_writeItems, hitems, ← signs_joined,
      joined_elements]

/-- Text has as many equals signs as the written form of its value. -/
theorem signs_coerceWithin (n : Nat) (raw : List Char) :
    signs (coerceWithin n raw).write = signs raw := by
  refine coerceWithin_induct (P := fun _ raw v => signs v.write = signs raw) ?_ n raw
  intro n raw v h hlist
  rw [h.signs_write hlist, signs_trim]

end Directive.Value
