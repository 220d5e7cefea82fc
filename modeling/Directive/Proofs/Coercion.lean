import Directive.Proofs.Printing
import Directive.Value.Coercion

/-!
# Written values are coerced back

Coercion gives a value back from its written form.  A number is written with a digit or a minus sign
in front, so it is neither quoted nor a word, and no float is written like an integer.  A string is
written bare only if no rule takes it for something else, and between quotes it is always a string.
The written items of a list are the elements that splitting finds.
-/

namespace Directive.Value

open Grammar
open Text (Blanks)
open Decimal (Digits IsNumeral)

/-! ### Levels -/

theorem coerceWithin_congr {raw raw' : List Char} (h : Text.trim raw = Text.trim raw') (n : Nat) :
    coerceWithin n raw = coerceWithin n raw' := by
  cases n <;> rw [coerceWithin, coerceWithin, h]

theorem coerceWithin_space (n : Nat) (raw : List Char) :
    coerceWithin n (' ' :: raw) = coerceWithin n raw :=
  coerceWithin_congr (Text.trim_blanks_append Text.blanks_space) n

theorem coerceWithin_of_scalar {raw : List Char} {v : Value}
    (h : scalarOfText? (Text.trim raw) = some v) (n : Nat) : coerceWithin n raw = v := by
  cases n <;> simp [coerceWithin, h]

theorem coerceWithin_of_text {raw : List Char} (hs : scalarOfText? (Text.trim raw) = none)
    (hb : unbracket? (Text.trim raw) = none) (n : Nat) :
    coerceWithin n raw = .string (String.ofList (Text.trim raw)) := by
  cases n <;> simp [coerceWithin, hs, hb]

theorem coerceWithin_of_bracket {raw inner : List Char} (hs : scalarOfText? (Text.trim raw) = none)
    (hb : unbracket? (Text.trim raw) = some inner) (n : Nat) :
    coerceWithin (n + 1) raw =
      if (Text.trim inner).isEmpty then .list []
      else .list ((elements inner).map (coerceWithin n)) := by
  simp [coerceWithin, hs, hb]

/-! ### Quotes and brackets -/

theorem unquote?_of_head {cs : List Char} (h : ∀ c, cs.head? = some c → Text.isQuote c = false) :
    unquote? cs = none := by
  cases cs with
  | nil => rfl
  | cons c cs => simp [unquote?, h c rfl]

theorem unquote?_quoteWith {q : Char} {cs : List Char} (hq : Text.isQuote q = true) :
    unquote? (quoteWith q cs) = some cs := by
  simp [unquote?, quoteWith, hq]

theorem unbracket?_brackets (cs : List Char) : unbracket? ('[' :: (cs ++ [']'])) = some cs := by
  simp [unbracket?]

theorem unbracket?_of_head {cs : List Char} (h : cs.head? ≠ some '[') : unbracket? cs = none := by
  unfold unbracket?
  split
  · exact absurd rfl h
  · rfl

/-- Between quotes there is a string. -/
theorem scalarOfText?_quoteWith {q : Char} {cs : List Char} (hq : Text.isQuote q = true) :
    scalarOfText? (quoteWith q cs) = some (.string (String.ofList cs)) := by
  rw [scalarOfText?, unquote?_quoteWith hq]

/-! ### Numbers -/

/-- Text that begins like a number is a number or nothing. -/
theorem scalarOfText?_number {c : Char} {cs : List Char} (hc : c.isDigit = true ∨ c = '-') :
    scalarOfText? (c :: cs) =
      ((integerOfText? (c :: cs)).map .integer).or ((Binary64.ofText? (c :: cs)).map .float) := by
  have hlower : c.toLower = c := by
    rcases hc with hc | rfl
    · exact Binary64.toLower_of_isDigit hc
    · rfl
  -- all words begin with a letter
  have hword : ∀ word : String,
      (∀ d, word.toList.head? = some d → d.isDigit = false ∧ d ≠ '-') →
        Text.isWord word (c :: cs) = false := by
    intro word h
    refine Binary64.not_isWord fun hhead => ?_
    rw [hlower] at hhead
    obtain ⟨hd, hm⟩ := h c hhead
    rcases hc with hc | hc
    · rw [hc] at hd
      cases hd
    · exact hm hc
  have hquote : unquote? (c :: cs) = none := by
    refine unquote?_of_head ?_
    rintro d ⟨⟩
    rcases hc with hc | rfl
    · exact (isPlain_iff.mp (isPlain_of_isNumeric (Or.inl hc))).2.1
    · rfl
  have htrue := hword "true" (by rintro d ⟨⟩; decide)
  have hfalse := hword "false" (by rintro d ⟨⟩; decide)
  have hnull := hword "null" (by rintro d ⟨⟩; decide)
  have hnone := hword "none" (by rintro d ⟨⟩; decide)
  have hcomplete := hword complete (by rintro d ⟨⟩; decide)
  simp only [scalarOfText?, hquote, htrue, hfalse, hnull, hnone, hcomplete, Bool.or_self,
    Bool.false_eq_true, if_false]
  cases integerOfText? (c :: cs) <;> rfl

/-- Integers are read back. -/
theorem integerOfText?_writeInt (i : Int64) : integerOfText? (writeInt i) = some i := by
  have hle : -9223372036854775808 ≤ i.toInt := Int64.minValue_le_toInt i
  have hge : i.toInt ≤ Int64.maxValue.toInt := Int64.toInt_le i
  have hofInt := Int64.ofInt_toInt i
  have hdigits := Decimal.digits_toDigits i.toInt.natAbs
  have hvalue := Decimal.ofDigits_toDigits i.toInt.natAbs
  have hne : Nat.toDigits 10 i.toInt.natAbs ≠ [] := Nat.toDigits_ne_nil
  have habs : (i.toInt.natAbs : Int) = if i.toInt < 0 then -i.toInt else i.toInt := by
    split_ifs <;> omega
  unfold writeInt
  dsimp only
  generalize Nat.toDigits 10 i.toInt.natAbs = ds at hdigits hvalue hne ⊢
  generalize i.toInt.natAbs = magnitude at hvalue habs
  have hemp : ds.isEmpty = false := List.isEmpty_eq_false_iff.mpr hne
  split_ifs with hneg
  · rw [if_pos hneg] at habs
    simp [integerOfText?, hemp, Decimal.all_isDigit hdigits, hvalue, habs, hle, hge, hofInt]
  · rw [if_neg hneg] at habs
    have hhead : (ds.head? == some '-') = false := by
      rw [beq_eq_false_iff_ne]
      intro h
      exact absurd (hdigits '-' (List.mem_of_mem_head? h)) (by decide)
    simp [integerOfText?, hhead, hemp, Decimal.all_isDigit hdigits, hvalue, habs, hle, hge, hofInt]

theorem exists_writeInt_cons (i : Int64) :
    ∃ c cs, writeInt i = c :: cs ∧ (c.isDigit = true ∨ c = '-') := by
  have hdigits := Decimal.digits_toDigits i.toInt.natAbs
  unfold writeInt
  dsimp only
  split_ifs
  · exact ⟨'-', _, rfl, Or.inr rfl⟩
  · cases h : Nat.toDigits 10 i.toInt.natAbs with
    | nil => exact absurd h Nat.toDigits_ne_nil
    | cons c cs =>
      rw [h] at hdigits
      exact ⟨c, cs, rfl, Or.inl (hdigits c List.mem_cons_self)⟩

theorem scalarOfText?_writeInt (i : Int64) : scalarOfText? (writeInt i) = some (.integer i) := by
  have hread := integerOfText?_writeInt i
  obtain ⟨c, cs, h, hc⟩ := exists_writeInt_cons i
  rw [h] at hread ⊢
  rw [scalarOfText?_number hc, hread]
  rfl

/-- A minus sign and nothing but digits make an integer; every other number has something else. -/
theorem integerOfText?_eq_none {sign cs : List Char} (hsign : sign = [] ∨ sign = ['-'])
    (hhead : cs.head? ≠ some '-') (h : ¬Digits cs) : integerOfText? (sign ++ cs) = none := by
  have hall : cs.all Char.isDigit = false := by
    rw [Bool.eq_false_iff, ne_eq, List.all_eq_true]
    exact h
  have hminus : (cs.head? == some '-') = false := beq_eq_false_iff_ne.mpr hhead
  rcases hsign with rfl | rfl
  · simp [integerOfText?, hminus, hall]
  · simp [integerOfText?, hall]

theorem scalarOfText?_writeFloat (x : Binary64) :
    scalarOfText? (x.write .directive) = some (.float x) := by
  cases x with
  | nan => rfl
  | infinite negative => cases negative <;> rfl
  | finite negative rank =>
    have hplus : NumberLayout.directive.plus = "" := rfl
    obtain ⟨d, hnum, -⟩ := Binary64.exists_isNumeral_writeRank hplus rank.isLt
    obtain ⟨c, cs, ht, hc⟩ := hnum.exists_cons
    have hread := Binary64.ofText?_write hplus (.finite negative rank)
    have hhead : (Binary64.writeRank .directive rank.val).head? ≠ some '-' := by
      rw [ht]
      rintro ⟨⟩
      cases hc
    -- the point or the exponent keeps the text from being an integer
    have hint : integerOfText? (Binary64.write .directive (.finite negative rank)) = none := by
      refine integerOfText?_eq_none ?_ hhead hnum.not_digits
      cases negative
      · exact Or.inl rfl
      · exact Or.inr rfl
    have hcons : ∃ c cs, Binary64.write .directive (.finite negative rank) = c :: cs ∧
        (c.isDigit = true ∨ c = '-') := by
      cases negative with
      | true => exact ⟨'-', _, rfl, Or.inr rfl⟩
      | false => exact ⟨c, cs, ht, Or.inl hc⟩
    obtain ⟨c', cs', hw, hc'⟩ := hcons
    rw [hw] at hread hint ⊢
    rw [scalarOfText?_number hc', hint, hread]
    rfl

/-- Atoms are read back. -/
theorem scalarOfText?_write {v : Value} (h : v.isAtom = true) :
    scalarOfText? v.write = some v := by
  cases v with
  | null => rfl
  | boolean b => cases b <;> rfl
  | integer i => exact scalarOfText?_writeInt i
  | float x => exact scalarOfText?_writeFloat x
  | string s => cases h
  | list items => cases h

/-! ### Strings -/

theorem ofText?_digits {ds : List Char} (hne : ds ≠ []) (hd : Digits ds) :
    Decimal.ofText? ds = some ⟨Decimal.ofDigits ds, 0⟩ := by
  obtain ⟨h₁, h₂⟩ := Decimal.takeWhile_digits (t := []) hd (by rintro c ⟨⟩)
  rw [List.append_nil] at h₁ h₂
  simp [Decimal.ofText?, h₁, h₂, hne]

theorem ofUnsignedText?_ne_none {ds : List Char} (hne : ds ≠ []) (hd : Digits ds)
    (negative : Bool) : Binary64.ofUnsignedText? negative ds ≠ none := by
  unfold Binary64.ofUnsignedText?
  split_ifs
  · exact Option.some_ne_none _
  · exact Option.some_ne_none _
  · rw [ofText?_digits hne hd]
    exact Option.some_ne_none _

/-- An integer has digits behind an optional minus sign. -/
theorem exists_digits_of_integer {cs : List Char} {i : Int64} (h : integerOfText? cs = some i) :
    ∃ sign ds, cs = sign ++ ds ∧ (sign = [] ∨ sign = ['-']) ∧ ds ≠ [] ∧ Digits ds := by
  have hsplit : ∃ sign ds, cs = sign ++ ds ∧ (sign = [] ∨ sign = ['-']) ∧
      ds = if cs.head? == some '-' then cs.drop 1 else cs := by
    cases cs with
    | nil => exact ⟨[], [], rfl, Or.inl rfl, rfl⟩
    | cons c cs =>
      by_cases hc : c = '-'
      · subst hc
        exact ⟨['-'], cs, rfl, Or.inr rfl, rfl⟩
      · exact ⟨[], c :: cs, rfl, Or.inl rfl, by simp [hc]⟩
  obtain ⟨sign, ds, hcs, hsign, hds⟩ := hsplit
  unfold integerOfText? at h
  dsimp only at h
  rw [← hds] at h
  exact ⟨sign, ds, hcs, hsign, Decimal.digits_of_ite_eq_some h⟩

/-- What reads as an integer reads as a number. -/
theorem ofText?_ne_none_of_integer {cs : List Char} {i : Int64} (h : integerOfText? cs = some i) :
    Binary64.ofText? cs ≠ none := by
  obtain ⟨sign, ds, rfl, rfl | rfl, hne, hd⟩ := exists_digits_of_integer h
  · show Binary64.ofText? ds ≠ none
    cases ds with
    | nil => exact absurd rfl hne
    | cons c ds =>
      have hc := hd c List.mem_cons_self
      unfold Binary64.ofText?
      split
      · rename_i heq
        exact absurd (List.cons.inj heq).1 (Decimal.ne_of_isDigit hc rfl)
      · rename_i heq
        exact absurd (List.cons.inj heq).1 (Decimal.ne_of_isDigit hc rfl)
      · exact ofUnsignedText?_ne_none hne hd false
  · exact ofUnsignedText?_ne_none hne hd true

theorem scalarOfText?_eq_none_of_isBare {cs : List Char} (h : isBare cs = true)
    (hne : cs ≠ complete.toList) : scalarOfText? cs = none := by
  obtain ⟨-, -, hquote, -, hreserved, hcomplete, hnumber⟩ := isBare_iff.mp h
  have hint : integerOfText? cs = none := by
    rw [Option.eq_none_iff_forall_ne_some]
    intro i hi
    exact ofText?_ne_none_of_integer hi hnumber
  have hword : Text.isWord complete cs = false :=
    Bool.eq_false_iff.mpr fun hc => hne (hcomplete hc)
  simp only [isReserved, Bool.or_eq_false_iff] at hreserved
  obtain ⟨⟨⟨htrue, hfalse⟩, hnull⟩, hnone⟩ := hreserved
  simp [scalarOfText?, unquote?_of_head hquote, htrue, hfalse, hnull, hnone, hword, hint, hnumber]

/-- A string is read back from its written form. -/
theorem coerceWithin_writeString (cs : List Char) (n : Nat) :
    coerceWithin n (writeString cs) = .string (String.ofList cs) := by
  have htrim : Text.trim (writeString cs) = writeString cs := (tight_writeString cs).trim_eq
  by_cases hbare : isBare cs = true
  · have hwrite : writeString cs = cs := by rw [writeString, if_pos hbare]
    rw [hwrite] at htrim ⊢
    by_cases hcomplete : cs = complete.toList
    · -- the one word that is written bare although a rule takes it
      refine coerceWithin_of_scalar ?_ n
      rw [htrim, hcomplete]
      rfl
    · have hb : unbracket? cs = none := by
        refine unbracket?_of_head fun hhead => ?_
        have := ((isBare_iff.mp hbare).2.2.2.1 '[' (List.mem_of_mem_head? hhead)).1
        cases this
      rw [coerceWithin_of_text (by rw [htrim, scalarOfText?_eq_none_of_isBare hbare hcomplete])
        (by rw [htrim, hb]), htrim]
  · have hwrite : writeString cs = quoteWith (quoteFor cs) cs := by rw [writeString, if_neg hbare]
    refine coerceWithin_of_scalar ?_ n
    rw [htrim, hwrite, scalarOfText?_quoteWith (isQuote_quoteFor cs)]

/-! ### Lists -/

theorem scalarOfText?_bracket (cs : List Char) : scalarOfText? ('[' :: cs) = none := by
  have hword : ∀ word : String, word.toList.head? ≠ some '[' →
      Text.isWord word ('[' :: cs) = false := fun _ h => Binary64.not_isWord h
  have hint : integerOfText? ('[' :: cs) = none := by
    simp [integerOfText?]
  have hnumber : Binary64.ofText? ('[' :: cs) = none := by
    have hinf := hword "inf" (by decide)
    have hinfinity := hword "infinity" (by decide)
    have hnan := hword "nan" (by decide)
    simp [Binary64.ofText?, Binary64.ofUnsignedText?, hinf, hinfinity, hnan, Decimal.ofText?]
  have hquote : unquote? ('[' :: cs) = none := unquote?_of_head (by rintro c ⟨⟩; rfl)
  have htrue := hword "true" (by decide)
  have hfalse := hword "false" (by decide)
  have hnull := hword "null" (by decide)
  have hnone := hword "none" (by decide)
  have hcomplete := hword complete (by decide)
  simp [scalarOfText?, hquote, htrue, hfalse, hnull, hnone, hcomplete, hint, hnumber]

theorem trim_writeItems_ne_nil (v : Value) (items : List Value) :
    Text.trim (writeItems (v :: items)) ≠ [] := by
  intro h
  obtain ⟨c, t, hc, hblank⟩ := (tight_write v).exists_cons
  obtain ⟨rest, hrest⟩ := exists_joined_eq (write v) (items.map fun u => ' ' :: write u)
  have hmem : c ∈ writeItems (v :: items) := by
    rw [writeItems_eq, itemTexts, hrest, hc]
    simp
  rw [Text.blanks_of_trim_eq_nil h c hmem] at hblank
  cases hblank

/-- The space in front of all items but the first makes no difference. -/
theorem map_itemTexts {v : Value} {items : List Value} {n : Nat}
    (h : ∀ u ∈ v :: items, coerceWithin n u.write = u) :
    (itemTexts (v :: items)).map (coerceWithin n) = v :: items := by
  obtain ⟨hv, hitems⟩ := List.forall_mem_cons.mp h
  have hspace : ∀ u ∈ items, coerceWithin n (' ' :: write u) = u := by
    intro u hu
    rw [coerceWithin_space, hitems u hu]
  rw [itemTexts, List.map_cons, List.map_map, hv]
  exact congrArg _ ((List.map_congr_left hspace).trans (List.map_id items))

/-- A list is read back if its items are and the written items are elements of the grammar. -/
theorem coerceWithin_writeList {items : List Value} {k n : Nat}
    (hitems : ∀ v ∈ items, Item .element k v.write ∧ coerceWithin n v.write = v) :
    coerceWithin (n + 1) (Value.write (.list items)) = .list items := by
  have htrim : Text.trim (Value.write (.list items)) = Value.write (.list items) :=
    (tight_write (.list items)).trim_eq
  have hs : scalarOfText? (Text.trim (Value.write (.list items))) = none := by
    rw [htrim, write, scalarOfText?_bracket]
  have hb : unbracket? (Text.trim (Value.write (.list items))) = some (writeItems items) := by
    rw [htrim, write, unbracket?_brackets]
  rw [coerceWithin_of_bracket hs hb]
  cases items with
  | nil => rfl
  | cons v items =>
    have hne := List.isEmpty_eq_false_iff.mpr (trim_writeItems_ne_nil v items)
    have helems : elements (writeItems (v :: items)) = itemTexts (v :: items) := by
      rw [writeItems_eq]
      exact elements_joined (items_itemTexts fun u hu => (hitems u hu).1)
    rw [hne, helems, map_itemTexts fun u hu => (hitems u hu).2]
    rfl

/-- A value whose strings can be quoted is read back from its written form. -/
theorem coerceWithin_write {v : Value} {n : Nat} (hd : depth v ≤ n) (hn : n ≤ maxListDepth)
    (hs : ∀ s ∈ strings v, Quotable s.toList) : coerceWithin n v.write = v := by
  have htrim : Text.trim v.write = v.write := (tight_write v).trim_eq
  induction v using induct generalizing n with
  | atom v h =>
    refine coerceWithin_of_scalar ?_ n
    rw [htrim, scalarOfText?_write h]
  | string s =>
    rw [write, coerceWithin_writeString, String.ofList_toList]
  | list items ih =>
    rw [depth] at hd
    obtain ⟨n, rfl⟩ : ∃ m, n = m + 1 := ⟨n - 1, by omega⟩
    refine coerceWithin_writeList (k := 1) fun v hv => ?_
    -- every item has room for its lists one level further down
    have hdepth := depth_le_depths hv
    have hstrings : ∀ s ∈ strings v, Quotable s.toList := fun s h => hs s (mem_stringsOf hv h)
    refine ⟨item_write (by omega) hstrings, ?_⟩
    exact ih v hv (by omega) (by omega) hstrings (tight_write v).trim_eq

/-! ### Strings in lists -/

/-- The strings in a value that are items of a list, at any depth.  A value that is a string itself
has none. -/
def listedStrings : Value → List String
  | .list items => stringsOf items
  | _ => []

/-- Coercion undoes writing: a value whose lists nest within the limit and whose strings in lists
can all be quoted has its value again.  A string outside of lists needs no condition, since nothing
has to be found behind it. -/
theorem coerce_undoes_text :
    (∀ v : Value, v.depth ≤ maxListDepth → (∀ s ∈ v.listedStrings, Quotable s.toList) →
      coerce v.text = v) ∧
      ∀ s : String, coerce (text (.string s)) = .string s := by
  have hstring : ∀ s : String, coerce (text (.string s)) = .string s := by
    intro s
    rw [coerce, text, String.toList_ofList, write, coerceWithin_writeString, String.ofList_toList]
  refine ⟨fun v hd hs => ?_, hstring⟩
  have hwrite : (∀ s ∈ strings v, Quotable s.toList) → coerce v.text = v := by
    intro h
    rw [coerce, text, String.toList_ofList, coerceWithin_write hd (Nat.le_refl _) h]
  cases v with
  | string s => exact hstring s
  | list items => exact hwrite hs
  -- an atom has no strings in it
  | _ => exact hwrite (List.forall_mem_nil _)

/-- A list with both quotes, a comma and a not-a-number in it, and a string that no quote serves. -/
theorem coerce_undoes_text_nested :
    coerce (text (.list [.string "it's, \"so\"", .list [.float .nan, .string "7"]])) =
        .list [.string "it's, \"so\"", .list [.float .nan, .string "7"]] ∧
      coerce (text (.string "\"a,b\" 'c]")) = .string "\"a,b\" 'c]" :=
  ⟨coerce_undoes_text.1 _ (by decide) (by decide), coerce_undoes_text.2 _⟩

end Directive.Value
