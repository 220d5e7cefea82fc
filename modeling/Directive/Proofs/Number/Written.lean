import Directive.Number.Layout
import Directive.Proofs.Number.Rounding
import Mathlib.Data.List.DropRight

/-!
# Written numbers read back

A layout sets the digits of a decimal around a point or in front of an exponent.  Reading takes the
digits together again, so the decimal that is read has the value of the one that was set: at most
zeros at the end have moved from the exponent to the coefficient, which makes no difference to the
number it rounds to.  With `nearestRank_shortest` every number is read back from its written form.
-/

namespace Directive.Decimal

/-! ### Digits -/

/-- Nothing but digits. -/
def Digits (ds : List Char) : Prop :=
  ∀ c ∈ ds, c.isDigit = true

theorem digits_append {ds es : List Char} (hd : Digits ds) (he : Digits es) :
    Digits (ds ++ es) := by
  intro c hc
  rcases List.mem_append.mp hc with hc | hc
  · exact hd c hc
  · exact he c hc

theorem digits_replicate_zero (k : Nat) : Digits (List.replicate k '0') := by
  intro c hc
  rw [(List.mem_replicate.mp hc).2]
  rfl

theorem digits_toDigits (n : Nat) : Digits (Nat.toDigits 10 n) :=
  fun _ hc => Nat.isDigit_of_mem_toDigits (by decide) (by decide) hc

theorem ofDigits_toDigits (n : Nat) : ofDigits (Nat.toDigits 10 n) = n :=
  Nat.ofDigitChars_ten_toDigits

theorem ofDigits_append (ds es : List Char) :
    ofDigits (ds ++ es) = ofDigits ds * 10 ^ es.length + ofDigits es := by
  show Nat.ofDigitChars 10 (ds ++ es) 0 =
    Nat.ofDigitChars 10 ds 0 * 10 ^ es.length + Nat.ofDigitChars 10 es 0
  rw [Nat.ofDigitChars_append, Nat.ofDigitChars_eq_ofDigitChars_zero, Nat.mul_comm]

theorem ofDigits_replicate_zero (k : Nat) : ofDigits (List.replicate k '0') = 0 := by
  show Nat.ofDigitChars 10 (List.replicate k '0') 0 = 0
  rw [Nat.ofDigitChars_replicate_zero, Nat.mul_zero]

theorem ofDigits_append_zeros (ds : List Char) (k : Nat) :
    ofDigits (ds ++ List.replicate k '0') = ofDigits ds * 10 ^ k := by
  rw [ofDigits_append, ofDigits_replicate_zero, List.length_replicate, Nat.add_zero]

theorem ofDigits_zeros_append (k : Nat) (ds : List Char) :
    ofDigits (List.replicate k '0' ++ ds) = ofDigits ds := by
  rw [ofDigits_append, ofDigits_replicate_zero, Nat.zero_mul, Nat.zero_add]

theorem takeWhile_digits {ds t : List Char} (hd : Digits ds)
    (ht : ∀ c, t.head? = some c → c.isDigit = false) :
    (ds ++ t).takeWhile Char.isDigit = ds ∧ (ds ++ t).dropWhile Char.isDigit = t := by
  rw [List.takeWhile_append_of_pos hd, List.dropWhile_append_of_pos hd]
  cases t with
  | nil => exact ⟨List.append_nil _, rfl⟩
  | cons c t =>
    have hc := ht c rfl
    simp [hc]

/-! ### Reading decimals -/

theorem all_isDigit {ds : List Char} (hd : Digits ds) : ds.all Char.isDigit = true :=
  List.all_eq_true.mpr hd

/-- The written form of an exponent. -/
inductive IsExponent : List Char → Int → Prop
  | plain (n : Nat) : IsExponent (Nat.toDigits 10 n) n
  | minus (n : Nat) : IsExponent ('-' :: Nat.toDigits 10 n) (-n)

/-- The written form of a decimal: digits, and a point, an exponent or both. -/
inductive IsNumeral : List Char → Decimal → Prop
  | point {ds es : List Char} :
      ds ≠ [] → Digits ds → Digits es →
        IsNumeral (ds ++ '.' :: es) ⟨ofDigits (ds ++ es), -es.length⟩
  | pointExponent {ds es x : List Char} {e : Int} :
      ds ≠ [] → Digits ds → Digits es → IsExponent x e →
        IsNumeral (ds ++ '.' :: (es ++ 'e' :: x)) ⟨ofDigits (ds ++ es), e - es.length⟩
  | exponent {ds x : List Char} {e : Int} :
      ds ≠ [] → Digits ds → IsExponent x e → IsNumeral (ds ++ 'e' :: x) ⟨ofDigits ds, e⟩

theorem ne_of_isDigit {c d : Char} (hc : c.isDigit = true) (hd : d.isDigit = false) : c ≠ d := by
  rintro rfl
  rw [hc] at hd
  cases hd

theorem IsExponent.exponentOfText? {x : List Char} {e : Int} (h : IsExponent x e) :
    exponentOfText? x = some e := by
  cases h with
  | plain n =>
    have hd := digits_toDigits n
    have hn := ofDigits_toDigits n
    cases h : Nat.toDigits 10 n with
    | nil => exact absurd h Nat.toDigits_ne_nil
    | cons c cs =>
      rw [h] at hd hn
      have hc : c.isDigit = true := hd c List.mem_cons_self
      have hminus : (c == '-') = false := beq_eq_false_iff_ne.mpr (ne_of_isDigit hc rfl)
      have hplus : (c == '+') = false := beq_eq_false_iff_ne.mpr (ne_of_isDigit hc rfl)
      simp [Decimal.exponentOfText?, hminus, hplus, all_isDigit hd, hn]
  | minus n =>
    have hne : (Nat.toDigits 10 n).isEmpty = false := by
      rw [List.isEmpty_eq_false_iff]
      exact Nat.toDigits_ne_nil
    simp [Decimal.exponentOfText?, hne, all_isDigit (digits_toDigits n), ofDigits_toDigits]

/-- A numeral reads as its decimal. -/
theorem IsNumeral.ofText? {t : List Char} {d : Decimal} (h : IsNumeral t d) :
    ofText? t = some d := by
  cases h with
  | @point ds es hne hd he =>
    obtain ⟨h₁, h₂⟩ := takeWhile_digits (t := '.' :: es) hd (by
      rintro c ⟨⟩
      rfl)
    obtain ⟨h₃, h₄⟩ := takeWhile_digits (t := []) he (by
      rintro c ⟨⟩)
    rw [List.append_nil] at h₃ h₄
    simp [Decimal.ofText?, h₁, h₂, h₃, h₄, hne]
  | @pointExponent ds es x e hne hd he hx =>
    obtain ⟨h₁, h₂⟩ := takeWhile_digits (t := '.' :: (es ++ 'e' :: x)) hd (by
      rintro c ⟨⟩
      rfl)
    obtain ⟨h₃, h₄⟩ := takeWhile_digits (t := 'e' :: x) he (by
      rintro c ⟨⟩
      rfl)
    simp [Decimal.ofText?, h₁, h₂, h₃, h₄, hne, hx.exponentOfText?]
  | @exponent ds x e hne hd hx =>
    obtain ⟨h₁, h₂⟩ := takeWhile_digits (t := 'e' :: x) hd (by
      rintro c ⟨⟩
      rfl)
    simp [Decimal.ofText?, h₁, h₂, hne, hx.exponentOfText?]

/-- The characters of numbers that are not words. -/
def IsNumeric (c : Char) : Prop :=
  c.isDigit = true ∨ c ∈ ['.', 'e', 'E', '+', '-']

/-- What is read only if there are digits and nothing else. -/
theorem digits_of_ite_eq_some {α : Type} {ds : List Char} {x : Option α} {a : α}
    (h : (if ds.isEmpty || !ds.all Char.isDigit then none else x) = some a) :
    ds ≠ [] ∧ Digits ds := by
  by_cases hbad : (ds.isEmpty || !ds.all Char.isDigit) = true
  · rw [if_pos hbad] at h
    cases h
  · simp only [Bool.or_eq_true, not_or, Bool.not_eq_true, Bool.not_eq_false',
      List.isEmpty_eq_false_iff, List.all_eq_true] at hbad
    exact hbad

theorem isNumeric_of_digits {ds : List Char} (hd : Digits ds) : ∀ c ∈ ds, IsNumeric c :=
  fun c hc => Or.inl (hd c hc)

theorem IsExponent.isNumeric {x : List Char} {e : Int} (h : IsExponent x e) :
    ∀ c ∈ x, IsNumeric c := by
  cases h with
  | plain n => exact isNumeric_of_digits (digits_toDigits n)
  | minus n =>
    exact List.forall_mem_cons.mpr
      ⟨Or.inr (by decide), isNumeric_of_digits (digits_toDigits n)⟩

theorem IsNumeral.isNumeric {t : List Char} {d : Decimal} (h : IsNumeral t d) :
    ∀ c ∈ t, IsNumeric c := by
  have hdot : IsNumeric '.' := Or.inr (by decide)
  have hexp : IsNumeric 'e' := Or.inr (by decide)
  cases h with
  | point _ hd he =>
    exact List.forall_mem_append.mpr ⟨isNumeric_of_digits hd,
      List.forall_mem_cons.mpr ⟨hdot, isNumeric_of_digits he⟩⟩
  | pointExponent _ hd he hx =>
    exact List.forall_mem_append.mpr ⟨isNumeric_of_digits hd, List.forall_mem_cons.mpr ⟨hdot,
      List.forall_mem_append.mpr ⟨isNumeric_of_digits he,
        List.forall_mem_cons.mpr ⟨hexp, hx.isNumeric⟩⟩⟩⟩
  | exponent _ hd hx =>
    exact List.forall_mem_append.mpr ⟨isNumeric_of_digits hd,
      List.forall_mem_cons.mpr ⟨hexp, hx.isNumeric⟩⟩

theorem isNumeric_of_exponentOfText? {cs : List Char} {e : Int} (h : exponentOfText? cs = some e) :
    ∀ c ∈ cs, IsNumeric c := by
  cases cs with
  | nil => cases h
  | cons c cs =>
    obtain ⟨-, hd⟩ := digits_of_ite_eq_some h
    by_cases hsign : (c == '-' || c == '+') = true
    · rw [if_pos hsign] at hd
      have hc : c ∈ ['.', 'e', 'E', '+', '-'] := by
        simp only [Bool.or_eq_true, beq_iff_eq] at hsign
        rcases hsign with rfl | rfl <;> decide
      exact List.forall_mem_cons.mpr ⟨Or.inr hc, isNumeric_of_digits hd⟩
    · rw [if_neg hsign] at hd
      exact isNumeric_of_digits hd

theorem isNumeric_takeWhile (cs : List Char) : ∀ c ∈ cs.takeWhile Char.isDigit, IsNumeric c :=
  fun _ hc => Or.inl (List.mem_takeWhile_imp hc)

theorem isNumeric_of_exponentPart {rest : List Char} {f : Int → Option Decimal} {d : Decimal}
    (h : (match rest with
      | [] => some 0 >>= f
      | c :: after => if c == 'e' || c == 'E' then exponentOfText? after >>= f else none >>= f) =
        some d) :
    ∀ c ∈ rest, IsNumeric c := by
  cases rest with
  | nil => exact List.forall_mem_nil _
  | cons c after =>
    dsimp only at h
    split at h
    · rename_i hc
      obtain ⟨e, he, -⟩ := Option.bind_eq_some_iff.mp h
      have hmem : c ∈ ['.', 'e', 'E', '+', '-'] := by
        simp only [Bool.or_eq_true, beq_iff_eq] at hc
        rcases hc with rfl | rfl <;> decide
      exact List.forall_mem_cons.mpr ⟨Or.inr hmem, isNumeric_of_exponentOfText? he⟩
    · cases h

/-- What reads as a decimal has only the characters of numbers. -/
theorem isNumeric_of_ofText? {cs : List Char} {d : Decimal} (h : ofText? cs = some d) :
    ∀ c ∈ cs, IsNumeric c := by
  rw [ofText?] at h
  dsimp only at h
  rw [← List.takeWhile_append_dropWhile (p := Char.isDigit) (l := cs), List.forall_mem_append]
  refine ⟨isNumeric_takeWhile cs, ?_⟩
  split at h
  · rename_i after heq
    split at h
    · cases h
    · rw [heq, ← List.takeWhile_append_dropWhile (p := Char.isDigit) (l := after)]
      exact List.forall_mem_cons.mpr ⟨Or.inr (by decide),
        List.forall_mem_append.mpr ⟨isNumeric_takeWhile after, isNumeric_of_exponentPart h⟩⟩
  · split at h
    · cases h
    · exact isNumeric_of_exponentPart h

/-- A numeral begins with a digit. -/
theorem IsNumeral.exists_cons {t : List Char} {d : Decimal} (h : IsNumeral t d) :
    ∃ c cs, t = c :: cs ∧ c.isDigit = true := by
  have hhead : ∀ {ds t : List Char}, ds ≠ [] → Digits ds →
      ∃ c cs, ds ++ t = c :: cs ∧ c.isDigit = true := by
    intro ds t hne hd
    cases ds with
    | nil => exact absurd rfl hne
    | cons c ds => exact ⟨c, ds ++ t, rfl, hd c List.mem_cons_self⟩
  cases h with
  | point hne hd => exact hhead hne hd
  | pointExponent hne hd => exact hhead hne hd
  | exponent hne hd => exact hhead hne hd

/-- No integer looks like a numeral. -/
theorem IsNumeral.not_digits {t : List Char} {d : Decimal} (h : IsNumeral t d) : ¬Digits t := by
  intro ht
  cases h with
  | point => exact absurd (ht '.' (by simp)) (by decide)
  | pointExponent => exact absurd (ht '.' (by simp)) (by decide)
  | exponent => exact absurd (ht 'e' (by simp)) (by decide)

end Directive.Decimal

namespace Directive.NumberLayout

open Decimal

/-! ### Setting digits -/

/-- The exponent mark with the exponent. -/
theorem exists_isExponent {layout : NumberLayout} (hplus : layout.plus = "") (e : Int) :
    ∃ x, (if e < 0 then "e-" else "e" ++ layout.plus).toList ++ Nat.toDigits 10 e.natAbs =
      'e' :: x ∧ IsExponent x e := by
  by_cases he : e < 0
  · have hneg : -(e.natAbs : Int) = e := by omega
    have hx := IsExponent.minus e.natAbs
    rw [hneg] at hx
    refine ⟨_, ?_, hx⟩
    rw [if_pos he]
    rfl
  · have hpos : (e.natAbs : Int) = e := by omega
    have hx := IsExponent.plain e.natAbs
    rw [hpos] at hx
    refine ⟨_, ?_, hx⟩
    rw [if_neg he, hplus]
    rfl

section

variable {ds : List Char} (hne : ds ≠ []) (hd : Digits ds)

include hd

/-- Zeros between the point and the digits. -/
theorem isNumeral_point_zeros {e : Int} (he : e < 0) :
    IsNumeral ('0' :: '.' :: (List.replicate (-e - 1).toNat '0' ++ ds))
      ⟨ofDigits ds, e + 1 - ds.length⟩ := by
  have hnum := IsNumeral.point (List.cons_ne_nil '0' []) (digits_replicate_zero 1)
    (digits_append (digits_replicate_zero (-e - 1).toNat) hd)
  have hcoeff : ofDigits (['0'] ++ (List.replicate (-e - 1).toNat '0' ++ ds)) = ofDigits ds :=
    (ofDigits_zeros_append 1 _).trans (ofDigits_zeros_append _ _)
  have hexp : -((List.replicate (-e - 1).toNat '0' ++ ds).length : Int) = e + 1 - ds.length := by
    rw [List.length_append, List.length_replicate]
    omega
  rw [hcoeff, hexp] at hnum
  exact hnum

include hne

/-- Digits with zeros behind them and a point after `n` places. -/
theorem isNumeral_padded {n k : Nat} (hn : 0 < n) (hk : n ≤ ds.length + k) :
    IsNumeral ((ds ++ List.replicate k '0').take n ++ '.' :: (ds ++ List.replicate k '0').drop n)
      ⟨ofDigits ds * 10 ^ k, n - ds.length - k⟩ := by
  have hdigits : Digits (ds ++ List.replicate k '0') :=
    digits_append hd (digits_replicate_zero _)
  have hlen : (ds ++ List.replicate k '0').length = ds.length + k := by
    rw [List.length_append, List.length_replicate]
  have htake : (ds ++ List.replicate k '0').take n ≠ [] := by
    intro h
    rw [List.take_eq_nil_iff, List.append_eq_nil_iff] at h
    rcases h with h | ⟨h, -⟩
    · omega
    · exact hne h
  have hleft : Digits ((ds ++ List.replicate k '0').take n) :=
    fun c hc => hdigits c (List.mem_of_mem_take hc)
  have hright : Digits ((ds ++ List.replicate k '0').drop n) :=
    fun c hc => hdigits c (List.mem_of_mem_drop hc)
  have hnum := IsNumeral.point htake hleft hright
  have hexp : -(((ds ++ List.replicate k '0').drop n).length : Int) = n - ds.length - k := by
    rw [List.length_drop, hlen]
    omega
  rw [List.take_append_drop, ofDigits_append_zeros, hexp] at hnum
  exact hnum

/-- One digit, a point if there are more, and an exponent. -/
theorem isNumeral_scientific {x : List Char} {e : Int} (hx : IsExponent x e) :
    IsNumeral (ds.take 1 ++ ((if ds.length ≤ 1 then [] else '.' :: ds.drop 1) ++ 'e' :: x))
      ⟨ofDigits ds, e + 1 - ds.length⟩ := by
  cases ds with
  | nil => exact absurd rfl hne
  | cons d ds =>
    cases ds with
    | nil =>
      have hexp : e + 1 - ([d].length : Int) = e := by simp
      rw [hexp]
      exact .exponent (List.cons_ne_nil d []) hd hx
    | cons d' ds =>
      obtain ⟨hd₁, hd₂⟩ := List.forall_mem_cons.mp hd
      have hexp : e + 1 - ((d :: d' :: ds).length : Int) = e - (d' :: ds).length := by
        simp only [List.length_cons]
        omega
      rw [hexp]
      exact .pointExponent (List.cons_ne_nil d []) (List.forall_mem_singleton.mpr hd₁) hd₂ hx

/-- Digits that are set make a numeral, perhaps with zeros behind them. -/
theorem isNumeral_set {layout : NumberLayout} (hplus : layout.plus = "") (e : Int) :
    ∃ k : Nat, IsNumeral (layout.set ds e) ⟨ofDigits ds * 10 ^ k, e + 1 - ds.length - k⟩ := by
  unfold set
  by_cases hpos : (layout.leastPositional ≤ e && e ≤ layout.greatestPositional) = true
  · rw [if_pos hpos]
    split_ifs with he
    · refine ⟨0, ?_⟩
      rw [Nat.pow_zero, Nat.mul_one, Int.natCast_zero, Int.sub_zero]
      exact isNumeral_point_zeros hd he
    · refine ⟨e.toNat + 1 + 1 - ds.length, ?_⟩
      have he' : e + 1 = ((e.toNat + 1 : Nat) : Int) := by omega
      rw [he']
      exact isNumeral_padded hne hd (by omega) (by omega)
  · obtain ⟨x, hmark, hx⟩ := exists_isExponent hplus e
    refine ⟨0, ?_⟩
    rw [if_neg hpos, Nat.pow_zero, Nat.mul_one, Int.natCast_zero, Int.sub_zero]
    dsimp only
    rw [List.append_assoc, List.append_assoc, hmark]
    exact isNumeral_scientific hne hd hx

end

end Directive.NumberLayout

namespace Directive.Decimal

/-! ### The digits that are set -/

/-- The significant digits of a decimal are its digits but for zeros at the end. -/
theorem exists_significantDigits {d : Decimal} (hc : d.coefficient ≠ 0) :
    d.significantDigits ≠ [] ∧ Digits d.significantDigits ∧
      ∃ k : Nat, d.coefficient = ofDigits d.significantDigits * 10 ^ k ∧
        digitCount d.coefficient = d.significantDigits.length + k := by
  have hsplit : (Nat.toDigits 10 d.coefficient).rdropWhile (· == '0') ++
      (Nat.toDigits 10 d.coefficient).rtakeWhile (· == '0') = Nat.toDigits 10 d.coefficient :=
    List.rdropWhile_append_rtakeWhile
  have hzeros : (Nat.toDigits 10 d.coefficient).rtakeWhile (· == '0') =
      List.replicate ((Nat.toDigits 10 d.coefficient).rtakeWhile (· == '0')).length '0' :=
    List.eq_replicate_iff.mpr ⟨rfl, fun c hc => by simpa using List.mem_rtakeWhile_imp hc⟩
  have hsig : d.significantDigits =
      if ((Nat.toDigits 10 d.coefficient).rdropWhile (· == '0')).isEmpty then ['0']
      else (Nat.toDigits 10 d.coefficient).rdropWhile (· == '0') := rfl
  have hvalue := ofDigits_toDigits d.coefficient
  have hdigits := digits_toDigits d.coefficient
  have hcount : digitCount d.coefficient = (Nat.toDigits 10 d.coefficient).length := rfl
  rw [hcount, hsig]
  generalize Nat.toDigits 10 d.coefficient = ts at hsplit hzeros hvalue hdigits ⊢
  generalize (ts.rtakeWhile (· == '0')).length = k at hzeros
  rw [hzeros] at hsplit
  generalize ts.rdropWhile (· == '0') = ds at hsplit ⊢
  subst hsplit
  -- All digits are zeros only if the coefficient is zero.
  have hne : ds ≠ [] := by
    rintro rfl
    rw [List.nil_append, ofDigits_replicate_zero] at hvalue
    exact hc hvalue.symm
  have hemp : ds.isEmpty = false := List.isEmpty_eq_false_iff.mpr hne
  rw [hemp]
  refine ⟨hne, fun c hc => hdigits c (List.mem_append_left _ hc), k, ?_, ?_⟩
  · rw [← hvalue, ofDigits_append_zeros]
    rfl
  · rw [List.length_append, List.length_replicate]
    rfl

/-- Setting the digits of a decimal and rounding what is read is rounding the decimal. -/
theorem exists_isNumeral_set {layout : NumberLayout} (hplus : layout.plus = "") {d : Decimal}
    (hc : d.coefficient ≠ 0) : ∃ d', IsNumeral (layout.set d.significantDigits d.leadingExponent) d' ∧
      ∀ negative, toBinary64 negative d' = toBinary64 negative d := by
  obtain ⟨hne, hd, j, hcoeff, hcount⟩ := exists_significantDigits hc
  obtain ⟨k, hnum⟩ := NumberLayout.isNumeral_set hne hd hplus d.leadingExponent
  refine ⟨_, hnum, fun negative => ?_⟩
  have hexp : d.leadingExponent + 1 - d.significantDigits.length - k + k = d.exponent + j := by
    rw [leadingExponent, hcount]
    omega
  have hdec : d = ⟨ofDigits d.significantDigits * 10 ^ j, d.exponent⟩ := by rw [← hcoeff]
  rw [toBinary64_mul_pow, hexp, ← toBinary64_mul_pow, ← hdec]

end Directive.Decimal

namespace Directive.Binary64

open Decimal

/-! ### Numbers -/

/-- A magnitude is written as a numeral that rounds to it. -/
theorem exists_isNumeral_writeRank {layout : NumberLayout} (hplus : layout.plus = "") {rank : Nat}
    (h : rank < rankBound) : ∃ d, IsNumeral (writeRank layout rank) d ∧
      ∀ negative, d.toBinary64 negative = ofRank negative rank := by
  unfold writeRank
  split_ifs with hz
  · subst hz
    exact ⟨_, .point (List.cons_ne_nil '0' []) (digits_replicate_zero 1) (digits_replicate_zero 1),
      fun negative => rfl⟩
  · have hrank := nearestRank_shortest layout.tie h
    have hc : (shortest layout.tie rank).coefficient ≠ 0 := by
      intro hc
      rw [num, hc, Nat.zero_mul, nearestRank_zero] at hrank
      exact hz hrank.symm
    obtain ⟨d, hnum, hd⟩ := exists_isNumeral_set hplus hc
    refine ⟨d, hnum, fun negative => ?_⟩
    rw [hd, toBinary64_eq, hrank]

theorem not_isWord {word : String} {c : Char} {cs : List Char}
    (h : word.toList.head? ≠ some c.toLower) : Text.isWord word (c :: cs) = false := by
  rw [Text.isWord, beq_eq_false_iff_ne]
  intro heq
  rw [← heq] at h
  exact h rfl

/-- A digit is no letter. -/
theorem toLower_of_isDigit {c : Char} (h : c.isDigit = true) : c.toLower = c := by
  unfold Char.toLower
  rw [dif_neg]
  rintro ⟨hA, -⟩
  simp only [Char.isDigit, Bool.and_eq_true, decide_eq_true_eq] at h
  have hA' : 65 ≤ c.toNat := hA
  have h9 : c.toNat ≤ 57 := h.2
  omega

/-- No word begins with a digit. -/
theorem not_isWord_of_isNumeral {t : List Char} {d : Decimal} (h : IsNumeral t d) {word : String}
    (hword : ∀ c, word.toList.head? = some c → c.isDigit = false) : Text.isWord word t = false := by
  obtain ⟨c, cs, rfl, hc⟩ := h.exists_cons
  refine not_isWord fun hhead => ?_
  rw [toLower_of_isDigit hc] at hhead
  rw [hword c hhead] at hc
  cases hc

theorem ofUnsignedText?_of_isNumeral {t : List Char} {d : Decimal} (h : IsNumeral t d)
    (negative : Bool) : ofUnsignedText? negative t = some (d.toBinary64 negative) := by
  have hinf : Text.isWord "inf" t = false :=
    not_isWord_of_isNumeral h (by rintro c ⟨⟩; rfl)
  have hinfinity : Text.isWord "infinity" t = false :=
    not_isWord_of_isNumeral h (by rintro c ⟨⟩; rfl)
  have hnan : Text.isWord "nan" t = false :=
    not_isWord_of_isNumeral h (by rintro c ⟨⟩; rfl)
  simp [ofUnsignedText?, hinf, hinfinity, hnan, h.ofText?]

/-- Every number reads back from its written form. -/
theorem ofText?_write {layout : NumberLayout} (hplus : layout.plus = "") (x : Binary64) :
    ofText? (x.write layout) = some x := by
  cases x with
  | nan => rfl
  | infinite negative => cases negative <;> rfl
  | finite negative rank =>
    obtain ⟨d, hnum, hd⟩ := exists_isNumeral_writeRank hplus rank.isLt
    have hread : ofUnsignedText? negative (writeRank layout rank.val) =
        some (.finite negative rank) := by
      rw [ofUnsignedText?_of_isNumeral hnum, hd, ofRank, dif_pos rank.isLt]
    cases negative with
    | true => exact hread
    | false =>
      obtain ⟨c, cs, ht, hc⟩ := hnum.exists_cons
      show ofText? (writeRank layout rank.val) = _
      rw [ht] at hread ⊢
      unfold ofText?
      split
      · rename_i heq
        exact absurd (List.cons.inj heq).1 (ne_of_isDigit hc rfl)
      · rename_i heq
        exact absurd (List.cons.inj heq).1 (ne_of_isDigit hc rfl)
      · exact hread

end Directive.Binary64
