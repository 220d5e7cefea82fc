import Directive.Number.Shortest
import Mathlib.Algebra.Order.Group.Nat
import Mathlib.Tactic.Ring

/-!
# Rounding depends on the value alone

`nearestRank` takes a fraction, and equal fractions have the same nearest rank, so a decimal may be
rounded in any of its forms: the answers that `Decimal.toBinary64` gives early agree with the
division, and a factor of ten may be moved between the coefficient and the exponent.

The exact value of a magnitude rounds to that magnitude.  `shortest` tries decimals that read back
and ends with the exact one, so it reads back in any case.
-/

namespace Directive.Binary64

/-! ### Equal fractions -/

theorem roundHalfEven_mul {k : Nat} (hk : 0 < k) (num den : Nat) :
    roundHalfEven (k * num) (k * den) = roundHalfEven num den := by
  have hlt : 2 * (k * (num % den)) < k * den ↔ 2 * (num % den) < den := by
    rw [Nat.mul_left_comm]
    exact Nat.mul_lt_mul_left hk
  have hgt : k * den < 2 * (k * (num % den)) ↔ den < 2 * (num % den) := by
    rw [Nat.mul_left_comm]
    exact Nat.mul_lt_mul_left hk
  simp only [roundHalfEven, Nat.mul_div_mul_left _ _ hk, Nat.mul_mod_mul_left, hlt, hgt]

/-- The rank of the magnitude of `num / den` units. -/
def rankOfUnits (num den : Nat) : Nat :=
  (Nat.log2 (num / den) - 52) * 2 ^ 52 +
    roundHalfEven num (den * 2 ^ (Nat.log2 (num / den) - 52))

theorem nearestRank_eq (num den : Nat) :
    nearestRank num den = rankOfUnits (num * 2 ^ 1074) den := by
  rw [nearestRank, rankOfUnits]

theorem rankOfUnits_mul {k : Nat} (hk : 0 < k) (num den : Nat) :
    rankOfUnits (k * num) (k * den) = rankOfUnits num den := by
  rw [rankOfUnits, Nat.mul_div_mul_left _ _ hk, Nat.mul_assoc, roundHalfEven_mul hk, rankOfUnits]

theorem nearestRank_mul {k : Nat} (hk : 0 < k) (num den : Nat) :
    nearestRank (k * num) (k * den) = nearestRank num den := by
  rw [nearestRank_eq, Nat.mul_assoc, rankOfUnits_mul hk, nearestRank_eq]

/-- Equal fractions have the same nearest rank. -/
theorem nearestRank_congr {num den num' den' : Nat} (hd : 0 < den) (hd' : 0 < den')
    (h : num * den' = num' * den) : nearestRank num den = nearestRank num' den' := by
  rw [← nearestRank_mul hd' num den, ← nearestRank_mul hd num' den', Nat.mul_comm den' num, h,
    Nat.mul_comm num' den, Nat.mul_comm den' den]

theorem nearestRank_zero (den : Nat) : nearestRank 0 den = 0 := by
  rw [nearestRank_eq, Nat.zero_mul, rankOfUnits, Nat.zero_div]
  simp [roundHalfEven]

theorem add_le_log2 {a b u : Nat} (h : 2 ^ a * 2 ^ b ≤ u) : a + b ≤ Nat.log2 u := by
  rw [← Nat.pow_add] at h
  have hpos : 0 < 2 ^ (a + b) := Nat.pow_pos (by decide)
  exact (Nat.le_log2 (by omega)).mpr h

/-- What lies above every finite magnitude has no rank of a finite one. -/
theorem rankBound_le_nearestRank {num : Nat} (h : 2 ^ 1026 ≤ num) :
    rankBound ≤ nearestRank num 1 := by
  have hlog : 1026 + 1074 ≤ Nat.log2 (num * 2 ^ 1074) :=
    add_le_log2 (Nat.mul_le_mul_right _ h)
  rw [nearestRank_eq, rankOfUnits, Nat.div_one]
  have hshift : 2047 * 2 ^ 52 ≤ (Nat.log2 (num * 2 ^ 1074) - 52) * 2 ^ 52 :=
    Nat.mul_le_mul_right _ (by omega)
  exact Nat.le_add_right_of_le hshift

/-- What lies below half the least magnitude is rounded to zero. -/
theorem nearestRank_eq_zero {num den : Nat} (h : 2 * (num * 2 ^ 1074) < den) :
    nearestRank num den = 0 := by
  rw [nearestRank_eq]
  generalize num * 2 ^ 1074 = u at h ⊢
  have hlt : u < den := by omega
  have hlog : Nat.log2 0 - 52 = 0 := by decide
  rw [rankOfUnits, Nat.div_eq_of_lt hlt, hlog, Nat.zero_mul, Nat.zero_add, Nat.pow_zero,
    Nat.mul_one]
  simp only [roundHalfEven, Nat.div_eq_of_lt hlt, Nat.mod_eq_of_lt hlt]
  rw [if_pos (by omega)]

theorem ofRank_inj {r s : Nat} {negative : Bool} (hs : s < rankBound)
    (h : ofRank negative r = ofRank negative s) : r = s := by
  unfold ofRank at h
  rw [dif_pos hs] at h
  split_ifs at h with hr
  · simpa using h

end Directive.Binary64

namespace Directive.Decimal

open Binary64

/-! ### Decimals -/

/-- The numerator of a decimal as a fraction. -/
def num (d : Decimal) : Nat :=
  d.coefficient * 10 ^ d.exponent.toNat

/-- The denominator of a decimal as a fraction. -/
def den (d : Decimal) : Nat :=
  10 ^ (-d.exponent).toNat

theorem den_pos (d : Decimal) : 0 < d.den :=
  Nat.pow_pos (by decide)

theorem num_ofNat (c e : Nat) : num ⟨c, .ofNat e⟩ = c * 10 ^ e :=
  rfl

theorem den_ofNat (c e : Nat) : den ⟨c, .ofNat e⟩ = 1 := by
  have he : (-(Int.ofNat e)).toNat = 0 := by simp
  rw [den, he, Nat.pow_zero]

theorem num_negSucc (c e : Nat) : num ⟨c, .negSucc e⟩ = c := by
  show c * 10 ^ 0 = c
  rw [Nat.pow_zero, Nat.mul_one]

theorem den_negSucc (c e : Nat) : den ⟨c, .negSucc e⟩ = 10 ^ (e + 1) :=
  rfl

/-- A power of two is compared to a power of ten by `2 ^ 93 ≤ 10 ^ 28`. -/
theorem two_pow_le_ten_pow {k e n : Nat} (hk : k ≤ 93 * n + 3) (he : 28 * n + 1 ≤ e) :
    2 ^ k ≤ 10 ^ e := by
  calc 2 ^ k ≤ 2 ^ (93 * n + 3) := Nat.pow_le_pow_right (by decide) hk
    _ = (2 ^ 93) ^ n * 2 ^ 3 := by rw [Nat.pow_add, Nat.pow_mul]
    _ ≤ (10 ^ 28) ^ n * 10 ^ 1 := Nat.mul_le_mul (Nat.pow_le_pow_left (by decide) n) (by decide)
    _ = 10 ^ (28 * n + 1) := by rw [Nat.pow_add, Nat.pow_mul]
    _ ≤ 10 ^ e := Nat.pow_le_pow_right (by decide) he

theorem two_mul_mul_two_pow_lt (c k : Nat) : 2 * (c * 2 ^ k) < 2 ^ (Nat.log2 c + 1 + k + 1) := by
  have hlog : c * 2 ^ k < 2 ^ (Nat.log2 c + 1) * 2 ^ k :=
    Nat.mul_lt_mul_of_pos_right Nat.lt_log2_self (Nat.two_pow_pos k)
  calc 2 * (c * 2 ^ k) < 2 * (2 ^ (Nat.log2 c + 1) * 2 ^ k) :=
        Nat.mul_lt_mul_of_pos_left hlog (by decide)
    _ = 2 ^ (Nat.log2 c + 1 + k + 1) := by
      rw [← Nat.pow_add, Nat.pow_succ _ (Nat.log2 c + 1 + k), Nat.mul_comm]

/-- Rounding a decimal is rounding its fraction. -/
theorem toBinary64_eq (negative : Bool) (d : Decimal) :
    d.toBinary64 negative = ofRank negative (nearestRank d.num d.den) := by
  obtain ⟨c, e⟩ := d
  by_cases hc : c = 0
  · subst hc
    rw [num, Nat.zero_mul, nearestRank_zero, toBinary64, if_pos rfl]
  · have hpos : 1 ≤ c := Nat.pos_of_ne_zero hc
    rw [toBinary64, if_neg hc]
    cases e with
    | ofNat e =>
      rw [num_ofNat, den_ofNat]
      dsimp only
      split_ifs with he
      · -- The greatest finite number is less than `2 ^ 1026`.
        have hten : 2 ^ 1026 ≤ 10 ^ e :=
          two_pow_le_ten_pow (by decide : 1026 ≤ 93 * 11 + 3) (by omega)
        have hbig : 2 ^ 1026 ≤ c * 10 ^ e := hten.trans (Nat.le_mul_of_pos_left _ hpos)
        rw [ofRank, dif_neg (Nat.not_lt.mpr (rankBound_le_nearestRank hbig))]
      · rfl
    | negSucc e =>
      rw [num_negSucc, den_negSucc]
      dsimp only
      split_ifs with he
      · have hsmall : 2 * (c * 2 ^ 1074) < 10 ^ (e + 1) := by
          calc 2 * (c * 2 ^ 1074) < 2 ^ (Nat.log2 c + 1 + 1074 + 1) := two_mul_mul_two_pow_lt c 1074
            _ ≤ 2 ^ (3 * (e + 1)) := Nat.pow_le_pow_right (by decide) (by omega)
            _ = 8 ^ (e + 1) := Nat.pow_mul _ _ _
            _ ≤ 10 ^ (e + 1) := Nat.pow_le_pow_left (by decide) _
        rw [nearestRank_eq_zero hsmall]
      · rfl

/-- A power of ten may stand in the coefficient or in the exponent. -/
theorem toBinary64_mul_pow (negative : Bool) (c k : Nat) (e : Int) :
    toBinary64 negative ⟨c * 10 ^ k, e⟩ = toBinary64 negative ⟨c, e + k⟩ := by
  have hexp : k + e.toNat + (-(e + k)).toNat = (e + k).toNat + (-e).toNat := by omega
  have hcross : c * 10 ^ k * 10 ^ e.toNat * 10 ^ (-(e + k)).toNat =
      c * 10 ^ (e + k).toNat * 10 ^ (-e).toNat := by
    rw [Nat.mul_assoc c, ← Nat.pow_add, Nat.mul_assoc c, ← Nat.pow_add, hexp, Nat.pow_add,
      Nat.mul_assoc]
  rw [toBinary64_eq, toBinary64_eq]
  exact congrArg (ofRank negative) (nearestRank_congr (den_pos _) (den_pos _) hcross)

end Directive.Decimal

namespace Directive.Binary64

open Decimal

/-! ### Exact values -/

theorem roundHalfEven_one (n : Nat) : roundHalfEven n 1 = n := by
  simp [roundHalfEven, Nat.mod_one]

theorem roundHalfEven_mul_self {k : Nat} (hk : 0 < k) (n : Nat) :
    roundHalfEven (n * k) k = n := by
  have h := roundHalfEven_mul hk n 1
  rwa [Nat.mul_one, roundHalfEven_one, Nat.mul_comm] at h

/-- Units count magnitudes: the magnitude of as many units as a rank has has that rank. -/
theorem rankOfUnits_units (rank : Nat) : rankOfUnits (units rank) 1 = rank := by
  rw [rankOfUnits, Nat.div_one, Nat.one_mul]
  by_cases h : rank < 2 ^ 53
  · have hlog : Nat.log2 rank - 52 = 0 := by
      by_cases hz : rank = 0
      · subst hz
        decide
      · have := (Nat.log2_lt hz).mpr h
        omega
    rw [units, if_pos h, hlog, Nat.pow_zero, roundHalfEven_one]
    omega
  · -- A greater magnitude is a significand of 53 bits and a power of two.
    have hlo : 2 ^ 52 ≤ 2 ^ 52 + rank % 2 ^ 52 := Nat.le_add_right _ _
    have hhi : 2 ^ 52 + rank % 2 ^ 52 < 2 ^ 53 := by omega
    have hexp : 1 ≤ rank / 2 ^ 52 - 1 := by omega
    have hrank : (rank / 2 ^ 52 - 1) * 2 ^ 52 + (2 ^ 52 + rank % 2 ^ 52) = rank := by omega
    rw [units, if_neg h]
    generalize 2 ^ 52 + rank % 2 ^ 52 = m at hlo hhi hrank ⊢
    generalize rank / 2 ^ 52 - 1 = e at hexp hrank ⊢
    have hpos : 0 < 2 ^ e := Nat.pow_pos (by decide)
    have hlog : Nat.log2 (m * 2 ^ e) = 52 + e := by
      rw [Nat.log2_eq_iff (Nat.mul_ne_zero (by omega) (by omega))]
      constructor
      · rw [Nat.pow_add]
        exact Nat.mul_le_mul_right _ hlo
      · have hsucc : 52 + e + 1 = 53 + e := by omega
        rw [hsucc, Nat.pow_add]
        exact Nat.mul_lt_mul_of_pos_right hhi hpos
    rw [hlog, Nat.add_sub_cancel_left, roundHalfEven_mul_self hpos]
    exact hrank

/-- The exact value of a magnitude rounds to that magnitude. -/
theorem nearestRank_exactDecimal (rank : Nat) :
    nearestRank (exactDecimal rank).num (exactDecimal rank).den = rank := by
  have hten : ∀ k : Nat, 10 ^ k = 2 ^ k * 5 ^ k := Nat.mul_pow 2 5
  have hpos : ∀ k : Nat, 0 < 2 ^ k * 5 ^ k := fun k => hten k ▸ Nat.pow_pos (by decide)
  have hnum : (-1074 : Int).toNat = 0 := rfl
  have hden : (-(-1074 : Int)).toNat = 1074 := rfl
  rw [nearestRank_eq, exactDecimal, num, den, hnum, hden, Nat.pow_zero, Nat.mul_one, hten]
  have h := rankOfUnits_mul (hpos 1074) (units rank) 1
  rw [Nat.mul_one, rankOfUnits_units] at h
  generalize 2 ^ 1074 = a at h ⊢
  generalize 5 ^ 1074 = b at h ⊢
  have hunits : units rank * b * a = a * b * units rank := by ring
  rw [hunits, h]

/-! ### The shortest decimal -/

theorem readsBack_iff {rank : Nat} {d : Decimal} (h : rank < rankBound) :
    readsBack rank d = true ↔ nearestRank d.num d.den = rank := by
  rw [readsBack, beq_iff_eq, toBinary64_eq]
  constructor
  · exact ofRank_inj h
  · intro hd
    rw [hd]

/-- Whichever of two neighbours is taken, it is one that fits. -/
theorem fits_of_nearer {tie : Tie} {fits : Decimal → Bool} {twice whole : Nat}
    {below above d : Decimal} (h : nearer tie fits twice whole below above = some d) :
    fits d = true := by
  unfold nearer at h
  cases hbelow : fits below with
  | false =>
    cases habove : fits above with
    | false => simp [hbelow, habove] at h
    | true =>
      simp only [hbelow, habove, Option.some.injEq] at h
      rwa [← h]
  | true =>
    cases habove : fits above with
    | false =>
      simp only [hbelow, habove, Option.some.injEq] at h
      rwa [← h]
    | true =>
      have hd : d = below ∨ d = above := by
        simp only [hbelow, habove] at h
        split_ifs at h with h₁ h₂ h₃
        · exact Or.inl (Option.some.inj h).symm
        · exact Or.inr (Option.some.inj h).symm
        · cases tie with
          | up => exact Or.inr (Option.some.inj h).symm
          | even => exact Or.inl (Option.some.inj h).symm
        · cases tie with
          | up => exact Or.inr (Option.some.inj h).symm
          | even => exact Or.inr (Option.some.inj h).symm
      rcases hd with rfl | rfl
      · exact hbelow
      · exact habove

theorem readsBack_of_nearestOnGrid {tie : Tie} {rank digits : Nat} {d : Decimal}
    (h : nearestOnGrid tie rank digits = some d) : readsBack rank d = true :=
  fits_of_nearer h

/-- The decimal that is written for a magnitude is one that rounds to it. -/
theorem nearestRank_shortest (tie : Tie) {rank : Nat} (h : rank < rankBound) :
    nearestRank (shortest tie rank).num (shortest tie rank).den = rank := by
  unfold shortest
  cases hfind : (List.range 17).findSome? fun n => nearestOnGrid tie rank (n + 1) with
  | none => exact nearestRank_exactDecimal rank
  | some d =>
    obtain ⟨n, -, hn⟩ := List.exists_of_findSome?_eq_some hfind
    exact (readsBack_iff h).mp (readsBack_of_nearestOnGrid hn)

end Directive.Binary64
