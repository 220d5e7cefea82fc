/-!
# Numbers in binary64

A number of the 64-bit binary format is a signed magnitude.  The finite magnitudes are numbered in
increasing order from zero: the number of a magnitude, its *rank*, is the 63 low bits of its
encoding.  Every finite magnitude is a natural multiple of `2 ^ -1074`, and `units` says which, so
exact values are natural numbers and rounding is a division.  There is one not-a-number.

`ofRatio` rounds a fraction to the nearest magnitude, to the even rank when two are equally near;
what lies beyond the last rank is infinite.  `key?` is the order: zeros of both signs have the same
key, and a not-a-number has none.
-/

namespace Directive

/-- Powers are those of the core library, whatever else is in scope. -/
local instance powNat : Pow Nat Nat :=
  instPowNat

/-- The number of finite magnitudes. -/
abbrev Binary64.rankBound : Nat := 2047 * 2 ^ (52 : Nat)

/-- A number of the 64-bit binary format, with a single not-a-number. -/
inductive Binary64 where
  | nan
  | infinite (negative : Bool)
  | finite (negative : Bool) (rank : Fin Binary64.rankBound)
deriving DecidableEq

namespace Binary64

/-- The positive zero. -/
def zero : Binary64 :=
  .finite false ⟨0, by decide⟩

instance : Inhabited Binary64 := ⟨zero⟩

/-! ### Exact values -/

/-- The value of the magnitude with this rank, counted in units of `2 ^ -1074`. -/
def units (rank : Nat) : Nat :=
  if rank < 2 ^ (53 : Nat) then rank
  else (2 ^ (52 : Nat) + rank % 2 ^ (52 : Nat)) * 2 ^ (rank / 2 ^ (52 : Nat) - 1)

/-- The fraction `num / den` rounded to a natural number, a half to the even neighbour. -/
def roundHalfEven (num den : Nat) : Nat :=
  let q := num / den
  let r := num % den
  if 2 * r < den then q else if den < 2 * r then q + 1 else q + q % 2

/-- The rank of the magnitude nearest to `num / den`, as if ranks went on without bound. -/
def nearestRank (num den : Nat) : Nat :=
  let scaled := num * 2 ^ (1074 : Nat)
  let shift := Nat.log2 (scaled / den) - 52
  shift * 2 ^ (52 : Nat) + roundHalfEven scaled (den * 2 ^ shift)

/-- The magnitude with this rank, infinite beyond the last. -/
def ofRank (negative : Bool) (rank : Nat) : Binary64 :=
  if h : rank < rankBound then .finite negative ⟨rank, h⟩ else .infinite negative

/-- The number nearest to the fraction `num / den`, with the given sign. -/
def ofRatio (negative : Bool) (num den : Nat) : Binary64 :=
  ofRank negative (nearestRank num den)

/-- The number nearest to an integer. -/
def ofInt (i : Int) : Binary64 :=
  ofRatio (decide (i < 0)) i.natAbs 1

/-! ### Order -/

/-- The place of a number in the order of numbers; the two zeros share one. -/
def key? : Binary64 → Option Int
  | .nan => none
  | .infinite false => some rankBound
  | .infinite true => some (-rankBound)
  | .finite false rank => some rank.val
  | .finite true rank => some (-rank.val)

/-- Whether two numbers are equal as numbers: the zeros are, a not-a-number equals nothing. -/
def equals (x y : Binary64) : Bool :=
  match x.key?, y.key? with
  | some a, some b => a == b
  | _, _ => false

/-- Whether `x` is at most `y`; never with a not-a-number on either side. -/
def le (x y : Binary64) : Bool :=
  match x.key?, y.key? with
  | some a, some b => decide (a ≤ b)
  | _, _ => false

/-- Whether `x` is less than `y`; never with a not-a-number on either side. -/
def lt (x y : Binary64) : Bool :=
  match x.key?, y.key? with
  | some a, some b => decide (a < b)
  | _, _ => false

/-! ### Encoding -/

/-- The 64 bits of a number: the sign, then the rank. -/
def toBits : Binary64 → Nat
  | .nan => 0x7FF8000000000000
  | .infinite negative => (if negative then 2 ^ (63 : Nat) else 0) + rankBound
  | .finite negative rank => (if negative then 2 ^ (63 : Nat) else 0) + rank.val

/-- The number with these 64 bits. -/
def ofBits (bits : Nat) : Binary64 :=
  let negative := decide (2 ^ (63 : Nat) ≤ bits)
  let rank := bits % 2 ^ (63 : Nat)
  if rankBound < rank then .nan else ofRank negative rank

end Binary64

end Directive
