import Directive.Number.Decimal

/-!
# The fewest digits that read back

`Binary64.shortest` chooses, for a finite magnitude other than zero, a decimal with as few digits
as possible among those that read back as the same magnitude, and among these the nearest to the
exact value.  For `n = 1, 2, ...` the two neighbours of the value on the grid of `n`-digit decimals
are tried; a `Tie` decides when both read back and are equally near.  Seventeen digits always
suffice, and the exact expansion, which stands last, reads back in any case.
-/

namespace Directive

attribute [local instance] powNat

/-- Which of two equally near decimals is taken. -/
inductive Tie where
  | up
  | even
deriving DecidableEq, Repr

/-- The number of decimal digits of a natural number; zero has one. -/
def Decimal.digitCount (n : Nat) : Nat :=
  (Nat.toDigits 10 n).length

namespace Binary64

/-- The least `p` with value below `10 ^ p`, for the magnitude of this rank, which is not zero.
The factor `10 ^ 330` lifts the least magnitude above one. -/
def order (rank : Nat) : Int :=
  Decimal.digitCount (units rank * 10 ^ (330 : Nat) / 2 ^ (1074 : Nat)) - 330

/-- Whether a decimal rounds to the magnitude of this rank. -/
def readsBack (rank : Nat) (d : Decimal) : Bool :=
  d.toBinary64 false == ofRank false rank

/-- The exact value of a magnitude as a decimal. -/
def exactDecimal (rank : Nat) : Decimal :=
  ⟨units rank * 5 ^ (1074 : Nat), -1074⟩

/-- Of two neighbours on a grid the one that fits, the nearer if both do.  The number lies between
them, `twice / 2` parts of `whole` above the lower one. -/
def nearer (tie : Tie) (fits : Decimal → Bool) (twice whole : Nat) (below above : Decimal) :
    Option Decimal :=
  match fits below, fits above with
  | false, false => none
  | true, false => some below
  | false, true => some above
  | true, true =>
    if twice < whole then some below
    else if whole < twice then some above
    else
      match tie with
      | .up => some above
      | .even => some (if below.coefficient % 2 = 0 then below else above)

/-- The decimal with `digits` digits that is nearest to the magnitude of this rank among the two
neighbours that read back, if one does. -/
def nearestOnGrid (tie : Tie) (rank digits : Nat) : Option Decimal :=
  let exponent := order rank - digits
  let num := units rank * 10 ^ (-exponent).toNat
  let den := 2 ^ (1074 : Nat) * 10 ^ exponent.toNat
  nearer tie (readsBack rank) (2 * (num % den)) den ⟨num / den, exponent⟩
    ⟨num / den + 1, exponent⟩

/-- The decimal with the fewest digits that reads back as the magnitude of this rank. -/
def shortest (tie : Tie) (rank : Nat) : Decimal :=
  ((List.range 17).findSome? fun n => nearestOnGrid tie rank (n + 1)).getD (exactDecimal rank)

end Binary64

end Directive
