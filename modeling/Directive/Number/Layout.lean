import Directive.Number.Shortest
import Directive.Text.Blank

/-!
# Written numbers

`NumberLayout` records how the digits of a number are set: which scientific exponents are written
positionally, how others are marked, and which of two equally near decimals is taken.
`Binary64.write` sets a number by a layout; a positional number always has a digit behind the
point, so it never looks like an integer.  `Binary64.ofText?` reads the written form back.
-/

namespace Directive

/-- How the digits of a number are set. -/
structure NumberLayout where
  /-- The least scientific exponent of a number written positionally. -/
  leastPositional : Int
  /-- The greatest scientific exponent of a number written positionally. -/
  greatestPositional : Int
  /-- What stands between the exponent mark and an exponent that is not negative. -/
  plus : String
  tie : Tie

namespace NumberLayout

/-- In directives numbers from `1e-4` up to, and not including, `1e16` are positional, and an
exponent has a sign only when it is negative. -/
def directive : NumberLayout :=
  ⟨-4, 15, "", .up⟩

/-- In JSON numbers from `1e-5` up to, and not including, `1e16` are positional, and an exponent
always has a sign. -/
def json : NumberLayout :=
  ⟨-5, 15, "+", .even⟩

/-- Sets the digits `ds`, the first of which has the weight `10 ^ exponent`. -/
def set (layout : NumberLayout) (ds : List Char) (exponent : Int) : List Char :=
  if layout.leastPositional ≤ exponent && exponent ≤ layout.greatestPositional then
    if exponent < 0 then
      '0' :: '.' :: (List.replicate (-exponent - 1).toNat '0' ++ ds)
    else
      let whole := exponent.toNat + 1
      let padded := ds ++ List.replicate (whole + 1 - ds.length) '0'
      padded.take whole ++ '.' :: padded.drop whole
  else
    let mark := if exponent < 0 then "e-" else "e" ++ layout.plus
    let fraction := if ds.length ≤ 1 then [] else '.' :: ds.drop 1
    ds.take 1 ++ fraction ++ mark.toList ++ Nat.toDigits 10 exponent.natAbs

end NumberLayout

namespace Decimal

/-- The digits of a decimal without the zeros at their end. -/
def significantDigits (d : Decimal) : List Char :=
  let trimmed := ((Nat.toDigits 10 d.coefficient).reverse.dropWhile (· == '0')).reverse
  if trimmed.isEmpty then ['0'] else trimmed

/-- The weight of the first digit, as a power of ten. -/
def leadingExponent (d : Decimal) : Int :=
  d.exponent + digitCount d.coefficient - 1

end Decimal

namespace Binary64

/-- The written form of a magnitude. -/
def writeRank (layout : NumberLayout) (rank : Nat) : List Char :=
  if rank = 0 then ['0', '.', '0']
  else
    let d := shortest layout.tie rank
    layout.set d.significantDigits d.leadingExponent

/-- The written form of a number. -/
def write (layout : NumberLayout) : Binary64 → List Char
  | .nan => "NaN".toList
  | .infinite negative => (if negative then ['-'] else []) ++ "inf".toList
  | .finite negative rank => (if negative then ['-'] else []) ++ writeRank layout rank.val

/-- Reads a number without a sign in front, giving it the stated sign. -/
def ofUnsignedText? (negative : Bool) (cs : List Char) : Option Binary64 :=
  if Text.isWord "inf" cs || Text.isWord "infinity" cs then some (.infinite negative)
  else if Text.isWord "nan" cs then some .nan
  else (Decimal.ofText? cs).map (Decimal.toBinary64 negative)

/-- Reads a number: an optional sign, then digits or one of the words for infinity and for
not-a-number. -/
def ofText? : List Char → Option Binary64
  | '-' :: cs => ofUnsignedText? true cs
  | '+' :: cs => ofUnsignedText? false cs
  | cs => ofUnsignedText? false cs

end Binary64

end Directive
