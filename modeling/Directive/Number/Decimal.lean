import Directive.Number.Binary64

/-!
# Decimal numbers

A decimal is a natural coefficient times a power of ten.  `Decimal.toBinary64` rounds it to the
nearest number of the binary format; exponents so large or so small that the answer is decided
without looking at the coefficient are answered first, so a long exponent costs nothing.

`Binary64.ofText?` reads the written form of a number: an optional sign, then digits with an
optional point among or beside them and an optional exponent, or one of the words `inf`,
`infinity` and `nan` in any case.
-/

namespace Directive

attribute [local instance] powNat

/-- The number `coefficient * 10 ^ exponent`. -/
structure Decimal where
  coefficient : Nat
  exponent : Int
deriving DecidableEq, Repr

namespace Decimal

/-- The nearest binary number, with the given sign. -/
def toBinary64 (negative : Bool) (d : Decimal) : Binary64 :=
  if d.coefficient = 0 then .ofRank negative 0
  else
    match d.exponent with
    | .ofNat e =>
      -- the greatest finite number is less than `10 ^ 309`
      if 309 ≤ e then .infinite negative else .ofRatio negative (d.coefficient * 10 ^ e) 1
    | .negSucc e =>
      -- less than `2 ^ -1080` when the coefficient has that many bits fewer than `8 ^ (e + 1)`
      if Nat.log2 d.coefficient + 1081 ≤ 3 * (e + 1) then .ofRank negative 0
      else .ofRatio negative d.coefficient (10 ^ (e + 1))

/-! ### Reading -/

/-- The value of a digit. -/
def digitValue (c : Char) : Nat :=
  c.toNat - '0'.toNat

/-- The number written by these digits. -/
def ofDigits (ds : List Char) : Nat :=
  ds.foldl (fun n c => 10 * n + digitValue c) 0

/-- Reads the part after the exponent mark: an optional sign and at least one digit. -/
def exponentOfText? : List Char → Option Int
  | [] => none
  | c :: cs =>
    let negative := c == '-'
    let digits := if c == '-' || c == '+' then cs else c :: cs
    if digits.isEmpty || !digits.all Char.isDigit then none
    else some (if negative then -(ofDigits digits : Int) else ofDigits digits)

/-- Reads digits with an optional point and an optional exponent. -/
def ofText? (cs : List Char) : Option Decimal := do
  let whole := cs.takeWhile Char.isDigit
  let rest := cs.dropWhile Char.isDigit
  let (fraction, rest) :=
    match rest with
    | '.' :: after => (after.takeWhile Char.isDigit, after.dropWhile Char.isDigit)
    | _ => ([], rest)
  if whole.isEmpty && fraction.isEmpty then none
  else
    let exponent ←
      match rest with
      | [] => some 0
      | c :: after => if c == 'e' || c == 'E' then exponentOfText? after else none
    some ⟨ofDigits (whole ++ fraction), exponent - fraction.length⟩

end Decimal

end Directive
