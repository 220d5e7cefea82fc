import Directive.Toml.Text
import Directive.Toml.Value

/-!
# TOML values without quotes

What is written without quotes is read as a whole: truth values, integers in four bases, floats,
and dates and times.  Underscores stand only between digits, and only zero begins with a zero.  A
number may be too great for any use: an integer is read as it is, and a float that is too great for
the binary format and not written as infinity is an overflow.
-/

namespace Directive.Toml

/-! ### Numbers -/

/-- The digits without the underscores between them; `after` if a digit stands before. -/
def ungroup? (isDigit : Char → Bool) (after : Bool) : List Char → Option (List Char)
  | [] => if after then some [] else none
  | c :: cs =>
    if isDigit c then (c :: ·) <$> ungroup? isDigit true cs
    else if c = '_' && after then ungroup? isDigit false cs
    else none

/-- Decimal digits that do not begin with a zero unless that is all. -/
def wholeDigits? (cs : List Char) : Option (List Char) := do
  let ds ← ungroup? Char.isDigit false cs
  if ds.head? == some '0' && ds.length != 1 then none else some ds

/-- The sign of a number and what follows it. -/
def splitSign : List Char → Bool × List Char
  | '-' :: cs => (true, cs)
  | '+' :: cs => (false, cs)
  | cs => (false, cs)

/-- The number that digits write in a base. -/
def ofBase? (base : Nat) (cs : List Char) : Option Nat := do
  let isDigit := fun c => (hexValue? c).any (· < base)
  let ds ← ungroup? isDigit false cs
  return ds.foldl (fun n c => base * n + (hexValue? c).getD 0) 0

/-- Reads an integer. -/
def integer? : List Char → Option Int
  | '0' :: 'x' :: ds => Int.ofNat <$> ofBase? 16 ds
  | '0' :: 'o' :: ds => Int.ofNat <$> ofBase? 8 ds
  | '0' :: 'b' :: ds => Int.ofNat <$> ofBase? 2 ds
  | cs => do
    let (negative, ds) := splitSign cs
    let n : Int := Decimal.ofDigits (← wholeDigits? ds)
    return if negative then -n else n

/-- Whether a character belongs to a group of decimal digits. -/
def isGroupChar (c : Char) : Bool :=
  c.isDigit || c == '_'

/-- Reads the exponent of a float; nothing written is zero. -/
def exponent? : List Char → Option Int
  | [] => some 0
  | c :: cs =>
    if c = 'e' || c = 'E' then do
      let (negative, ds) := splitSign cs
      let n : Int := Decimal.ofDigits (← ungroup? Char.isDigit false ds)
      some (if negative then -n else n)
    else none

/-- Reads a float. -/
def float? (cs : List Char) : Option Value := do
  let (negative, cs) := splitSign cs
  if cs == "inf".toList then return .float (.infinite negative)
  if cs == "nan".toList then return .float .nan
  let whole ← wholeDigits? (cs.takeWhile isGroupChar)
  let rest := cs.dropWhile isGroupChar
  let (fraction, rest) ←
    match rest with
    | '.' :: rest =>
      (·, rest.dropWhile isGroupChar) <$> ungroup? Char.isDigit false (rest.takeWhile isGroupChar)
    | _ => some ([], rest)
  if fraction.isEmpty && rest.isEmpty then none
  else
    let exponent ← exponent? rest
    let d : Decimal := ⟨Decimal.ofDigits (whole ++ fraction), exponent - fraction.length⟩
    match d.toBinary64 negative with
    | .infinite _ => some .overflow
    | x => some (.float x)

/-! ### Scalars -/

/-- Whether a character may stand in a value that is written without quotes. -/
def isScalarChar (c : Char) : Bool :=
  !isSpaceOrBreak c && !"#,[]\x7b\x7d=\"'".toList.contains c

/-- The value written by characters without quotes. -/
def scalarOfText? (cs : List Char) : Option Value :=
  if cs == "true".toList then some (.boolean true)
  else if cs == "false".toList then some (.boolean false)
  else
    (Value.integer <$> integer? cs).or <|
      (float? cs).or (Value.datetime <$> Datetime.ofText? cs)

/-- Reads a value that is written without quotes.  A time behind a space belongs to the date before
it. -/
def scalar? (cs : List Char) : Option (Value × List Char) :=
  let first := cs.takeWhile isScalarChar
  let rest := cs.dropWhile isScalarChar
  let gap := rest.takeWhile isSpace
  let second := (rest.dropWhile isSpace).takeWhile isScalarChar
  if !gap.isEmpty && second.contains ':' then
    (·, (rest.dropWhile isSpace).dropWhile isScalarChar) <$> scalarOfText? (first ++ gap ++ second)
  else (·, rest) <$> scalarOfText? first

end Directive.Toml
