import Directive.Text.Unprintable

/-!
# Text in listings

A text in a listing stands between double quotes, where every character is visible: what has no
shape of its own is written as an escape.  Columns are as wide as a number of characters says.
-/

namespace Directive.Text

/-! ### Columns -/

/-- The text with blanks behind it, as wide as `width`; a wider text stays as it is. -/
def padEnd (width : Nat) (cs : List Char) : List Char :=
  cs ++ List.replicate (width - cs.length) ' '

/-- The text with blanks in front of it, as wide as `width`; a wider text stays as it is. -/
def padStart (width : Nat) (cs : List Char) : List Char :=
  List.replicate (width - cs.length) ' ' ++ cs

/-! ### Quoted text -/

/-- A character as it stands between double quotes. -/
def showChar (c : Char) : List Char :=
  if c = '\x00' then ['\\', '0']
  else if c = '\t' then ['\\', 't']
  else if c = '\n' then ['\\', 'n']
  else if c = '\r' then ['\\', 'r']
  else if c = '"' then ['\\', '"']
  else if c = '\\' then ['\\', '\\']
  else if isUnprintable c then '\\' :: 'u' :: '{' :: (Nat.toDigits 16 c.toNat ++ ['}'])
  else [c]

/-- A text between double quotes with every character visible. -/
def showQuoted (cs : List Char) : List Char :=
  '"' :: (cs.flatMap showChar ++ ['"'])

end Directive.Text
