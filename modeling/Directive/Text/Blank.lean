/-!
# Blank characters and the measure of a text

A text is handled as the list of its characters.  `isBlank` is the Unicode property `White_Space`,
`trim` removes blanks at both ends and keeps those inside, and `size` is the length of the text in
UTF-8 bytes, the unit in which all positions of this library are given.
-/

namespace Directive.Text

/-! ### White space -/

/-- The characters with the Unicode property `White_Space`. -/
def isBlank (c : Char) : Bool :=
  let n := c.toNat
  (9 ≤ n && n ≤ 13) || n == 0x20 || n == 0x85 || n == 0xA0 || n == 0x1680 ||
    (0x2000 ≤ n && n ≤ 0x200A) || n == 0x2028 || n == 0x2029 || n == 0x202F || n == 0x205F ||
    n == 0x3000

/-- The text without the blanks at its end. -/
def trimEnd (cs : List Char) : List Char :=
  (cs.reverse.dropWhile isBlank).reverse

/-- The text without the blanks at its two ends. -/
def trim (cs : List Char) : List Char :=
  trimEnd (cs.dropWhile isBlank)

/-! ### Positions -/

/-- Sums start from the zero of the core library, whatever else is in scope. -/
local instance zeroNat : Zero Nat :=
  ⟨0⟩

/-- The length of a text in UTF-8 bytes. -/
def size (cs : List Char) : Nat :=
  (cs.map Char.utf8Size).sum

/-- The characters that start before byte `n` of the text. -/
def takeBytes : Nat → List Char → List Char
  | _, [] => []
  | n, c :: cs => if n = 0 then [] else c :: takeBytes (n - c.utf8Size) cs

/-- What `takeBytes` leaves: the characters that start at byte `n` or later. -/
def dropBytes : Nat → List Char → List Char
  | _, [] => []
  | n, c :: cs => if n = 0 then c :: cs else dropBytes (n - c.utf8Size) cs

/-- Cutting a text at a byte loses nothing. -/
theorem takeBytes_append_dropBytes (n : Nat) (cs : List Char) :
    takeBytes n cs ++ dropBytes n cs = cs := by
  induction cs generalizing n with
  | nil => simp [takeBytes, dropBytes]
  | cons c cs ih => by_cases h : n = 0 <;> simp [takeBytes, dropBytes, h, ih]

/-! ### Words -/

/-- Whether the text is `word` when the case of ASCII letters is ignored; `word` is given in
lower case. -/
def isWord (word : String) (cs : List Char) : Bool :=
  cs.map Char.toLower == word.toList

/-- Names are made of the letters `a` to `z` and the underscore. -/
def isNameChar (c : Char) : Bool :=
  ('a' ≤ c && c ≤ 'z') || c == '_'

/-- A name is a non-empty run of name characters. -/
def isName (name : String) : Bool :=
  !name.toList.isEmpty && name.toList.all isNameChar

/-- The two quote characters. -/
def isQuote (c : Char) : Bool :=
  c == '"' || c == '\''

end Directive.Text
