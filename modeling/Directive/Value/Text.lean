import Directive.Value.Basic

/-!
# Canonical text of values

`Value.write` is the one written form that directives use for a value.  A string without delimiters
is written bare when the bare text is read back as that string; any other is put between quotes.
Quoted text knows no escapes, and a quoted span ends at the first matching quote, after which
ordinary text may go on; so a quote character serves when no delimiter follows its first occurrence
in the string.  Where neither quote serves, one is used all the same, and what is written need not
be read back, even if the string could have been written bare.
-/

namespace Directive.Value

/-! ### Strings -/

/-- The characters that end a value or structure a list. -/
def isDelimiter (c : Char) : Bool :=
  c == ',' || c == '}' || c == '[' || c == ']'

/-- The words that stand for something else than themselves when written bare. -/
def isReserved (cs : List Char) : Bool :=
  Text.isWord "true" cs || Text.isWord "false" cs || Text.isWord "null" cs ||
    Text.isWord "none" cs

/-- Whether the string has no delimiters and the bare text is read back as exactly this string. -/
def isBare (cs : List Char) : Bool :=
  !cs.isEmpty && Text.trim cs == cs && !(cs.head?.any Text.isQuote) &&
    !cs.any (fun c => isDelimiter c || c == '{') && !isReserved cs &&
    !(Text.isWord complete cs && cs != complete.toList) && (Binary64.ofText? cs).isNone

/-- Whether the string can be put between two of these quotes: no delimiter follows the first such
quote inside it. -/
def isQuotableWith (quote : Char) (cs : List Char) : Bool :=
  !(cs.dropWhile (· != quote)).any isDelimiter

/-- The quote a string is put between: the first of the two that serves, else the first. -/
def quoteFor (cs : List Char) : Char :=
  if isQuotableWith '"' cs then '"' else if isQuotableWith '\'' cs then '\'' else '"'

/-- A string between two quotes. -/
def quoteWith (quote : Char) (cs : List Char) : List Char :=
  quote :: (cs ++ [quote])

/-- The written form of a string. -/
def writeString (cs : List Char) : List Char :=
  if isBare cs then cs else quoteWith (quoteFor cs) cs

/-! ### Values -/

/-- The written form of an integer. -/
def writeInt (i : Int64) : List Char :=
  let n := i.toInt
  if n < 0 then '-' :: Nat.toDigits 10 n.natAbs else Nat.toDigits 10 n.natAbs

mutual

/-- The written form of a value. -/
def write : Value → List Char
  | .null => "null".toList
  | .boolean true => "true".toList
  | .boolean false => "false".toList
  | .integer i => writeInt i
  | .float x => x.write .directive
  | .string s => writeString s.toList
  | .list items => '[' :: (writeItems items ++ [']'])

/-- The written forms of the items of a list, with a comma and a space between each two. -/
def writeItems : List Value → List Char
  | [] => []
  | [item] => write item
  | item :: item' :: items => write item ++ (',' :: ' ' :: writeItems (item' :: items))

end

/-- The canonical text of a value. -/
def text (v : Value) : String :=
  String.ofList v.write

end Directive.Value
