/-!
# TOML text: blanks, comments, strings and keys

Each reader takes the characters of a document and yields what it has read and the rest, or nothing
if the document is malformed there.  Control characters other than the tab stand nowhere but in
line ends, and a carriage return stands only before a line feed.
-/

namespace Directive.Toml

/-! ### Blanks and comments -/

/-- Whether a character is a space or a tab. -/
def isSpace (c : Char) : Bool :=
  c == ' ' || c == '\t'

/-- Whether a character may stand in comments and strings as it is. -/
def isPlain (c : Char) : Bool :=
  c == '\t' || (0x20 ≤ c.toNat && c.toNat != 0x7F)

/-- The text without the spaces it begins with. -/
def skipSpace (cs : List Char) : List Char :=
  cs.dropWhile isSpace

/-- The text behind a character it has to begin with. -/
def after? (c : Char) : List Char → Option (List Char)
  | d :: cs => if d = c then some cs else none
  | [] => none

/-- The text behind a line end. -/
def newline? : List Char → Option (List Char)
  | '\n' :: cs => some cs
  | '\r' :: '\n' :: cs => some cs
  | _ => none

/-- The line end, or the end of the document, that closes a comment. -/
def afterComment? : List Char → Option (List Char)
  | [] => some []
  | c :: cs =>
    if c = '\n' || (c = '\r' && cs.head? == some '\n') then some (c :: cs)
    else if isPlain c then afterComment? cs
    else none

/-- The text behind the end of a line on which nothing but a comment may follow. -/
def endLine? (cs : List Char) : Option (List Char) := do
  let rest ←
    match skipSpace cs with
    | '#' :: rest => afterComment? rest
    | rest => some rest
  if rest.isEmpty then some [] else newline? rest

/-- The text behind spaces, line ends and comments; `comment` if it begins inside a comment. -/
def skipLines? (comment : Bool) : List Char → Option (List Char)
  | [] => some []
  | c :: cs =>
    if c = '\n' then skipLines? false cs
    else if c = '\r' then if cs.head? == some '\n' then skipLines? comment cs else none
    else if comment then if isPlain c then skipLines? true cs else none
    else if c = '#' then skipLines? true cs
    else if isSpace c then skipLines? false cs
    else some (c :: cs)

/-! ### Strings -/

/-- The value of a hexadecimal digit. -/
def hexValue? (c : Char) : Option Nat :=
  if c.isDigit then some (c.toNat - '0'.toNat)
  else if 'a' ≤ c && c ≤ 'f' then some (c.toNat - 'a'.toNat + 10)
  else if 'A' ≤ c && c ≤ 'F' then some (c.toNat - 'A'.toNat + 10)
  else none

/-- The character with a code point, if there is one. -/
def charOfCode? (n : Nat) : Option Char :=
  if n.isValidChar then some (Char.ofNat n) else none

/-- Whether a character may stand as it is in a string, with `rest` behind it; a string of several
lines keeps its line ends. -/
def isStringChar (multi : Bool) (c : Char) (rest : List Char) : Bool :=
  isPlain c || multi && (c == '\n' || c == '\r' && rest.head? == some '\n')

/-- Puts a character in front of the text that was read. -/
def prepend (c : Char) (read : List Char × List Char) : List Char × List Char :=
  (c :: read.1, read.2)

/-- What closes a string of several lines when a quote `q` has been met and `cs` follows: the
quotes that still belong to the string, at most two, and the rest behind the last of three. -/
def closing? (q : Char) (cs : List Char) : Option (List Char × List Char) :=
  let more := min 4 (cs.takeWhile (· == q)).length
  if more < 2 then none else some (List.replicate (more - 2) q, cs.drop more)

/-- Where the reading of a string with escapes stands. -/
inductive StringState where
  | plain
  /-- After a backslash. -/
  | escaped
  /-- Before `left + 1` more digits of a code point that begins with the digits of `code`. -/
  | digits (left code : Nat)
  /-- After a backslash at the end of a line; `broken` once the line has ended. -/
  | joining (broken : Bool)
deriving DecidableEq

/-- The character that an escape of one letter stands for. -/
def escape? : Char → Option Char
  | 'b' => some '\x08'
  | 't' => some '\t'
  | 'n' => some '\n'
  | 'f' => some '\x0c'
  | 'r' => some '\r'
  | 'e' => some '\x1b'
  | '"' => some '"'
  | '\\' => some '\\'
  | _ => none

/-- The number of digits of a code point after its letter, less one. -/
def codeDigits? : Char → Option Nat
  | 'x' => some 1
  | 'u' => some 3
  | 'U' => some 7
  | _ => none

/-- Whether a character is white space, line ends included. -/
def isSpaceOrBreak (c : Char) : Bool :=
  isSpace c || c == '\n' || c == '\r'

/-- The state after the white space `c` behind a backslash: joining goes on while white space
follows, and must have met the end of a line. -/
def joined? (broken : Bool) (c : Char) (rest : List Char) : Option StringState :=
  let broken := broken || c == '\n'
  if c == '\r' && rest.head? != some '\n' then none
  else if rest.head?.any isSpaceOrBreak then some (.joining broken)
  else if broken then some .plain
  else none

/-- Reads a string with escapes, behind its opening quotes, to its closing ones. -/
def basicString? (multi : Bool) : StringState → List Char → Option (List Char × List Char)
  | _, [] => none
  | .plain, c :: cs =>
    if c = '"' then
      if multi then
        match closing? '"' cs with
        | some closed => some closed
        | none => prepend c <$> basicString? multi .plain cs
      else some ([], cs)
    else if c = '\\' then basicString? multi .escaped cs
    else if isStringChar multi c cs then prepend c <$> basicString? multi .plain cs
    else none
  | .escaped, c :: cs =>
    match escape? c, codeDigits? c with
    | some d, _ => prepend d <$> basicString? multi .plain cs
    | none, some left => basicString? multi (.digits left 0) cs
    | none, none =>
      if multi && isSpaceOrBreak c then do
        basicString? multi (← joined? false c cs) cs
      else none
  | .digits left code, c :: cs => do
    let code := 16 * code + (← hexValue? c)
    match left with
    | 0 => prepend (← charOfCode? code) <$> basicString? multi .plain cs
    | left + 1 => basicString? multi (.digits left code) cs
  | .joining broken, c :: cs => do
    basicString? multi (← joined? broken c cs) cs

/-- Reads a string without escapes, behind its opening quotes, to its closing ones. -/
def literalString? (multi : Bool) : List Char → Option (List Char × List Char)
  | [] => none
  | c :: cs =>
    if c = '\'' then
      if multi then
        match closing? '\'' cs with
        | some closed => some closed
        | none => prepend c <$> literalString? multi cs
      else some ([], cs)
    else if isStringChar multi c cs then prepend c <$> literalString? multi cs
    else none

/-- The text behind a line end, if it begins with one. -/
def skipNewline (cs : List Char) : List Char :=
  (newline? cs).getD cs

/-- Reads a string on one line. -/
def lineString? : List Char → Option (List Char × List Char)
  | '"' :: cs => basicString? false .plain cs
  | '\'' :: cs => literalString? false cs
  | _ => none

/-- Reads a string of either kind, on one line or several. -/
def string? : List Char → Option (List Char × List Char)
  | '"' :: '"' :: '"' :: cs => basicString? true .plain (skipNewline cs)
  | '\'' :: '\'' :: '\'' :: cs => literalString? true (skipNewline cs)
  | cs => lineString? cs

/-! ### Keys -/

/-- Whether a character may stand in a key without quotes. -/
def isKeyChar (c : Char) : Bool :=
  c.isAlphanum || c == '_' || c == '-'

/-- Reads one part of a key. -/
def keyPart? (cs : List Char) : Option (List Char × List Char) :=
  if cs.head?.any (fun c => c == '"' || c == '\'') then lineString? cs
  else
    let part := cs.takeWhile isKeyChar
    if part.isEmpty then none else some (part, cs.dropWhile isKeyChar)

/-- The greatest number of parts of a key. -/
def maxKeyParts : Nat := 80

/-- Reads at most `parts` parts of a key with dots between them, and the spaces behind them. -/
def keyParts? : (parts : Nat) → List Char → Option (List String × List Char)
  | 0, _ => none
  | parts + 1, cs => do
    let (part, rest) ← keyPart? (skipSpace cs)
    match skipSpace rest with
    | '.' :: rest =>
      let (more, rest) ← keyParts? parts rest
      some (String.ofList part :: more, rest)
    | rest => some ([String.ofList part], rest)

/-- Reads a key and the spaces behind it. -/
def key? (cs : List Char) : Option (List String × List Char) :=
  keyParts? maxKeyParts cs

end Directive.Toml
