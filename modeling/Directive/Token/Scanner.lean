import Directive.Command
import Directive.Diagnostic.Report
import Directive.Token.Basic
import Directive.Token.Fault
import Directive.Value.Coercion

/-!
# The scanner

The scanner goes through a directive character by character.  Its state says in which part of the
directive it is and which characters of the current token it has read; `Scanner.step` consumes one
character, and `Scanner.finish` tells what is to be done when the text ends.

Inside a parameter value the scanner keeps the brackets that are open and whether an element is
about to begin.  A quote at the beginning of an element protects everything up to the matching
quote; outside brackets and quotes, a comma or a closing brace ends the value.  Blanks at the end
of a value do not belong to it.

A text that ends early is no fault of the scanner: the tokens simply end there.  Only an open quote
or an open list cannot be left.
-/

namespace Directive

/-! ### States -/

/-- Whether the whole text has to be one directive or only begins with one. -/
inductive Extent where
  | whole
  | leading
deriving DecidableEq, Repr

/-- Where the scanner stands inside a parameter value. -/
structure ValueState where
  /-- The offset of the first character of the value. -/
  start : Nat
  /-- The characters of the value so far, the latest first. -/
  read : List Char
  /-- The offsets of the brackets that are open, the innermost first. -/
  opened : List Nat
  /-- Whether an element is about to begin. -/
  fresh : Bool
  /-- The quote that has to be met first, and the offset of the one that opened the span. -/
  quote : Option (Char × Nat)
deriving DecidableEq, Repr

namespace ValueState

/-- The state before the first character of a value. -/
def initial (start : Nat) : ValueState :=
  ⟨start, [], [], true, none⟩

/-- Whether the character ends the value. -/
def ends (v : ValueState) (c : Char) : Bool :=
  v.quote.isNone && v.opened.isEmpty && (c == ',' || c == '}')

/-- Whether the character opens a list one level too deep. -/
def overflows (v : ValueState) (c : Char) : Bool :=
  v.quote.isNone && c == '[' && v.opened.length == maxListDepth

/-- The state after a character at offset `pos` that neither ends the value nor nests too deep. -/
def next (v : ValueState) (pos : Nat) (c : Char) : ValueState :=
  let v := { v with read := c :: v.read }
  match v.quote with
  | some (q, from_) => { v with quote := if c = q then none else some (q, from_) }
  | none =>
    if v.fresh && Text.isQuote c then { v with fresh := false, quote := some (c, pos) }
    else if c = '[' then { v with opened := pos :: v.opened, fresh := true }
    else if c = ']' && !v.opened.isEmpty then { v with opened := v.opened.drop 1, fresh := false }
    else if c = ',' then { v with fresh := true }
    else if Text.isBlank c then v
    else { v with fresh := false }

/-- The characters of the value so far, without blanks at the end. -/
def chars (v : ValueState) : List Char :=
  Text.trimEnd v.read.reverse

end ValueState

/-- The part of the directive the scanner is in.  Names carry the offset of their first character
and the characters read so far, the latest first. -/
inductive Part where
  | family (start : Nat) (read : List Char)
  | function (start : Nat) (read : List Char)
  /-- After the function name, which ends at `ended`. -/
  | gap (ended : Nat)
  /-- Before a parameter name; `first` if the block has just been opened. -/
  | entry (first : Bool)
  | name (start : Nat) (read : List Char)
  /-- After a parameter name. -/
  | equals
  /-- After the equals sign. -/
  | beforeValue
  | value (v : ValueState)
  /-- After the closing brace. -/
  | closed
deriving DecidableEq, Repr

/-- What scanning yields: the tokens that were read, and either the number of bytes the directive
spans or the fault that stopped the scanner. -/
structure Scan where
  tokens : List Token
  outcome : Except ScanFault Nat

/-- The state of the scanner. -/
structure Scanner where
  /-- The tokens read so far, the latest first. -/
  tokens : List Token
  /-- The offset of the next character. -/
  pos : Nat
  part : Part
deriving DecidableEq, Repr

/-- What a character leads to. -/
inductive Step where
  | next (s : Scanner)
  | stop (result : Scan)

namespace Scanner

/-! ### Moves -/

/-- Records a token. -/
def emit (s : Scanner) (kind : TokenKind) (start : Nat) (cs : List Char) : Scanner :=
  { s with tokens := Token.ofChars kind start cs :: s.tokens }

/-- Passes a character and goes on in the given part. -/
def pass (s : Scanner) (c : Char) (part : Part) : Step :=
  .next { s with pos := s.pos + c.utf8Size, part := part }

/-- Records the character as a token of its own and goes on in the given part. -/
def punctuate (s : Scanner) (kind : TokenKind) (c : Char) (part : Part) : Step :=
  (s.emit kind s.pos [c]).pass c part

/-- Stops at a fault. -/
def fail (s : Scanner) (fault : ScanFault) : Scan :=
  ⟨s.tokens.reverse, .error fault⟩

/-- Stops at the character, which is not what was expected. -/
def reject (s : Scanner) (c : Char) (expected : Expectation) : Step :=
  .stop (s.fail (.unexpected expected (Span.ofSize s.pos c.utf8Size)))

/-- Stops with success; the directive spans `consumed` bytes. -/
def accept (s : Scanner) (consumed : Nat) : Scan :=
  ⟨s.tokens.reverse, .ok consumed⟩

/-! ### Steps -/

/-- A character after the function name, which ended at `ended`. -/
def afterFunction (extent : Extent) (s : Scanner) (ended : Nat) (c : Char) : Step :=
  if Text.isBlank c then s.pass c (.gap ended)
  else if c = '{' then s.punctuate .paramOpen c (.entry true)
  else
    match extent with
    | .whole => s.reject c .blockOrEnd
    | .leading => .stop (s.accept ended)

/-- A character after a parameter name. -/
def afterName (s : Scanner) (c : Char) : Step :=
  if Text.isBlank c then s.pass c .equals
  else if c = '=' then s.punctuate .paramEquals c .beforeValue
  else s.reject c .equals

/-- The brace that closes the block. -/
def close (extent : Extent) (s : Scanner) (c : Char) : Step :=
  let s := s.emit .paramClose s.pos [c]
  match extent with
  | .whole => s.pass c .closed
  | .leading => .stop (s.accept (s.pos + c.utf8Size))

/-- A character before a parameter name. -/
def beforeName (extent : Extent) (s : Scanner) (first : Bool) (c : Char) : Step :=
  if Text.isBlank c then s.pass c (.entry first)
  else if Text.isNameChar c then s.pass c (.name s.pos [c])
  else if first && c == '}' then close extent s c
  else s.reject c (if first then .nameOrClose else .name)

/-- A character inside a parameter value. -/
def inValue (extent : Extent) (s : Scanner) (v : ValueState) (c : Char) : Step :=
  if v.ends c then
    let s := s.emit .paramValue v.start v.chars
    if c = ',' then s.punctuate .paramSeparator c (.entry false) else close extent s c
  else if v.overflows c then .stop (s.fail (.nestingTooDeep (Span.ofSize s.pos c.utf8Size)))
  else s.pass c (.value (v.next s.pos c))

/-- One character. -/
def step (extent : Extent) (s : Scanner) (c : Char) : Step :=
  match s.part with
  | .family start read =>
    if Text.isNameChar c then s.pass c (.family start (c :: read))
    else if read.isEmpty then s.reject c .family
    else
      let s := s.emit .familyName start read.reverse
      if c = '.' then s.punctuate .separator c (.function (s.pos + c.utf8Size) [])
      else s.reject c .separator
  | .function start read =>
    if Text.isNameChar c then s.pass c (.function start (c :: read))
    else if read.isEmpty then s.reject c .function
    else afterFunction extent (s.emit .functionName start read.reverse) s.pos c
  | .gap ended => afterFunction extent s ended c
  | .entry first => beforeName extent s first c
  | .name start read =>
    if Text.isNameChar c then s.pass c (.name start (c :: read))
    else afterName (s.emit .paramName start read.reverse) c
  | .equals => afterName s c
  | .beforeValue =>
    if Text.isBlank c then s.pass c .beforeValue
    else if c = ',' || c = '}' then s.reject c .value
    else inValue extent s (.initial s.pos) c
  | .value v => inValue extent s v c
  | .closed => if Text.isBlank c then s.pass c .closed else s.reject c .ending

/-- Records a name if there is one. -/
def emitName (s : Scanner) (kind : TokenKind) (start : Nat) (read : List Char) : Scanner :=
  if read.isEmpty then s else s.emit kind start read.reverse

/-- The end of the text. -/
def finish (extent : Extent) (s : Scanner) : Scan :=
  match s.part with
  | .family start read => (s.emitName .familyName start read).accept s.pos
  | .function start read => (s.emitName .functionName start read).accept s.pos
  | .gap ended => s.accept (match extent with | .whole => s.pos | .leading => ended)
  | .name start read => (s.emitName .paramName start read).accept s.pos
  | .value v =>
    match v.quote, v.opened.getLast? with
    | some (q, start), _ => s.fail (.openQuote q (Span.ofBounds start s.pos))
    | none, some opened => s.fail (.openList opened s.pos)
    | none, none => (s.emit .paramValue v.start v.chars).accept s.pos
  | _ => s.accept s.pos

/-- The rest of the text. -/
def run (extent : Extent) (s : Scanner) : List Char → Scan
  | [] => finish extent s
  | c :: cs =>
    match step extent s c with
    | .next s => run extent s cs
    | .stop result => result

end Scanner

/-! ### Scanning texts -/

/-- The text behind the mark that begins every directive. -/
def afterMark? : List Char → Option (List Char)
  | '.' :: 'p' :: '/' :: cs => some cs
  | _ => none

namespace Scan

/-- Scans a text. -/
def ofChars (extent : Extent) (cs : List Char) : Scan :=
  match afterMark? cs with
  | some rest => Scanner.run extent ⟨[Token.ofChars .mark 0 mark.toList], 3, .family 3 []⟩ rest
  | none => ⟨[], .error (.unexpected .mark (Span.ofSize 0 (Text.size (cs.take 1))))⟩

/-- The stream of a scan that met no fault, closed by an end token, with the bytes it spans. -/
def stream? (scan : Scan) : Except ScanFault (List Token × Nat) :=
  scan.outcome.map fun consumed => (scan.tokens ++ [Token.ending consumed], consumed)

/-- The stream of a scan of `cs` in any case: what follows a fault is one invalid token. -/
def stream (scan : Scan) (cs : List Char) : List Token :=
  let size := Text.size cs
  match scan.outcome with
  | .ok consumed => scan.tokens ++ [Token.ending consumed]
  | .error fault =>
    let start := min fault.earliest size
    scan.tokens ++ [Token.ofChars .invalid start (Text.dropBytes start cs), Token.ending size]

end Scan

/-- The tokens of a text that is one directive, as far as it goes. -/
def tokenize (text : String) : Except Report (List Token) :=
  match (Scan.ofChars .whole text.toList).stream? with
  | .ok (tokens, _) => .ok tokens
  | .error fault => .error ⟨fault.diagnostic, text⟩

/-- The tokens of any text; what cannot be scanned is one invalid token. -/
def scan (text : String) : List Token :=
  (Scan.ofChars .whole text.toList).stream text.toList

end Directive
