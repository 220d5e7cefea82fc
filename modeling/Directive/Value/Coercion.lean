import Directive.Value.Basic

/-!
# Values from raw text

`Value.coerce` gives raw parameter text its value by the first rule that fits: quoted text, the
words for truth values and null, the word `complete`, an integer in range, a number, a bracketed
list of elements read in the same way, and otherwise the text itself.  It never fails.  Lists are
read down to `maxListDepth`; deeper brackets stay text.

`elements` splits the inside of a list at its commas.  Commas in inner brackets do not count, nor
do those in a quoted span that begins an element.
-/

namespace Directive

/-- The deepest nesting of lists in a value. -/
def maxListDepth : Nat := 8

namespace Value

/-! ### Quoted text -/

/-- The text between two equal quotes at its ends. -/
def unquote? : List Char → Option (List Char)
  | [] => none
  | q :: cs => if Text.isQuote q && cs.getLast? == some q then some cs.dropLast else none

/-- The text between a bracket that opens it and one that closes it. -/
def unbracket? : List Char → Option (List Char)
  | '[' :: cs => if cs.getLast? == some ']' then some cs.dropLast else none
  | _ => none

/-! ### Integers -/

/-- The integer written by an optional minus and digits, if it has 64 bits. -/
def integerOfText? (cs : List Char) : Option Int64 :=
  let negative := cs.head? == some '-'
  let digits := if negative then cs.drop 1 else cs
  if digits.isEmpty || !digits.all Char.isDigit then none
  else
    let magnitude : Int := Decimal.ofDigits digits
    let n := if negative then -magnitude else magnitude
    if Int64.minValue.toInt ≤ n && n ≤ Int64.maxValue.toInt then some (Int64.ofInt n) else none

/-! ### Elements of a list -/

/-- Where the splitting of a list stands: how many inner brackets are open, whether an element
is about to begin, and which quote, if any, has to be met first. -/
structure ElementState where
  depth : Nat
  fresh : Bool
  quote : Option Char
deriving DecidableEq, Repr

/-- The state at the beginning of a list. -/
def ElementState.start : ElementState :=
  ⟨0, true, none⟩

/-- Whether a comma read in this state separates two elements. -/
def ElementState.splits (s : ElementState) (c : Char) : Bool :=
  s.quote.isNone && c == ',' && s.depth == 0

/-- The state after the character `c`, which `rest` follows.  A quote without a matching one in
the rest is an ordinary character. -/
def ElementState.next (s : ElementState) (c : Char) (rest : List Char) : ElementState :=
  match s.quote with
  | some q => { s with quote := if c = q then none else some q }
  | none =>
    if s.fresh && Text.isQuote c then
      { s with fresh := false, quote := if rest.contains c then some c else none }
    else if c = '[' then { s with depth := s.depth + 1, fresh := true }
    else if c = ']' then { s with depth := s.depth - 1, fresh := false }
    else if c = ',' then { s with fresh := true }
    else if Text.isBlank c then s
    else { s with fresh := false }

/-- Puts a character in front of the first element. -/
def consHead (c : Char) : List (List Char) → List (List Char)
  | [] => [[c]]
  | e :: es => (c :: e) :: es

/-- The elements of the text that follows in state `s`. -/
def elementsFrom (s : ElementState) : List Char → List (List Char)
  | [] => [[]]
  | c :: cs =>
    let rest := elementsFrom (s.next c cs) cs
    if s.splits c then [] :: rest else consHead c rest

/-- The elements of a list, from the text between its brackets. -/
def elements (cs : List Char) : List (List Char) :=
  elementsFrom .start cs

/-! ### Coercion -/

/-- The value of trimmed text when it is not a list. -/
def scalarOfText? (cs : List Char) : Option Value :=
  match unquote? cs with
  | some inner => some (.string (String.ofList inner))
  | none =>
    if Text.isWord "true" cs then some (.boolean true)
    else if Text.isWord "false" cs then some (.boolean false)
    else if Text.isWord "null" cs || Text.isWord "none" cs then some .null
    else if Text.isWord complete cs then some (.string complete)
    else
      match integerOfText? cs with
      | some i => some (.integer i)
      | none => (Binary64.ofText? cs).map .float

/-- The value of raw text in which lists may still nest `levels` deep. -/
def coerceWithin : (levels : Nat) → List Char → Value
  | 0, raw =>
    let cs := Text.trim raw
    (scalarOfText? cs).getD (.string (String.ofList cs))
  | levels + 1, raw =>
    let cs := Text.trim raw
    match scalarOfText? cs with
    | some v => v
    | none =>
      match unbracket? cs with
      | none => .string (String.ofList cs)
      | some inner =>
        if (Text.trim inner).isEmpty then .list []
        else .list ((elements inner).map (coerceWithin levels))

/-- The value of raw parameter text. -/
def coerce (raw : String) : Value :=
  coerceWithin maxListDepth raw.toList

end Value

end Directive
