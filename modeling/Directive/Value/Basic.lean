import Directive.Number.Layout

/-!
# Values

A parameter of a directive has a value: null, a truth value, a 64-bit integer, a binary number, a
string, or a list of values.  `Value.equals` is equality as a user of the values sees it, in which
the two zeros are equal and a not-a-number equals nothing; plain equality of Lean terms tells the
zeros apart and a not-a-number from nothing else.
-/

namespace Directive

/-- A typed parameter value. -/
inductive Value where
  | null
  | boolean (b : Bool)
  | integer (i : Int64)
  | float (x : Binary64)
  | string (s : String)
  | list (items : List Value)

namespace Value

instance : Inhabited Value := ⟨.null⟩

/-- The word with the distinguished meaning "without bound" among recursion depths. -/
def complete : String := "complete"

/-- The string, if the value is one. -/
def string? : Value → Option String
  | .string s => some s
  | _ => none

/-- The number, if the value is an integer or a float; an integer is rounded to the nearest
binary number. -/
def number? : Value → Option Binary64
  | .integer i => some (.ofInt i.toInt)
  | .float x => some x
  | _ => none

/-- Whether the value is the string `complete`. -/
def isComplete : Value → Bool
  | .string s => s == complete
  | _ => false

/-- The name of the value's kind in messages. -/
def kindName : Value → String
  | .null => "null"
  | .boolean _ => "boolean"
  | .integer _ => "integer"
  | .float _ => "float"
  | .string _ => "string"
  | .list _ => "list"

mutual

/-- Equality of values, with floats compared as numbers. -/
def equals : Value → Value → Bool
  | .null, .null => true
  | .boolean a, .boolean b => a == b
  | .integer i, .integer j => i == j
  | .float x, .float y => x.equals y
  | .string s, .string t => s == t
  | .list xs, .list ys => allEqual xs ys
  | _, _ => false

/-- Equality of lists of values, item by item. -/
def allEqual : List Value → List Value → Bool
  | [], [] => true
  | x :: xs, y :: ys => equals x y && allEqual xs ys
  | _, _ => false

end

end Value

end Directive
