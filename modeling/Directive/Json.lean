import Directive.Invocation

/-!
# JSON output

Commands and invocations are written as JSON with two blanks of indentation for each level, every
item and member on a line of its own, and empty arrays and objects closed at once.  JSON knows only
finite numbers, so the others are written as null.
-/

namespace Directive

/-- A JSON value; the members of an object are in the order in which they are written. -/
inductive JsonValue where
  | null
  | boolean (b : Bool)
  | integer (i : Int64)
  | float (x : Binary64)
  | string (s : String)
  | array (items : List JsonValue)
  | object (members : List (String × JsonValue))

namespace JsonValue

/-! ### Writing -/

/-- A character as it stands inside a JSON string. -/
def writeChar (c : Char) : List Char :=
  if c = '"' then ['\\', '"']
  else if c = '\\' then ['\\', '\\']
  else if c = '\x08' then ['\\', 'b']
  else if c = '\x0c' then ['\\', 'f']
  else if c = '\n' then ['\\', 'n']
  else if c = '\r' then ['\\', 'r']
  else if c = '\t' then ['\\', 't']
  else if c < ' ' then
    let ds := Nat.toDigits 16 c.toNat
    '\\' :: 'u' :: (List.replicate (4 - ds.length) '0' ++ ds)
  else [c]

/-- A JSON string. -/
def writeString (s : String) : List Char :=
  '"' :: (s.toList.flatMap writeChar ++ ['"'])

/-- A JSON number; null if there is none. -/
def writeFloat (x : Binary64) : List Char :=
  match x with
  | .finite _ _ => x.write .json
  | _ => "null".toList

/-- The start of a line at a level of indentation. -/
def newLine (level : Nat) : List Char :=
  '\n' :: List.replicate (2 * level) ' '

mutual

/-- The written form of a value that stands at a level of indentation. -/
def write (level : Nat) : JsonValue → List Char
  | .null => "null".toList
  | .boolean true => "true".toList
  | .boolean false => "false".toList
  | .integer i => Value.writeInt i
  | .float x => writeFloat x
  | .string s => writeString s
  | .array [] => ['[', ']']
  | .array (v :: vs) =>
    '[' :: (newLine (level + 1) ++ write (level + 1) v ++ writeItems (level + 1) vs ++
      newLine level ++ [']'])
  | .object [] => ['{', '}']
  | .object ((name, v) :: members) =>
    '{' :: (newLine (level + 1) ++ writeString name ++ ':' :: ' ' :: write (level + 1) v ++
      writeMembers (level + 1) members ++ newLine level ++ ['}'])

/-- The written forms of the items of an array after the first. -/
def writeItems (level : Nat) : List JsonValue → List Char
  | [] => []
  | v :: vs => ',' :: (newLine level ++ write level v ++ writeItems level vs)

/-- The written forms of the members of an object after the first. -/
def writeMembers (level : Nat) : List (String × JsonValue) → List Char
  | [] => []
  | (name, v) :: members =>
    ',' :: (newLine level ++ writeString name ++ ':' :: ' ' :: write level v ++
      writeMembers level members)

end

/-- The text of a JSON document. -/
def text (v : JsonValue) : String :=
  String.ofList (v.write 0)

end JsonValue

/-! ### What is written -/

namespace Value

mutual

/-- The JSON value for a parameter value. -/
def toJson : Value → JsonValue
  | .null => .null
  | .boolean b => .boolean b
  | .integer i => .integer i
  | .float x => .float x
  | .string s => .string s
  | .list items => .array (itemsToJson items)

/-- The JSON values for the items of a list. -/
def itemsToJson : List Value → List JsonValue
  | [] => []
  | v :: vs => toJson v :: itemsToJson vs

end

end Value

/-- The JSON object for named values. -/
def OrderedMap.toJson (m : OrderedMap Value) : JsonValue :=
  .object (m.entries.map fun e => (e.1, e.2.toJson))

/-- The JSON object for a command. -/
def Command.toJson (c : Command) : JsonValue :=
  .object [("family", .string c.family), ("function", .string c.function),
    ("parameters", c.parameters.toJson), ("original_text", .string c.source)]

/-- The JSON object for an invocation. -/
def Invocation.toJson (i : Invocation) : JsonValue :=
  .object [("module", .string i.module), ("function", .string i.function),
    ("arguments", i.arguments.toJson), ("original_text", .string i.source)]

end Directive
