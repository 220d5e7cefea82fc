import Directive.Toml.Datetime

/-!
# TOML values

The values of a TOML document.  Integers have no width of their own; a document is read with them
as written, and what uses a value says how wide it may be.  Tables hold their entries in the order
of the keys.
-/

namespace Directive.Toml

/-- A value of a TOML document. -/
inductive Value where
  | string (s : String)
  | integer (i : Int)
  | float (x : Binary64)
  /-- A float that is too great for the binary format. -/
  | overflow
  | boolean (b : Bool)
  | datetime (d : Datetime)
  | array (items : List Value)
  | table (entries : List (String × Value))

namespace Value

instance : Inhabited Value := ⟨.boolean false⟩

/-- The name of the value's type in messages. -/
def typeName : Value → String
  | .string _ => "string"
  | .integer _ => "integer"
  | .float _ => "float"
  | .overflow => "float"
  | .boolean _ => "boolean"
  | .datetime _ => "datetime"
  | .array _ => "array"
  | .table _ => "table"

end Value

end Directive.Toml
