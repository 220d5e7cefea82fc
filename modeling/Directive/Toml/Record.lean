import Directive.Toml.Value

/-!
# Records in TOML

A record is a value with named fields.  It is written as a table; an array of its fields in their
order stands for it too, and then fields at the end may be left out.  `Fields` looks up what was
written for each field, and the readers below say what a field has to be.

A datetime is taken for a table with one entry, its written form under `Datetime.key`, wherever a
table may stand; and where a value of any type may stand, a table that begins with such an entry is
taken for the datetime.
-/

namespace Directive.Toml

/-- The key of a datetime's written form. -/
def Datetime.key : String := "$__toml_private_datetime"

/-- What was written for the fields of a record, by name. -/
abbrev Fields := String → Option Value

/-- The value of a key among entries. -/
def keyed? (entries : List (String × Value)) (key : String) : Option Value :=
  (entries.find? fun e => e.1 == key).map Prod.snd

namespace Value

/-- Powers are those of the core library, whatever else is in scope. -/
local instance powInt : Pow Int Nat :=
  instPowNat

/-! ### Ranges -/

/-- Whether an integer has 64 bits. -/
def isWord (i : Int) : Bool :=
  Int64.minValue.toInt ≤ i && i ≤ Int64.maxValue.toInt

mutual

/-- Whether all numbers in the value can be read: floats that are not too great, and integers of 128
bits with or without a sign. -/
def isReadable : Value → Bool
  | .integer i => -2 ^ (127 : Nat) ≤ i && i < 2 ^ (128 : Nat)
  | .overflow => false
  | .array items => allReadable items
  | .table entries => allEntriesReadable entries
  | _ => true

/-- Whether all numbers in the values can be read. -/
def allReadable : List Value → Bool
  | [] => true
  | v :: vs => isReadable v && allReadable vs

/-- Whether all numbers in the values of the entries can be read. -/
def allEntriesReadable : List (String × Value) → Bool
  | [] => true
  | (_, v) :: es => isReadable v && allEntriesReadable es

end

/-! ### Tables -/

/-- The entries of a table or of what is taken for one. -/
def entries? : Value → Option (List (String × Value))
  | .table entries => some entries
  | .datetime d => some [(Datetime.key, .string (String.ofList d.text))]
  | _ => none

/-- The fields of a record with these names, in their order.  A closed record has no other fields;
what an open one has besides only has to be readable. -/
def fields? (closed : Bool) (names : List String) : Value → Option Fields
  | .array items => some (keyed? (names.zip items))
  | v => do
    let entries ← v.entries?
    if entries.all fun e => names.contains e.1 || !closed && e.2.isReadable then
      some (keyed? entries)
    else none

/-! ### Fields -/

/-- The string, if the value is one. -/
def string? : Value → Option String
  | .string s => some s
  | _ => none

/-- The truth value, if the value is one. -/
def boolean? : Value → Option Bool
  | .boolean b => some b
  | _ => none

/-- An integer of 64 bits without a sign. -/
def natural? : Value → Option Nat
  | .integer i => if 0 ≤ i && i < 2 ^ (64 : Nat) then some i.toNat else none
  | _ => none

/-- The items of an array, each read by `item?`. -/
def array? {α : Type} (item? : Value → Option α) : Value → Option (List α)
  | .array items => items.mapM item?
  | _ => none

/-- The entries of a table, the value of each read by `item?`. -/
def table? {α : Type} (item? : Value → Option α) (v : Value) : Option (List (String × α)) := do
  (← v.entries?).mapM fun e => (e.1, ·) <$> item? e.2

mutual

/-- A value of any type, with integers of 64 bits and floats that are not too great.  What stands
behind a datetime's written form in a table is not looked at. -/
def any? : Value → Option Value
  | .integer i => if isWord i then some (.integer i) else none
  | .overflow => none
  | .array items => Value.array <$> anyItems? items
  | .table [] => some (.table [])
  | .table ((key, v) :: es) =>
    if key = Datetime.key then do
      return .datetime (← Datetime.ofText? (← v.string?).toList)
    else do
      let first ← any? v
      return .table ((key, first) :: (← anyEntries? es))
  | v => some v

/-- Values of any type. -/
def anyItems? : List Value → Option (List Value)
  | [] => some []
  | v :: vs => do
    let first ← any? v
    return first :: (← anyItems? vs)

/-- Entries with values of any type. -/
def anyEntries? : List (String × Value) → Option (List (String × Value))
  | [] => some []
  | (key, v) :: es => do
    let first ← any? v
    return (key, first) :: (← anyEntries? es)

end

end Value

namespace Fields

/-- A field that must be there. -/
def required {α : Type} (fields : Fields) (name : String) (read? : Value → Option α) :
    Option α :=
  (fields name).bind read?

/-- A field that may be left out. -/
def optional {α : Type} (fields : Fields) (name : String) (read? : Value → Option α) :
    Option (Option α) :=
  match fields name with
  | none => some none
  | some v => some <$> read? v

/-- A field that has a default. -/
def withDefault {α : Type} (fields : Fields) (name : String) (read? : Value → Option α)
    (default : α) : Option α :=
  (·.getD default) <$> fields.optional name read?

end Fields

end Directive.Toml
