import Directive.Toml.Value

/-!
# Tables under construction

While a document is read its tables stay open, and how a table came to be decides what may still be
put into it.  A table named by a header is complete when the next header comes; one that a header
only passes through may get a header of its own, and dotted keys may grow it; one that a dotted key
made grows by dotted keys only.  Inline tables and arrays are closed, and tables of an array are
appended one at a time, the last of them being the open one.
-/

namespace Directive.Toml

/-- How a table came to be. -/
inductive Origin where
  | header
  /-- On the way of a header to a table inside. -/
  | implied
  /-- On the way of a dotted key. -/
  | dotted
deriving DecidableEq, Repr

/-- A value of a document under construction. -/
inductive Node where
  | leaf (v : Value)
  | branch (origin : Origin) (entries : List (String × Node))
  /-- An array of tables, the latest first. -/
  | tables (items : List (List (String × Node)))

/-- The entries of a table under construction, in the order of their keys. -/
abbrev Entries := List (String × Node)

namespace Entries

/-- The node of a key. -/
def get? (entries : Entries) (key : String) : Option Node :=
  (entries.find? fun e => e.1 == key).map Prod.snd

/-- Gives a key a node. -/
def put (key : String) (node : Node) : Entries → Entries
  | [] => [(key, node)]
  | e :: es =>
    if e.1 = key then (key, node) :: es
    else if key < e.1 then (key, node) :: e :: es
    else e :: put key node es

/-- Changes the table that a path leads to from a table of the given origin, making tables on the
way.  A dotted key does not enter tables that have a header. -/
def edit (dotted : Bool) (change : Origin → Entries → Option Entries) :
    List String → Origin → Entries → Option Entries
  | [], origin, entries => change origin entries
  | key :: path, _, entries =>
    let made := if dotted then Origin.dotted else .implied
    match get? entries key with
    | none => do
      let inner ← edit dotted change path made []
      return put key (.branch made inner) entries
    | some (.branch origin inner) =>
      if dotted && origin == .header then none
      else do
        let inner ← edit dotted change path origin inner
        return put key (.branch origin inner) entries
    | some (.tables (last :: older)) => do
      let last ← edit dotted change path .header last
      return put key (.tables (last :: older)) entries
    | some _ => none

/-- Gives the key at the end of a dotted key a value.  The key must be new, and the table that a
dotted key leads to must not have a header. -/
def addValue? (path : List String) (last : String) (v : Value) (entries : Entries) :
    Option Entries :=
  edit true (fun origin entries =>
      if !path.isEmpty && origin == .header || (get? entries last).isSome then none
      else some (put last (.leaf v) entries))
    path .header entries

/-- Opens the table with a header. -/
def openTable? (path : List String) (last : String) (entries : Entries) : Option Entries :=
  edit false (fun _ entries =>
      match get? entries last with
      | none => some (put last (.branch .header []) entries)
      | some (.branch .implied inner) => some (put last (.branch .header inner) entries)
      | some _ => none)
    path .header entries

/-- Opens one more table of the array with a header. -/
def appendTable? (path : List String) (last : String) (entries : Entries) : Option Entries :=
  edit false (fun _ entries =>
      match get? entries last with
      | none => some (put last (.tables [[]]) entries)
      | some (.tables items) => some (put last (.tables ([] :: items)) entries)
      | some _ => none)
    path .header entries

end Entries

/-! ### Finished tables -/

mutual

/-- The value of a node. -/
def Node.value : Node → Value
  | .leaf v => v
  | .branch _ entries => .table (entryValues entries)
  | .tables items => .array (tableValues items).reverse

/-- The entries of a table with their values. -/
def entryValues : List (String × Node) → List (String × Value)
  | [] => []
  | (key, node) :: es => (key, node.value) :: entryValues es

/-- The values of tables. -/
def tableValues : List (List (String × Node)) → List Value
  | [] => []
  | t :: ts => .table (entryValues t) :: tableValues ts

end

end Directive.Toml
