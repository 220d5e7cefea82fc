import Directive.Text.Blank
import Directive.Vocabulary.Fault
import Directive.Vocabulary.Registry

/-!
# Vocabularies

A vocabulary is a list of families and a list of contracts as they were defined, checked by nobody
yet.  Definitions are appended, or put in the place of an earlier definition of the same name.
`Vocabulary.build` makes a registry of it unless something is wrong, and then tells what is wrong
first: families come before functions, and each in the order of definition.
-/

namespace Directive

/-! ### Repetitions -/

/-- The first item that stands in the list for the second time or that `bad` holds of. -/
def firstRepeatedOr (bad : String → Bool) : (seen : List String) → List String → Option String
  | _, [] => none
  | seen, x :: xs =>
    if seen.contains x || bad x then some x else firstRepeatedOr bad (x :: seen) xs

/-! ### Checks of one contract -/

/-- The fault of a name that is no name. -/
def NameRole.fault? (role : NameRole) (name : String) : Option RegistryFault :=
  if Text.isName name then none else some (.invalidName role name)

namespace Contract

/-- The first fault of a parameter's rule. -/
def ruleFault? (c : Contract) (name : String) (rule : ParamRule) : Option RegistryFault :=
  (NameRole.parameter.fault? name).or <|
    if rule.default.any fun v => !rule.tag.accepts v then
      some (.invalidDefault c.key name rule.tag)
    else
      (rule.allowed.bind fun vs => vs.find? fun v => !rule.tag.accepts v).map fun v =>
        .invalidAllowedValue c.key name v rule.tag

/-- The first required parameter that is required twice or not declared. -/
def requiredFault? (c : Contract) : Option RegistryFault :=
  (firstRepeatedOr (fun name => (c.rule? name).isNone) [] c.required).map fun name =>
    .undeclaredRequired c.key name

/-- The first name that the handler has for two parameters. -/
def mappingFault? (c : Contract) : Option RegistryFault :=
  (c.handler.bind fun h => firstRepeatedOr (fun _ => false) [] h.mapping.values).map fun target =>
    .conflictingMapping c.key target

/-- The first fault of a contract on its own. -/
def fault? (c : Contract) : Option RegistryFault :=
  (NameRole.family.fault? c.family).or <|
    (NameRole.function.fault? c.name).or <|
      (c.parameters.entries.findSome? fun e => c.ruleFault? e.1 e.2).or <|
        c.requiredFault?.or c.mappingFault?

end Contract

/-! ### Vocabularies -/

/-- Families and contracts as they were defined. -/
structure Vocabulary where
  families : List Family
  contracts : List Contract

/-- Puts `x` in the place of the first item with the same key, or at the end. -/
def upsert {α : Type} (same : α → α → Bool) (x : α) : List α → List α
  | [] => [x]
  | y :: ys => if same y x then x :: ys else y :: upsert same x ys

namespace Registry

/-- The registry with one more family. -/
def addFamily (r : Registry) (f : Family) : Except RegistryFault Registry :=
  match NameRole.family.fault? f.name with
  | some fault => .error fault
  | none =>
    if r.entries.contains f.name then .error (.duplicateFamily f.name)
    else .ok ⟨r.entries.insert f.name ⟨f, .empty⟩⟩

/-- The registry with one more function. -/
def addContract (r : Registry) (c : Contract) : Except RegistryFault Registry :=
  match c.fault? with
  | some fault => .error fault
  | none =>
    match r.entries.get? c.family with
    | none => .error (.undeclaredFamily c.family c.name)
    | some entry =>
      if entry.contracts.contains c.name then .error (.duplicateFunction c.family c.name)
      else
        let entry := { entry with contracts := entry.contracts.insert c.name c }
        .ok ⟨r.entries.insert c.family entry⟩

end Registry

namespace Vocabulary

/-- The vocabulary without definitions. -/
def empty : Vocabulary :=
  ⟨[], []⟩

instance : Inhabited Vocabulary := ⟨empty⟩

/-- Appends a family. -/
def addFamily (v : Vocabulary) (f : Family) : Vocabulary :=
  { v with families := v.families ++ [f] }

/-- Appends a function. -/
def addContract (v : Vocabulary) (c : Contract) : Vocabulary :=
  { v with contracts := v.contracts ++ [c] }

/-- Declares a family in the place of the first of the same name, or at the end. -/
def upsertFamily (v : Vocabulary) (f : Family) : Vocabulary :=
  { v with families := upsert (fun a b => a.name == b.name) f v.families }

/-- Defines a function in the place of the first of the same family and name, or at the end. -/
def upsertContract (v : Vocabulary) (c : Contract) : Vocabulary :=
  { v with
    contracts := upsert (fun a b => a.family == b.family && a.name == b.name) c v.contracts }

/-- Checks all definitions and makes a registry of them. -/
def build (v : Vocabulary) : Except RegistryFault Registry := do
  let families ← v.families.foldlM Registry.addFamily .empty
  v.contracts.foldlM Registry.addContract families

end Vocabulary

end Directive
