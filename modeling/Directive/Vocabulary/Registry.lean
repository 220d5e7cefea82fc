import Directive.Vocabulary.Contract

/-!
# Registries

A registry is the checked vocabulary: families in the order of their declaration, and in each the
contracts of its functions.
-/

namespace Directive

/-- A family with the contracts of its functions. -/
structure RegistryEntry where
  family : Family
  contracts : OrderedMap Contract

/-- A checked vocabulary. -/
structure Registry where
  entries : OrderedMap RegistryEntry

/-- What is known about a pair of family and function. -/
inductive Lookup where
  | found (contract : Contract)
  | unknownFamily
  | unknownFunction

namespace Registry

/-- The registry without families. -/
def empty : Registry :=
  ⟨.empty⟩

instance : Inhabited Registry := ⟨empty⟩

/-- Looks a function up. -/
def lookup (r : Registry) (family function : String) : Lookup :=
  match r.entries.get? family with
  | none => .unknownFamily
  | some entry =>
    match entry.contracts.get? function with
    | none => .unknownFunction
    | some contract => .found contract

/-- The contract of a function. -/
def contract? (r : Registry) (family function : String) : Option Contract :=
  (r.entries.get? family).bind fun entry => entry.contracts.get? function

/-- The further check of a parameter. -/
def validator? (r : Registry) (family function parameter : String) : Option Validator :=
  ((r.contract? family function).bind fun c => c.rule? parameter).bind ParamRule.validator

/-- Whether a family is declared. -/
def hasFamily (r : Registry) (family : String) : Bool :=
  r.entries.contains family

/-- The families, in the order of their declaration. -/
def families (r : Registry) : List Family :=
  r.entries.values.map RegistryEntry.family

/-- A family with its description. -/
def family? (r : Registry) (family : String) : Option Family :=
  (r.entries.get? family).map RegistryEntry.family

/-- The contracts of a family's functions in their order; an unknown family has none. -/
def contracts (r : Registry) (family : String) : List Contract :=
  match r.entries.get? family with
  | some entry => entry.contracts.values
  | none => []

/-- The sum starts from the zero of the core library, whatever else is in scope. -/
local instance zeroNat : Zero Nat :=
  ⟨0⟩

/-- The number of functions in all families. -/
def functionCount (r : Registry) : Nat :=
  (r.entries.values.map fun entry => entry.contracts.size).sum

end Registry

end Directive
