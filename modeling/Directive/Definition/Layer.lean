import Directive.Definition.File
import Directive.Vocabulary.Basic

/-!
# Layering definitions over a vocabulary

The definitions of a file are put into a vocabulary one by one, families first.  A definition
replaces the one of the same name that was there before; the same name twice in one file is a
fault.  At the first fault layering stops, and the vocabulary keeps what was put into it before.
-/

namespace Directive

/-- Why a definition file cannot be used. -/
inductive DefinitionFault where
  /-- The text is no TOML document, or not one of a definition file's shape. -/
  | malformed
  /-- A value in the file has no counterpart in directives; `role` says what it should be. -/
  | unusable (role parameter function type : String)
  | vocabulary (fault : RegistryFault)

namespace Definition

/-! ### Meaning of definitions -/

mutual

/-- The directive value for a TOML value; dates, times, tables and numbers that are too great have
none. -/
def value? : Toml.Value → Option Value
  | .string s => some (.string s)
  | .integer i => if Toml.Value.isWord i then some (.integer (Int64.ofInt i)) else none
  | .float x => some (.float x)
  | .overflow => none
  | .boolean b => some (.boolean b)
  | .datetime _ => none
  | .array items => Value.list <$> values? items
  | .table _ => none

/-- The directive values for TOML values. -/
def values? : List Toml.Value → Option (List Value)
  | [] => some []
  | v :: vs => do
    let w ← value? v
    let ws ← values? vs
    return w :: ws

end

/-- What is there, or else the fault. -/
def require {α : Type} (fault : DefinitionFault) : Option α → Except DefinitionFault α
  | some a => .ok a
  | none => .error fault

/-- The directive value for what a parameter of a function has as its `role`. -/
def useValue (role parameter function : String) (v : Toml.Value) : Except DefinitionFault Value :=
  require (.unusable role parameter function v.typeName) (value? v)

/-- The type with a name. -/
def useTypeTag (name : String) : Except DefinitionFault TypeTag :=
  require (.vocabulary (.unknownTypeTag name)) (TypeTag.ofName? name)

/-- The check with a name. -/
def useValidator (name : String) : Except DefinitionFault Validator :=
  require (.vocabulary (.unknownValidator name)) (Validator.ofName? name)

namespace FunctionEntry

/-- The name of the function with its family in front. -/
def key (f : FunctionEntry) : String :=
  f.family ++ "." ++ f.name

/-- The rule that an entry of the function defines. -/
def rule (f : FunctionEntry) (name : String) (p : ParamEntry) :
    Except DefinitionFault ParamRule := do
  let tag ← useTypeTag p.type
  let default ← p.default.mapM (useValue "default" name f.key)
  let allowed ← p.allowed.mapM fun vs => vs.mapM (useValue "allowed value" name f.key)
  let validator ← p.validator.mapM useValidator
  return { tag, default, allowed, validator, description := p.description }

/-- The contract that a function of a file defines. -/
def contract (f : FunctionEntry) : Except DefinitionFault Contract := do
  let rules ← f.parameters.mapM fun e => return (e.1, ← f.rule e.1 e.2)
  let base : Contract :=
    { family := f.family, name := f.name, description := f.description,
      parameters := .ofList rules,
      handler := f.handler.map fun h => ⟨h.module, h.function, .ofList h.mapping⟩ }
  return f.required.foldl Contract.withRequired base

end FunctionEntry

/-! ### Layers -/

/-- Puts families into a vocabulary; `seen` are the names that came before in the file. -/
def layerFamilies (v : Vocabulary) (seen : List String) :
    List FamilyEntry → Vocabulary × Except DefinitionFault Unit
  | [] => (v, .ok ())
  | f :: fs =>
    if seen.contains f.name then (v, .error (.vocabulary (.duplicateFamily f.name)))
    else layerFamilies (v.upsertFamily ⟨f.name, f.description⟩) (f.name :: seen) fs

/-- Puts functions into a vocabulary; `seen` are the pairs that came before in the file. -/
def layerFunctions (v : Vocabulary) (seen : List (String × String)) :
    List FunctionEntry → Vocabulary × Except DefinitionFault Unit
  | [] => (v, .ok ())
  | f :: fs =>
    if seen.contains (f.family, f.name) then
      (v, .error (.vocabulary (.duplicateFunction f.family f.name)))
    else
      match f.contract with
      | .error fault => (v, .error fault)
      | .ok c => layerFunctions (v.upsertContract c) ((f.family, f.name) :: seen) fs

/-- Puts the definitions of a file into a vocabulary. -/
def layerFile (v : Vocabulary) (file : File) : Vocabulary × Except DefinitionFault Unit :=
  match layerFamilies v [] file.families with
  | (v, .error fault) => (v, .error fault)
  | (v, .ok ()) => layerFunctions v [] file.functions

end Definition

/-- Puts the definitions of a file's text into a vocabulary.  The first component is the
vocabulary afterwards, whether there was a fault or not. -/
def Vocabulary.layer (v : Vocabulary) (source : String) :
    Vocabulary × Except DefinitionFault Unit :=
  match Definition.File.ofText? source with
  | none => (v, .error .malformed)
  | some file => Definition.layerFile v file

end Directive
