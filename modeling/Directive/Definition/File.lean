import Directive.Toml.Document
import Directive.Toml.Record

/-!
# Definition files

A definition file is a TOML document that lists families and functions.  This module reads its
shape: which fields there are and of which type.  What the fields mean is the matter of
`Directive.Definition.Layer`.
-/

namespace Directive.Definition

/-- A family as a file defines it. -/
structure FamilyEntry where
  name : String
  description : String

/-- A parameter as a file defines it. -/
structure ParamEntry where
  type : String
  default : Option Toml.Value
  allowed : Option (List Toml.Value)
  validator : Option String
  description : Option String

/-- A handler as a file defines it. -/
structure HandlerEntry where
  module : String
  function : String
  mapping : List (String × String)

/-- A function as a file defines it. -/
structure FunctionEntry where
  family : String
  name : String
  description : String
  required : List String
  parameters : List (String × ParamEntry)
  handler : Option HandlerEntry

/-- A definition file. -/
structure File where
  families : List FamilyEntry
  functions : List FunctionEntry

/-- Reads a family. -/
def FamilyEntry.ofToml? (v : Toml.Value) : Option FamilyEntry := do
  let fields ← v.fields? true ["name", "description"]
  return ⟨← fields.required "name" Toml.Value.string?,
    ← fields.withDefault "description" Toml.Value.string? ""⟩

/-- Reads a parameter. -/
def ParamEntry.ofToml? (v : Toml.Value) : Option ParamEntry := do
  let fields ← v.fields? true ["type", "default", "allowed", "validator", "description"]
  return ⟨← fields.required "type" Toml.Value.string?,
    ← fields.optional "default" Toml.Value.any?,
    ← fields.optional "allowed" (Toml.Value.array? Toml.Value.any?),
    ← fields.optional "validator" Toml.Value.string?,
    ← fields.optional "description" Toml.Value.string?⟩

/-- Reads a handler. -/
def HandlerEntry.ofToml? (v : Toml.Value) : Option HandlerEntry := do
  let fields ← v.fields? true ["module", "function", "parameter_mapping"]
  return ⟨← fields.required "module" Toml.Value.string?,
    ← fields.required "function" Toml.Value.string?,
    ← fields.withDefault "parameter_mapping" (Toml.Value.table? Toml.Value.string?) []⟩

/-- Reads a function. -/
def FunctionEntry.ofToml? (v : Toml.Value) : Option FunctionEntry := do
  let fields ←
    v.fields? true ["family", "name", "description", "required", "parameters", "handler"]
  return ⟨← fields.required "family" Toml.Value.string?,
    ← fields.required "name" Toml.Value.string?,
    ← fields.withDefault "description" Toml.Value.string? "",
    ← fields.withDefault "required" (Toml.Value.array? Toml.Value.string?) [],
    ← fields.withDefault "parameters" (Toml.Value.table? ParamEntry.ofToml?) [],
    ← fields.optional "handler" HandlerEntry.ofToml?⟩

/-- Reads a definition file. -/
def File.ofText? (source : String) : Option File := do
  let fields ← (Toml.Value.table (← Toml.read? source)).fields? true ["family", "function"]
  return ⟨← fields.withDefault "family" (Toml.Value.array? FamilyEntry.ofToml?) [],
    ← fields.withDefault "function" (Toml.Value.array? FunctionEntry.ofToml?) []⟩

end Directive.Definition
