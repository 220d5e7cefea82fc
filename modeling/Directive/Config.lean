import Directive.Toml.Document
import Directive.Toml.Record

/-!
# Configuration

The configuration says where the vocabulary comes from and how many directives extraction yields.
It is read from a TOML document; fields that are not known are ignored, and each has a default.
-/

namespace Directive

/-- The settings of an engine. -/
structure Config where
  /-- The path of the definition file. -/
  path : Option String := none
  /-- Whether definitions are layered over the built-in vocabulary. -/
  includeBuiltin : Bool := true
  /-- The greatest number of directives that extraction yields. -/
  maxDirectives : Option Nat := none
deriving DecidableEq, Repr

namespace Config

/-- Reads the section on the vocabulary. -/
def registrySection? (v : Toml.Value) : Option (Option String × Bool) := do
  let fields ← v.fields? false ["path", "include_builtin"]
  return (← fields.optional "path" Toml.Value.string?,
    ← fields.withDefault "include_builtin" Toml.Value.boolean? true)

/-- Reads the section on extraction. -/
def extractSection? (v : Toml.Value) : Option (Option Nat) := do
  let fields ← v.fields? false ["max_directives"]
  fields.optional "max_directives" Toml.Value.natural?

/-- Reads a configuration. -/
def ofText? (source : String) : Option Config := do
  let fields ← (Toml.Value.table (← Toml.read? source)).fields? false ["registry", "extract"]
  let (path, includeBuiltin) ← fields.withDefault "registry" registrySection? (none, true)
  let maxDirectives ← fields.withDefault "extract" extractSection? none
  return { path, includeBuiltin, maxDirectives }

end Config

end Directive
