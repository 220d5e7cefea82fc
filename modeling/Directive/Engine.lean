import Directive.Config
import Directive.Extraction
import Directive.Failure
import Directive.Invocation
import Directive.Vocabulary.Builtin

/-!
# Engines

An engine has a configuration and a current registry.  The registry is loaded from the base
vocabulary and the definition file; it can be loaded again or exchanged for another.  Loading takes
the contents the file has at that moment, `none` if it cannot be read, and either gives a whole new
registry or leaves the old one in place.
-/

namespace Directive

/-- A configuration with the registry that is current. -/
structure Engine where
  config : Config
  registry : Registry

namespace Engine

/-- The vocabulary that definitions are layered over. -/
def base (config : Config) : Vocabulary :=
  if config.includeBuiltin then .builtin else .empty

/-- The registry of a vocabulary. -/
def build (v : Vocabulary) : Except Failure Registry :=
  match v.build with
  | .ok r => .ok r
  | .error fault => .error (.registry fault)

/-- The registry that a configuration describes, when the definition file contains `source`. -/
def load (config : Config) (source : Option String) : Except Failure Registry :=
  match config.path, source with
  | none, _ => build (base config)
  | some path, none => .error (.file (.unreadable path))
  | some _, some source =>
    match (base config).layer source with
    | (_, .error fault) => .error (.ofDefinition fault)
    | (v, .ok ()) => build v

/-- A new engine, when the definition file contains `source`. -/
def start (config : Config) (source : Option String) : Except Failure Engine := do
  return ⟨config, ← load config source⟩

/-- The engine after its registry has been loaded again. -/
def reload (e : Engine) (source : Option String) : Except Failure Engine := do
  return ⟨e.config, ← load e.config source⟩

/-- The engine with another registry, and the registry it had. -/
def swap (e : Engine) (r : Registry) : Engine × Registry :=
  (⟨e.config, r⟩, e.registry)

/-- Reads and checks a directive. -/
def parse (e : Engine) (text : String) : Except Report Command :=
  e.registry.parse text

/-- The commands in a text, as many as the configuration allows. -/
def extract (e : Engine) (text : String) : List Command :=
  e.registry.extractAtMost e.config.maxDirectives text

/-- The call that a command asks for. -/
def plan (e : Engine) (c : Command) : Option Invocation :=
  e.registry.plan c

/-- The contracts of a family that has to be known. -/
def familyContracts (e : Engine) (family : String) : Except Failure (List Contract) :=
  if e.registry.hasFamily family then .ok (e.registry.contracts family)
  else .error (.unknownFamily family)

end Engine

end Directive
