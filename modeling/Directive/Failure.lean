import Directive.Definition.Layer
import Directive.Diagnostic.Report

/-!
# Failures

Why an engine or the command line gives no answer: a file is missing or wrong, a directive cannot be
read, the vocabulary has a fault, or a family is not known.
-/

namespace Directive

/-- Why a file is not what was asked for. -/
inductive FileFault where
  | missingConfig (path : String)
  | malformedConfig
  | unreadable (path : String)
deriving DecidableEq, Repr

/-- Why an engine or the command line gives no answer. -/
inductive Failure where
  | file (fault : FileFault)
  | parse (report : Report)
  | registry (fault : RegistryFault)
  | definition (fault : DefinitionFault)
  | unknownFamily (family : String)

namespace FileFault

/-- The message of a fault. -/
def message : FileFault → String
  | .missingConfig path => s!"Missing configuration file: {path}"
  | .malformedConfig => "Failed to parse TOML configuration"
  | .unreadable path => s!"cannot read {path}"

end FileFault

namespace Failure

/-- The failure of a definition file; what is wrong with the vocabulary is told as such. -/
def ofDefinition : DefinitionFault → Failure
  | .vocabulary fault => .registry fault
  | fault => .definition fault

/-- The message of a failure. -/
def message : Failure → String
  | .file fault => s!"I/O error: {fault.message}"
  | .parse report => report.diagnostic.headline
  | .registry fault | .definition (.vocabulary fault) =>
    s!"Invalid registry definition: {fault.message}"
  | .definition .malformed => "Malformed registry definition file"
  | .definition (.unusable role parameter function type) =>
    s!"Malformed registry definition file: {role} of parameter `{parameter}` of `{function}` " ++
      s!"cannot be a {type}"
  | .unknownFamily family => s!"Unknown family `{family}`"

/-- The code of a failure in reports. -/
def code : Failure → Option String
  | .file _ => some "pareto::io"
  | .parse report => report.diagnostic.code.map Code.id
  | .registry _ => some "pareto::registry"
  | .definition _ => some "pareto::definition"
  | .unknownFamily _ => some "pareto::schema"

end Failure

end Directive
