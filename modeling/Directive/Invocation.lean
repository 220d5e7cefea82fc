import Directive.Command
import Directive.Vocabulary.Registry

/-!
# Invocations

An invocation is the call of a handler that a command asks for.  Parameters take the names the
handler has for them; where a parameter that is renamed and one that is not come to the same name,
the renamed one counts.  Each name stands at the place where it came up first.
-/

namespace Directive

/-- The call of a handler. -/
structure Invocation where
  module : String
  function : String
  arguments : OrderedMap Value
  /-- The text of the directive. -/
  source : String

namespace Handler

/-- The arguments with one more parameter. -/
def addArgument (h : Handler) (arguments : OrderedMap Value) (name : String) (v : Value) :
    OrderedMap Value :=
  match h.mapping.get? name with
  | some target => arguments.insert target v
  | none => if arguments.contains name then arguments else arguments.insert name v

/-- The arguments for the parameters of a command. -/
def arguments (h : Handler) (parameters : OrderedMap Value) : OrderedMap Value :=
  parameters.entries.foldl (fun m p => h.addArgument m p.1 p.2) .empty

end Handler

/-- The call a command asks for, if its function is known and has a handler. -/
def Registry.plan (r : Registry) (c : Command) : Option Invocation :=
  ((r.contract? c.family c.function).bind Contract.handler).map fun h =>
    ⟨h.module, h.function, h.arguments c.parameters, c.source⟩

end Directive
