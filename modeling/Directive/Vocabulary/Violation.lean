import Directive.Command
import Directive.Diagnostic.Basic
import Directive.Vocabulary.Basic

/-!
# Commands against their contracts

`Registry.violation?` finds the first thing in which a command departs from the vocabulary: first
the pair of family and function, then the required parameters in the order of their declaration,
then each parameter in the order in which it was given, which has to be declared, to have its type,
to be allowed, and to pass its further check.  A command without a violation meets its contract.
-/

namespace Directive

/-- How a command departs from the vocabulary. -/
inductive Violation where
  | unknownFamily (family : String) (known : List String)
  | unknownFunction (family function : String) (known : List String)
  | missingParameter (function parameter : String)
  | unknownParameter (function parameter : String) (declared : List String)
  | typeMismatch (parameter : String) (tag : TypeTag) (value : Value)
  | valueNotAllowed (parameter : String) (value : Value) (allowed : List Value)
  | valueRejected (parameter : String) (value : Value) (check : Validator)

namespace Violation

/-- The code of a violation. -/
def code : Violation → Code
  | .unknownFamily _ _ => .unknownFamily
  | .unknownFunction _ _ _ => .unknownFunction
  | .missingParameter _ _ => .missingParameter
  | .unknownParameter _ _ _ => .unknownParameter
  | .typeMismatch _ _ _ => .typeMismatch
  | .valueNotAllowed _ _ _ => .valueNotAllowed
  | .valueRejected _ _ _ => .valueRejected

/-- The message of a violation. -/
def message : Violation → String
  | .unknownFamily family _ => s!"unknown family `{family}`"
  | .unknownFunction family function _ => s!"unknown function `{function}` in family `{family}`"
  | .missingParameter _ parameter => s!"missing required parameter `{parameter}`"
  | .unknownParameter _ parameter _ => s!"unknown parameter `{parameter}`"
  | .typeMismatch parameter tag value =>
    s!"parameter `{parameter}` expects {tag.name}, found {value.kindName} `{value.text}`"
  | .valueNotAllowed parameter value _ =>
    s!"value `{value.text}` is not allowed for parameter `{parameter}`"
  | .valueRejected parameter value check =>
    s!"parameter `{parameter}` rejected value `{value.text}`: expected {check.expectation}"

/-- Names with a comma and a space between each two. -/
def listed (names : List String) : String :=
  String.intercalate ", " names

/-- The help for a violation. -/
def help : Violation → Option String
  | .unknownFamily _ known => some s!"known families: {listed known}"
  | .unknownFunction family _ known =>
    some <|
      if known.isEmpty then s!"family `{family}` has no functions"
      else s!"functions of `{family}`: {listed known}"
  | .missingParameter _ parameter => some s!"add `{parameter}=<value>` to the parameter block"
  | .unknownParameter function _ declared =>
    some <|
      if declared.isEmpty then s!"`{function}` takes no parameters"
      else s!"parameters of `{function}`: {listed declared}"
  | .typeMismatch _ _ _ => none
  | .valueNotAllowed _ _ allowed => some s!"allowed values: {listed (allowed.map Value.text)}"
  | .valueRejected _ _ _ => none

/-- The remark at the place of a violation. -/
def remark : Violation → String
  | .unknownFamily _ _ => "unknown family"
  | .unknownFunction _ _ _ => "unknown function"
  | .missingParameter function parameter => s!"`{function}` requires `{parameter}`"
  | .unknownParameter _ _ _ => "unknown parameter"
  | .typeMismatch _ tag _ => s!"expected {tag.name}"
  | .valueNotAllowed _ _ _ => "value not allowed"
  | .valueRejected _ _ _ => "rejected by validator"

end Violation

/-! ### Checks -/

namespace Contract

/-- The first required parameter that the command does not give. -/
def missing? (contract : Contract) (c : Command) : Option Violation :=
  (contract.required.find? fun name => (c.get? name).isNone).map fun name =>
    .missingParameter contract.key name

/-- How a value departs from the rule for its parameter. -/
def valueViolation? (contract : Contract) (name : String) (v : Value) : Option Violation :=
  match contract.rule? name with
  | none => some (.unknownParameter contract.key name contract.parameters.names)
  | some rule =>
    if !rule.tag.accepts v then some (.typeMismatch name rule.tag v)
    else if !rule.permits v then some (.valueNotAllowed name v (rule.allowed.getD []))
    else
      match rule.validator with
      | some check => if check.accepts v then none else some (.valueRejected name v check)
      | none => none

/-- How a command departs from the contract of its function. -/
def violation? (contract : Contract) (c : Command) : Option Violation :=
  (contract.missing? c).or <|
    c.parameters.entries.findSome? fun p => contract.valueViolation? p.1 p.2

end Contract

/-- How a command departs from the vocabulary, if it does. -/
def Registry.violation? (r : Registry) (c : Command) : Option Violation :=
  match r.lookup c.family c.function with
  | .unknownFamily => some (.unknownFamily c.family (r.families.map Family.name))
  | .unknownFunction =>
    some (.unknownFunction c.family c.function ((r.contracts c.family).map Contract.name))
  | .found contract => contract.violation? c

end Directive
