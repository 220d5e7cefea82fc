import Directive.OrderedMap
import Directive.Vocabulary.TypeTag

/-!
# Contracts

A family groups functions; the contract of a function says which parameters it takes, which of
them it needs, and which outside handler serves it.
-/

namespace Directive

/-- A family of functions. -/
structure Family where
  name : String
  description : String
deriving DecidableEq, Repr

/-- What is asked of one parameter. -/
structure ParamRule where
  tag : TypeTag
  default : Option Value := none
  allowed : Option (List Value) := none
  validator : Option Validator := none
  description : Option String := none

/-- Whether the value is among the allowed ones; without a list of them every value is. -/
def ParamRule.permits (rule : ParamRule) (v : Value) : Bool :=
  rule.allowed.all fun vs => vs.any fun w => w.equals v

/-- The outside handler of a function, and the names it has for parameters. -/
structure Handler where
  module : String
  function : String
  mapping : OrderedMap String

/-- What is asked of a directive that names this function. -/
structure Contract where
  family : String
  name : String
  description : String := ""
  parameters : OrderedMap ParamRule := .empty
  required : List String := []
  handler : Option Handler := none

namespace Contract

/-- The name of the function with its family in front. -/
def key (c : Contract) : String :=
  c.family ++ "." ++ c.name

/-- The rule for a parameter. -/
def rule? (c : Contract) (name : String) : Option ParamRule :=
  c.parameters.get? name

/-- Whether a parameter has to be given. -/
def requires (c : Contract) (name : String) : Bool :=
  c.required.contains name

/-- The contract with one more parameter; a parameter that is there already gets the new rule. -/
def withParameter (c : Contract) (name : String) (rule : ParamRule) : Contract :=
  { c with parameters := c.parameters.insert name rule }

/-- The contract that also requires a parameter. -/
def withRequired (c : Contract) (name : String) : Contract :=
  if c.required.contains name then c else { c with required := c.required ++ [name] }

end Contract

end Directive
