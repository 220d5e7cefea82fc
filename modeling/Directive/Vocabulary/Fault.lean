import Directive.Value.Text
import Directive.Vocabulary.TypeTag

/-!
# Faults of vocabularies

What can be wrong with the definitions of families, functions and parameters, with the message for
each.
-/

namespace Directive

/-- What a name names. -/
inductive NameRole where
  | family
  | function
  | parameter
deriving DecidableEq, Repr

/-- The word for the role in messages. -/
def NameRole.name : NameRole → String
  | .family => "family"
  | .function => "function"
  | .parameter => "parameter"

/-- Why a vocabulary cannot be built. -/
inductive RegistryFault where
  | unknownTypeTag (tag : String)
  | unknownValidator (name : String)
  | invalidName (role : NameRole) (name : String)
  | duplicateFamily (family : String)
  | duplicateFunction (family function : String)
  | undeclaredFamily (family function : String)
  | undeclaredRequired (function parameter : String)
  | conflictingMapping (function target : String)
  | invalidDefault (function parameter : String) (tag : TypeTag)
  | invalidAllowedValue (function parameter : String) (value : Value) (tag : TypeTag)

namespace RegistryFault

/-- The message of a fault. -/
def message : RegistryFault → String
  | .unknownTypeTag tag => s!"unknown type tag `{tag}`"
  | .unknownValidator name => s!"unknown validator `{name}`"
  | .invalidName role name =>
    s!"invalid {role.name} name `{name}`: expected lowercase letters and underscores"
  | .duplicateFamily family => s!"family `{family}` is defined more than once"
  | .duplicateFunction family function =>
    s!"function `{family}.{function}` is defined more than once"
  | .undeclaredFamily family function =>
    s!"function `{family}.{function}` belongs to undeclared family `{family}`"
  | .undeclaredRequired function parameter =>
    s!"required parameter `{parameter}` of `{function}` is not declared"
  | .conflictingMapping function target =>
    s!"handler of `{function}` maps more than one parameter to `{target}`"
  | .invalidDefault function parameter tag =>
    s!"default of parameter `{parameter}` of `{function}` does not match type `{tag.name}`"
  | .invalidAllowedValue function parameter value tag =>
    s!"allowed value `{value.text}` of parameter `{parameter}` of `{function}` does not match " ++
      s!"type `{tag.name}`"

end RegistryFault

end Directive
