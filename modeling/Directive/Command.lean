import Directive.OrderedMap
import Directive.Value.Text

/-!
# Commands

A command is what a directive says: a family, a function of the family, and the values of named
parameters in the order they were given.  `Command.write` is its canonical text,
`.p/family.function` followed by a block of `name=value` pairs if there are parameters.
-/

namespace Directive

/-- The text every directive begins with. -/
def mark : String := ".p/"

/-- A directive that has been read. -/
structure Command where
  family : String
  function : String
  parameters : OrderedMap Value
  /-- The text the command was read from. -/
  source : String

namespace Command

/-- The name of the function with its family in front. -/
def key (c : Command) : String :=
  c.family ++ "." ++ c.function

/-- The value of a parameter. -/
def get? (c : Command) (name : String) : Option Value :=
  c.parameters.get? name

/-- Whether two commands say the same, whatever text they come from. -/
def equivalent (c d : Command) : Bool :=
  c.family == d.family && c.function == d.function &&
    c.parameters.agree Value.equals d.parameters

/-- Whether two commands say the same and come from the same text. -/
def equals (c d : Command) : Bool :=
  c.equivalent d && c.source == d.source

/-- The written form of `name=value` pairs, with a comma and a space between each two. -/
def writePairs : List (String × Value) → List Char
  | [] => []
  | [p] => p.1.toList ++ '=' :: p.2.write
  | p :: q :: ps => p.1.toList ++ '=' :: (p.2.write ++ ',' :: ' ' :: writePairs (q :: ps))

/-- The written form of a command. -/
def write (c : Command) : List Char :=
  mark.toList ++ c.family.toList ++ '.' :: c.function.toList ++
    if c.parameters.isEmpty then [] else '{' :: (writePairs c.parameters.entries ++ ['}'])

/-- The canonical text of a command. -/
def text (c : Command) : String :=
  String.ofList c.write

end Command

end Directive
