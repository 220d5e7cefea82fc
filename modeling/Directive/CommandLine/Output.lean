import Directive.Engine
import Directive.Json
import Directive.Text.Quoted

/-!
# Output of the command line

The text that each task prints.  Every line ends with a line break.
-/

namespace Directive.CommandLine

/-- A text of lines. -/
def ofLines (lines : List String) : String :=
  String.join (lines.map (· ++ "\n"))

/-! ### Commands -/

/-- A command and the call it asks for, one argument to a line. -/
def commandLines (c : Command) (call : Option Invocation) : List String :=
  c.text :: match call with
    | none => []
    | some i =>
      s!"handler: {i.module}::{i.function}" ::
        i.arguments.entries.map fun e => "    " ++ e.1 ++ " = " ++ e.2.text

/-- A command and the call it asks for as JSON. -/
def commandJson (c : Command) (call : Option Invocation) : JsonValue :=
  .object [("command", c.toJson), ("invocation", (call.map Invocation.toJson).getD .null)]

/-- The output for a command. -/
def showCommand (json : Bool) (c : Command) (call : Option Invocation) : String :=
  ofLines (if json then [(commandJson c call).text] else commandLines c call)

/-- The output for the commands found in a text. -/
def showCommands (json : Bool) (cs : List Command) : String :=
  ofLines (if json then [(JsonValue.array (cs.map Command.toJson)).text] else cs.map Command.text)

/-! ### Tokens -/

/-- The line of a token: the byte at which it starts, its kind, and its text. -/
def tokenLine (t : Token) : String :=
  String.ofList <|
    Text.padStart 4 (Nat.toDigits 10 t.span.start) ++ ' ' :: ' ' ::
      (Text.padEnd 16 t.kind.name.toList ++ ' ' :: Text.showQuoted t.text.toList)

/-- The output for the tokens of a text. -/
def showTokens (ts : List Token) : String :=
  ofLines (ts.map tokenLine)

/-! ### Vocabulary -/

/-- The line of a family: its name, the number of its functions, its description. -/
def familyLine (r : Registry) (f : Family) : String :=
  let count := Nat.toDigits 10 (r.contracts f.name).length
  String.ofList (Text.padEnd 14 f.name.toList ++ ' ' :: Text.padStart 2 count ++ [' ', ' ']) ++
    f.description

/-- The line of a parameter, e.g. `target: string (required) = memory, one of [memory, none]`. -/
def paramLine (c : Contract) (name : String) (rule : ParamRule) : String :=
  let required := if c.requires name then " (required)" else ""
  let default := (rule.default.map fun v => " = " ++ v.text).getD ""
  let allowed :=
    (rule.allowed.map fun vs =>
      ", one of [" ++ ", ".intercalate (vs.map Value.text) ++ "]").getD ""
  let check := (rule.validator.map fun v => ", " ++ v.expectation).getD ""
  name ++ ": " ++ rule.tag.name ++ required ++ default ++ allowed ++ check

/-- A function and its parameters. -/
def contractLines (c : Contract) : List String :=
  (c.key ++ "  " ++ c.description) ::
    c.parameters.entries.map fun e => "    " ++ paramLine c e.1 e.2

/-- The output for all families. -/
def showFamilies (r : Registry) : String :=
  ofLines (r.families.map (familyLine r))

/-- The output for the functions of a family. -/
def showFunctions (family : String) (cs : List Contract) : String :=
  ofLines <|
    if cs.isEmpty then [s!"family `{family}` has no functions"] else cs.flatMap contractLines

end Directive.CommandLine
