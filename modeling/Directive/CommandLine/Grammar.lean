/-!
# Words of the command line

The verbs, settings and flags that arguments can name, where each may stand, and how an argument
looks before it is known what it means.
-/

namespace Directive.CommandLine

/-! ### Faults -/

/-- Why arguments name no task. -/
inductive UsageFault where
  | displayHelp
  | displayVersion
  | displayHelpOnMissing
  | missingSubcommand
  | invalidSubcommand
  | missingRequiredArgument
  | unknownArgument
  | tooManyValues
  | invalidValue
  | argumentConflict
deriving DecidableEq, Repr

/-- The name of a fault. -/
def UsageFault.name : UsageFault → String
  | .displayHelp => "DisplayHelp"
  | .displayVersion => "DisplayVersion"
  | .displayHelpOnMissing => "DisplayHelpOnMissingArgumentOrSubcommand"
  | .missingSubcommand => "MissingSubcommand"
  | .invalidSubcommand => "InvalidSubcommand"
  | .missingRequiredArgument => "MissingRequiredArgument"
  | .unknownArgument => "UnknownArgument"
  | .tooManyValues => "TooManyValues"
  | .invalidValue => "InvalidValue"
  | .argumentConflict => "ArgumentConflict"

/-! ### Words -/

/-- The verbs that name a task. -/
inductive Verb where
  | parse
  | extract
  | tokens
  | schema
deriving DecidableEq, Repr

/-- The verb with a name. -/
def Verb.ofName? (name : String) : Option Verb :=
  match name with
  | "parse" => some .parse
  | "extract" => some .extract
  | "tokens" => some .tokens
  | "schema" => some .schema
  | _ => none

/-- The word that asks for help on a verb. -/
def helpWord : String := "help"

/-- Whether the level before the verb ends with this word. -/
def isSubcommand (word : String) : Bool :=
  word == helpWord || (Verb.ofName? word).isSome

/-- What takes a value. -/
inductive Setting where
  | config
  | registry
  | logLevel
deriving DecidableEq, Repr

/-- What takes no value. -/
inductive Flag where
  | help
  | version
  | syntaxOnly
  | json
deriving DecidableEq, Repr

/-- What can begin with a dash. -/
inductive Key where
  | setting (s : Setting)
  | flag (f : Flag)
deriving DecidableEq, Repr

/-- A level of the arguments. -/
inductive Scope where
  | root
  | verb (v : Verb)
deriving DecidableEq, Repr

namespace Scope

/-- The flags of a level. -/
def flags : Scope → List Flag
  | .root => [.help, .version]
  | .verb .parse => [.help, .syntaxOnly, .json]
  | .verb .extract => [.help, .json]
  | .verb _ => [.help]

/-- The flag, if the level has it. -/
def flag? (scope : Scope) (f : Flag) : Option Key :=
  if scope.flags.contains f then some (.flag f) else none

/-- What a word after two dashes means. -/
def long? (scope : Scope) (word : String) : Option Key :=
  match word with
  | "config" => some (.setting .config)
  | "registry" => some (.setting .registry)
  | "log-level" => some (.setting .logLevel)
  | "help" => scope.flag? .help
  | "version" => scope.flag? .version
  | "syntax-only" => scope.flag? .syntaxOnly
  | "json" => scope.flag? .json
  | _ => none

/-- What a letter after one dash means. -/
def short? (scope : Scope) (letter : Char) : Option Key :=
  match letter with
  | 'c' => some (.setting .config)
  | 'r' => some (.setting .registry)
  | 'h' => scope.flag? .help
  | 'V' => scope.flag? .version
  | _ => none

end Scope

/-- An argument by its looks. -/
inductive Argument where
  /-- Two dashes alone, after which all arguments are operands. -/
  | ending
  | long (word : String) (value : Option String)
  | short (letters : List Char)
  | operand (text : String)
deriving DecidableEq, Repr

/-- How an argument looks; a dash alone is an operand. -/
def Argument.ofText (text : String) : Argument :=
  match text.toList with
  | ['-', '-'] => .ending
  | '-' :: '-' :: cs =>
    .long (String.ofList (cs.takeWhile (· != '=')))
      (match cs.dropWhile (· != '=') with
        | [] => none
        | _ :: value => some (String.ofList value))
  | '-' :: c :: cs => .short (c :: cs)
  | _ => .operand text

end Directive.CommandLine
