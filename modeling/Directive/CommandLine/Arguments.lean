import Directive.CommandLine.Level

/-!
# Command-line arguments

The arguments name a task by a verb.  The level before the verb is settled after that of the verb;
of a setting that stands on both levels, the one after the verb counts.
-/

namespace Directive.CommandLine

/-- What the command line can be asked to do. -/
inductive Task where
  /-- Reads one directive. -/
  | parse (directive : String) (syntaxOnly json : Bool)
  /-- Finds the directives in a file, or in the standard input. -/
  | extract (file : Option String) (json : Bool)
  /-- Lists the tokens of one directive. -/
  | tokens (directive : String)
  /-- Lists the families, or the functions of one family. -/
  | schema (family : Option String)
deriving DecidableEq, Repr

/-- A task and the settings under which it is done. -/
structure Arguments where
  task : Task
  /-- The path of the configuration file. -/
  config : Option String
  /-- The path of the definition file, in place of the one in the configuration. -/
  registry : Option String
  logLevel : String
deriving DecidableEq, Repr

/-! ### Tasks -/

/-- The task of a verb with the arguments of its level. -/
def Verb.task (verb : Verb) (l : Level) : Except UsageFault Task :=
  match verb, l.operand with
  | .parse, some directive => .ok (.parse directive (l.has .syntaxOnly) (l.has .json))
  | .extract, file => .ok (.extract file (l.has .json))
  | .tokens, some directive => .ok (.tokens directive)
  | .schema, family => .ok (.schema family)
  | _, none => .error .missingRequiredArgument

/-- What comes of a request for help on what the words name. -/
def helpOn : List String → UsageFault
  | [] => .displayHelp
  | [word] => if isSubcommand word then .displayHelp else .invalidSubcommand
  | _ => .invalidSubcommand

/-- What comes of arguments without a subcommand. -/
def withoutSubcommand (root : Level) : Except UsageFault Arguments := do
  let root ← root.settle
  .error (if root.settings.isEmpty then .displayHelpOnMissing else .missingSubcommand)

/-- The value of a setting on either level; the one after the verb goes first. -/
def settingOf (root level : Level) (s : Setting) : Option String :=
  level.setting? s <|> root.setting? s

/-- Reads arguments. -/
def Arguments.read (args : List String) : Except UsageFault Arguments := do
  let (root, rest) ← Level.takeAll .root {} args
  match rest with
  | [] => withoutSubcommand root
  | word :: rest =>
    match Verb.ofName? word with
    | none => .error (helpOn rest)
    | some verb =>
      let (level, _) ← Level.takeAll (.verb verb) {} rest
      let level ← level.settle
      let task ← verb.task level
      let root ← root.settle
      let setting := settingOf root level
      return ⟨task, setting .config, setting .registry, (setting .logLevel).getD "warn"⟩

end Directive.CommandLine
