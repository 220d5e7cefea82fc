import Directive.CommandLine.Arguments
import Directive.CommandLine.Output

/-!
# Running a task

The configuration is found first, then the engine is loaded, then the task is done.  What a task
needs from outside comes through `Surroundings`, over a monad of one's choice; so the same
definitions run on the real file system and on one that is a function.
-/

namespace Directive.CommandLine

/-- What a task can get from outside; a file that cannot be read has no contents. -/
structure Surroundings (m : Type → Type) where
  /-- Whether there is something at a path. -/
  isThere : String → m Bool
  /-- The contents of the file at a path. -/
  contents? : String → m (Option String)
  /-- The standard input. -/
  input? : m (Option String)
  /-- The path of the user's own configuration file. -/
  userConfig? : m (Option String)

/-- The path of a project's configuration file. -/
def localConfig : String := "pareto/config.toml"

variable {m : Type → Type} [Monad m]

/-- The contents of a file that must be readable. -/
def readFile (w : Surroundings m) (path : String) : ExceptT Failure m String := do
  match ← w.contents? path with
  | some text => return text
  | none => throw (.file (.unreadable path))

/-- The standard input, which must be readable. -/
def readInput (w : Surroundings m) : ExceptT Failure m String := do
  match ← w.input? with
  | some text => return text
  | none => throw (.file (.unreadable "standard input"))

/-- Reads a configuration file. -/
def configFromFile (w : Surroundings m) (path : String) : ExceptT Failure m Config := do
  if ← w.isThere path then
    match Config.ofText? (← readFile w path) with
    | some config => return config
    | none => throw (.file .malformedConfig)
  else throw (.file (.missingConfig path))

/-- Reads the first of the configuration files that is there; without any the defaults count. -/
def configFromFirst (w : Surroundings m) : List String → ExceptT Failure m Config
  | [] => return {}
  | path :: paths => do
    if ← w.isThere path then configFromFile w path else configFromFirst w paths

/-- Finds the configuration: the file that was asked for, or else the project's, or else the
user's. -/
def findConfig (w : Surroundings m) : Option String → ExceptT Failure m Config
  | some path => configFromFile w path
  | none => do configFromFirst w (localConfig :: (← w.userConfig?).toList)

/-- Loads the engine for arguments. -/
def loadEngine (w : Surroundings m) (args : Arguments) : ExceptT Failure m Engine := do
  let found ← findConfig w args.config
  let config := { found with path := args.registry <|> found.path }
  let source ←
    match config.path with
    | some path => w.contents? path
    | none => pure none
  ExceptT.mk (pure (Engine.start config source))

/-- Does a task on an engine. -/
def perform (w : Surroundings m) (e : Engine) : Task → ExceptT Failure m String
  | .parse directive true json =>
    match parseSyntax directive with
    | .ok c => return showCommand json c none
    | .error report => throw (.parse report)
  | .parse directive false json =>
    match e.parse directive with
    | .ok c => return showCommand json c (e.plan c)
    | .error report => throw (.parse report)
  | .extract file json => do
    let text ←
      match file with
      | some path => readFile w path
      | none => readInput w
    return showCommands json (e.extract text)
  | .tokens directive => return showTokens (scan directive)
  | .schema none => return showFamilies e.registry
  | .schema (some family) =>
    match e.familyContracts family with
    | .ok cs => return showFunctions family cs
    | .error failure => throw failure

/-- Does what arguments ask for; the result is the text to print. -/
def run (w : Surroundings m) (args : Arguments) : ExceptT Failure m String := do
  perform w (← loadEngine w args) args.task

end Directive.CommandLine
