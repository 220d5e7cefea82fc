import Directive.CommandLine.Run

/-!
# The program

The outer layer of the command line: it reads the arguments and the files they name, and prints what
`CommandLine.run` gives.  Failures go to the standard error.
-/

namespace Directive.CommandLine

/-- How the program is called. -/
def usage : String :=
  ofLines
    ["Usage: pareto [OPTIONS] <COMMAND>",
      "",
      "Commands:",
      "  parse [--syntax-only] [--json] <DIRECTIVE>  Parse and validate a single directive",
      "  extract [--json] [FILE]                     Extract every valid directive from a text",
      "  tokens <DIRECTIVE>                          Print the token stream of a directive",
      "  schema [FAMILY]                             List families, or functions of one family",
      "",
      "Options:",
      "  -c, --config <PATH>      Path to configuration file (TOML)",
      "  -r, --registry <PATH>    Path to a registry definition file (TOML)",
      "      --log-level <LEVEL>  Log level (off, error, warn, info, debug, trace)",
      "  -h, --help               Print help",
      "  -V, --version            Print version"]

/-- The levels of logging. -/
def logLevels : List String :=
  ["off", "error", "warn", "info", "debug", "trace"]

/-- A failure as the program tells it. -/
def tellFailure : Failure → String
  | .parse report =>
    report.diagnostic.headline ++ String.ofList (report.pointer.toList.dropWhile (· != '\n')) ++
      (report.diagnostic.help.map ("\nhelp: " ++ ·)).getD ""
  | failure => failure.message

/-- Whether there is a file at a path. -/
def isFileThere (path : String) : IO Bool := do
  try
    let _ ← IO.FS.Handle.mk path .read
    return true
  catch
    | .noFileOrDirectory .. | .inappropriateType .. => return false
    | _ => return true

/-- What an action gives, unless it fails. -/
def unlessFailing {α : Type} (action : IO α) : IO (Option α) := do
  try
    return some (← action)
  catch _ => return none

/-- The path of the user's own configuration file. -/
def userConfigPath : IO (Option String) := do
  match ← IO.getEnv "XDG_CONFIG_HOME", ← IO.getEnv "HOME" with
  | some directory, home =>
    if directory.startsWith "/" then return some (directory ++ "/" ++ localConfig)
    else return home.map (· ++ "/.config/" ++ localConfig)
  | none, home => return home.map (· ++ "/.config/" ++ localConfig)

/-- The real surroundings. -/
def realSurroundings : Surroundings IO where
  isThere := isFileThere
  contents? path := unlessFailing (IO.FS.readFile path)
  input? := unlessFailing do (← IO.getStdin).readToEnd
  userConfig? := userConfigPath

/-- Reports arguments that name no task; a request for help or for the version is no failure. -/
def reportUsage (fault : UsageFault) : IO UInt32 := do
  match fault with
  | .displayHelp => IO.print usage; return 0
  | .displayVersion => IO.println "pareto 0.1.0"; return 0
  | .displayHelpOnMissing => IO.eprint usage; return 2
  | _ => IO.eprint s!"error: {fault.name}\n\n{usage}"; return 2

/-- Does what the arguments ask for; the result is the exit code. -/
def runProgram (arguments : List String) : IO UInt32 := do
  match Arguments.read arguments with
  | .error fault => reportUsage fault
  | .ok arguments =>
    unless logLevels.contains arguments.logLevel.toLower do
      IO.eprintln s!"Invalid log level: {arguments.logLevel}. Using 'warn' instead."
    match ← (run realSurroundings arguments).run with
    | .ok output => IO.print output; return 0
    | .error failure => IO.eprintln (tellFailure failure); return 1

end Directive.CommandLine

/-- The program. -/
def main (arguments : List String) : IO UInt32 :=
  Directive.CommandLine.runProgram arguments
