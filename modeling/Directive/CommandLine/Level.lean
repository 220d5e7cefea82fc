import Directive.CommandLine.Grammar

/-!
# Levels of arguments

Settings may stand on both levels, before the verb and after it.  The value of a setting is attached
to it (`-cX`, `-c=X`, `--config=X`) or is the next argument, unless that looks like an option.

A setting whose value is to come in the next argument stays pending, and so does one whose value
has come.  It is settled, which is when a missing value or a repetition is noticed, before the next
setting, flag or operand of its level is taken in and at the end of the level.  An argument that
cannot be taken in at all is a fault at once.
-/

namespace Directive.CommandLine

/-- What has been taken in on a level. -/
structure Level where
  settings : List (Setting × String) := []
  flags : List Flag := []
  operand : Option String := none
  /-- The setting that is not yet settled, with its value if that has come. -/
  pending : Option (Setting × Option String) := none
  /-- Whether only operands can follow. -/
  ended : Bool := false
deriving DecidableEq, Repr

namespace Level

/-- Whether the next operand is the value of the pending setting. -/
def awaits (l : Level) : Bool :=
  !l.ended && l.pending.any fun p => p.2.isNone

/-- The value of a setting. -/
def setting? (l : Level) (s : Setting) : Option String :=
  l.settings.lookup s

/-- Whether a flag was given. -/
def has (l : Level) (f : Flag) : Bool :=
  l.flags.contains f

/-- The level with a setting that must not be there yet. -/
def record (l : Level) (s : Setting) (value : String) : Except UsageFault Level :=
  if (l.setting? s).isSome then .error .argumentConflict
  else .ok { l with settings := l.settings ++ [(s, value)] }

/-- The level with nothing pending. -/
def settle (l : Level) : Except UsageFault Level :=
  match l.pending with
  | none => .ok l
  | some (_, none) => .error .invalidValue
  | some (s, some value) => { l with pending := none }.record s value

/-- Takes in a setting with the value attached to it, if there is one. -/
def takeSetting (l : Level) (s : Setting) (attached : Option String) :
    Except UsageFault Level := do
  let l ← l.settle
  match attached with
  | some value => l.record s value
  | none => return { l with pending := some (s, none) }

/-- Takes in a flag. -/
def takeFlag (l : Level) (f : Flag) : Except UsageFault Level := do
  let l ← l.settle
  match f with
  | .help => .error .displayHelp
  | .version => .error .displayVersion
  | f => if l.has f then .error .argumentConflict else return { l with flags := l.flags ++ [f] }

/-- Takes in an operand.  Before the verb there are none, and every verb has at most one. -/
def takeOperand (scope : Scope) (l : Level) (text : String) : Except UsageFault Level :=
  if l.awaits then
    .ok { l with pending := l.pending.map fun p => (p.1, some text) }
  else
    match scope with
    | .root =>
      .error (if l.ended && isSubcommand text then .unknownArgument else .invalidSubcommand)
    | .verb _ =>
      if l.operand.isSome then .error .unknownArgument
      else do return { ← l.settle with operand := some text }

/-- Takes in what follows two dashes. -/
def takeLong (scope : Scope) (l : Level) (word : String) (attached : Option String) :
    Except UsageFault Level :=
  match scope.long? word, attached with
  | none, _ => .error .unknownArgument
  | some (.setting s), attached => l.takeSetting s attached
  | some (.flag f), none => l.takeFlag f
  | some (.flag _), some _ => .error .tooManyValues

/-- The value attached to a letter; an equals sign in front of it is not part of it. -/
def attached? : List Char → Option String
  | [] => none
  | '=' :: cs => some (String.ofList cs)
  | cs => some (String.ofList cs)

/-- Takes in the letters that follow one dash. -/
def takeShort (scope : Scope) (l : Level) : List Char → Except UsageFault Level
  | [] => .ok l
  | c :: cs =>
    match scope.short? c with
    | none => .error .unknownArgument
    | some (.setting s) => l.takeSetting s (attached? cs)
    | some (.flag f) => do takeShort scope (← l.takeFlag f) cs

/-- Takes in one argument. -/
def take (scope : Scope) (l : Level) (text : String) : Except UsageFault Level :=
  if l.ended then l.takeOperand scope text
  else
    match Argument.ofText text with
    | .ending => .ok { l with ended := true }
    | .long word attached => l.takeLong scope word attached
    | .short letters => l.takeShort scope letters
    | .operand text => l.takeOperand scope text

/-- Whether the level ends before this argument. -/
def endsBefore (scope : Scope) (l : Level) (text : String) : Bool :=
  scope == .root && !l.ended && !l.awaits && isSubcommand text

/-- Takes in the arguments of a level, and leaves those that begin with a subcommand. -/
def takeAll (scope : Scope) (l : Level) : List String → Except UsageFault (Level × List String)
  | [] => .ok (l, [])
  | a :: as =>
    if l.endsBefore scope a then .ok (l, a :: as)
    else do takeAll scope (← l.take scope a) as

end Level

end Directive.CommandLine
