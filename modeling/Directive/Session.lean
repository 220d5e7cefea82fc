import Directive.Engine

/-!
# Sessions

A session is an engine in use, with its definition file, the registries that were set aside, and
the command that was read last.  `Session.step` is the answer to one operation, `Session.run` to a
sequence of them.
-/

namespace Directive

/-- An engine in use. -/
structure Session where
  engine : Engine
  /-- The contents of the definition file. -/
  file : Option String
  /-- The registries that were set aside. -/
  snapshots : Array Registry
  /-- The command that was read last. -/
  last : Option Command

/-- What can be asked of an engine in use. -/
inductive Operation where
  | parse (text : String)
  | parseSyntax (text : String)
  /-- Plans a command, or the one that was read last if none is given. -/
  | plan (command : Option Command := none)
  | extract (text : String)
  | functions (family : String)
  /-- Gives the definition file new contents, or removes it. -/
  | write (contents : Option String)
  | reload
  | swap (registry : Registry)
  | snapshot
  | schema
  | schemaOf (snapshot : Nat)
  | parseOn (snapshot : Nat) (text : String)
  | settings

/-- What an engine in use answers. -/
inductive Answer where
  | done
  | failed (failure : Failure)
  | command (c : Command)
  | commands (cs : List Command)
  | invocation (i : Option Invocation)
  | contracts (cs : List Contract)
  | registry (r : Registry)
  | number (n : Nat)
  | settings (config : Config)

namespace Session

/-- A new session with an engine. -/
def ofEngine (e : Engine) (file : Option String) : Session :=
  ⟨e, file, #[], none⟩

/-- The answer to the reading of a command, which is remembered. -/
def remember (s : Session) : Except Report Command → Session × Answer
  | .ok c => ({ s with last := some c }, .command c)
  | .error r => (s, .failed (.parse r))

/-- A registry that was set aside; numbers that were not given out name an empty one. -/
def setAside (s : Session) (snapshot : Nat) : Registry :=
  s.snapshots.getD snapshot .empty

/-- One operation: the session afterwards and the answer. -/
def step (s : Session) : Operation → Session × Answer
  | .parse text => s.remember (s.engine.parse text)
  | .parseSyntax text => s.remember (Directive.parseSyntax text)
  | .plan command => (s, .invocation ((command.or s.last).bind s.engine.plan))
  | .extract text => (s, .commands (s.engine.extract text))
  | .functions family =>
    match s.engine.familyContracts family with
    | .ok cs => (s, .contracts cs)
    | .error failure => (s, .failed failure)
  | .write contents => ({ s with file := contents }, .done)
  | .reload =>
    match s.engine.reload s.file with
    | .ok engine => ({ s with engine }, .done)
    | .error failure => (s, .failed failure)
  | .swap r =>
    let (engine, previous) := s.engine.swap r
    ({ s with engine }, .registry previous)
  | .snapshot =>
    ({ s with snapshots := s.snapshots.push s.engine.registry }, .number s.snapshots.size)
  | .schema => (s, .registry s.engine.registry)
  | .schemaOf snapshot => (s, .registry (s.setAside snapshot))
  | .parseOn snapshot text =>
    match (s.setAside snapshot).parse text with
    | .ok c => (s, .command c)
    | .error r => (s, .failed (.parse r))
  | .settings => (s, .settings s.engine.config)

/-- A sequence of operations: the session afterwards and the answers in order. -/
def run (s : Session) : List Operation → Session × List Answer
  | [] => (s, [])
  | op :: ops =>
    let (s, answer) := s.step op
    let (s, answers) := s.run ops
    (s, answer :: answers)

end Session

end Directive
