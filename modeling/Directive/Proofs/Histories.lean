import Directive.Session

/-!
# Histories of sessions

What a session has become after a sequence of operations is described here without running it.
The definition file holds what was written last, and the current registry is the one that was
installed last, by a successful reload or an exchange.  A step lemma says what one operation does to
each part of a session; the statements about whole runs follow by induction on the operations.
-/

namespace Directive

/-! ### What one operation writes and installs -/

namespace Operation

/-- The contents of the definition file after an operation. -/
def fileAfter (file : Option String) : Operation → Option String
  | .write contents => contents
  | _ => file

/-- The registry that an operation puts in place, when the definition file contains `file`; a reload
that fails puts none in place. -/
def installs? (config : Config) (file : Option String) : Operation → Option Registry
  | .reload => (Engine.load config file).toOption
  | .swap r => some r
  | _ => none

end Operation

namespace Session

variable (s : Session)

/-- The contents of the definition file after a sequence of operations. -/
def fileAfter (ops : List Operation) : Option String :=
  ops.foldl Operation.fileAfter s.file

/-- The registries that operations put in place, in order, when the definition file contains `file`
before the first of them. -/
def installations (config : Config) : Option String → List Operation → List Registry
  | _, [] => []
  | file, op :: ops =>
    (op.installs? config file).toList ++ installations config (op.fileAfter file) ops

/-- The registry that is current after a sequence of operations: the one put in place last, and the
one at the beginning if none was. -/
def current (ops : List Operation) : Registry :=
  ((installations s.engine.config s.file ops).getLast?).getD s.engine.registry

/-! ### Steps -/

/-- Loading an engine again replaces its registry by what its configuration describes. -/
theorem reload_eq (e : Engine) (source : Option String) :
    e.reload source = (Engine.load e.config source).map fun r => ⟨e.config, r⟩ := by
  rw [Engine.reload]
  cases Engine.load e.config source <;> rfl

/-- Reading a command changes what is remembered and nothing else. -/
theorem remember_frame (outcome : Except Report Command) :
    (s.remember outcome).1.engine = s.engine ∧ (s.remember outcome).1.file = s.file ∧
      (s.remember outcome).1.snapshots = s.snapshots := by
  cases outcome <;> exact ⟨rfl, rfl, rfl⟩

/-- What one operation does to a session: the configuration stays, the registry that the operation
installs is put in place, the file changes when it is written, and the registries that were set
aside stay where they are. -/
theorem step_frame (op : Operation) :
    (s.step op).1.engine =
        ⟨s.engine.config, (op.installs? s.engine.config s.file).getD s.engine.registry⟩ ∧
      (s.step op).1.file = op.fileAfter s.file ∧
      s.snapshots.toList <+: (s.step op).1.snapshots.toList := by
  cases op with
  | parse text =>
    obtain ⟨hengine, hfile, hsnapshots⟩ := s.remember_frame (s.engine.parse text)
    exact ⟨hengine, hfile, hsnapshots ▸ List.prefix_rfl⟩
  | parseSyntax text =>
    obtain ⟨hengine, hfile, hsnapshots⟩ := s.remember_frame (Directive.parseSyntax text)
    exact ⟨hengine, hfile, hsnapshots ▸ List.prefix_rfl⟩
  | functions family =>
    simp only [step]
    cases s.engine.familyContracts family <;> exact ⟨rfl, rfl, List.prefix_rfl⟩
  | parseOn n text =>
    simp only [step]
    cases (s.setAside n).parse text <;> exact ⟨rfl, rfl, List.prefix_rfl⟩
  | reload =>
    -- whether the load succeeds decides both what is installed and which session is left
    simp only [step, Operation.installs?, reload_eq]
    cases Engine.load s.engine.config s.file <;> exact ⟨rfl, rfl, List.prefix_rfl⟩
  | snapshot => exact ⟨rfl, rfl, by simp [step]⟩
  | _ => exact ⟨rfl, rfl, List.prefix_rfl⟩

/-! ### Runs -/

@[simp] theorem run_nil : s.run [] = (s, []) :=
  rfl

@[simp] theorem run_cons (op : Operation) (ops : List Operation) :
    s.run (op :: ops) =
      (((s.step op).1.run ops).1, (s.step op).2 :: ((s.step op).1.run ops).2) :=
  rfl

/-- A run of two sequences goes on with the second where the first stopped. -/
theorem run_append (before after : List Operation) :
    s.run (before ++ after) =
      (((s.run before).1.run after).1, (s.run before).2 ++ ((s.run before).1.run after).2) := by
  induction before generalizing s with
  | nil => rfl
  | cons op ops ih => simp [ih]

/-- Every operation has one answer. -/
theorem length_answers (ops : List Operation) : (s.run ops).2.length = ops.length := by
  induction ops generalizing s with
  | nil => rfl
  | cons op ops ih => simp [ih]

/-- After a run the file holds what was written last. -/
theorem file_run (ops : List Operation) : (s.run ops).1.file = s.fileAfter ops := by
  induction ops generalizing s with
  | nil => rfl
  | cons op ops ih =>
    obtain ⟨-, hfile, -⟩ := s.step_frame op
    rw [run_cons, ih, fileAfter, fileAfter, hfile, List.foldl_cons]

/-- After a run the engine has its old configuration and the registry that was installed last. -/
theorem engine_run (ops : List Operation) :
    (s.run ops).1.engine = ⟨s.engine.config, s.current ops⟩ := by
  induction ops generalizing s with
  | nil => rfl
  | cons op ops ih =>
    obtain ⟨hengine, hfile, -⟩ := s.step_frame op
    rw [run_cons, ih, current, current, hengine, hfile]
    simp only [installations, List.getLast?_append]
    cases (installations s.engine.config (op.fileAfter s.file) ops).getLast? <;>
      cases op.installs? s.engine.config s.file <;> rfl

/-- A run keeps the registries that were set aside where they are. -/
theorem snapshots_run (ops : List Operation) :
    s.snapshots.toList <+: (s.run ops).1.snapshots.toList := by
  induction ops generalizing s with
  | nil => exact List.prefix_rfl
  | cons op ops ih =>
    obtain ⟨-, -, hsnapshots⟩ := s.step_frame op
    exact hsnapshots.trans (ih _)

/-- A registry that was set aside can be asked for after any run. -/
theorem setAside_run {n : Nat} (h : n < s.snapshots.size) (ops : List Operation) :
    (s.run ops).1.setAside n = s.setAside n := by
  obtain ⟨added, hadded⟩ := s.snapshots_run ops
  rw [setAside, setAside, Array.getD_eq_getD_getElem?, Array.getD_eq_getD_getElem?,
    ← Array.getElem?_toList, ← Array.getElem?_toList, ← hadded, List.getElem?_append_left]
  simpa using h

/-! ### Installations -/

/-- A reload that fails is answered by its failure and leaves the session as it was. -/
theorem step_reload_of_error {failure : Failure}
    (h : Engine.load s.engine.config s.file = .error failure) :
    s.step .reload = (s, .failed failure) := by
  simp only [step, reload_eq, h, Except.map]

/-- A reload that succeeds puts the engine in place that would be started now. -/
theorem step_reload_of_ok {fresh : Engine}
    (h : Engine.start s.engine.config s.file = .ok fresh) :
    s.step .reload = ({ s with engine := fresh }, .done) := by
  have h' : s.engine.reload s.file = .ok fresh := h
  simp only [step, h']

/-- Installations are atomic, whatever went before and whatever comes after.  A reload that fails
only adds its own answer to those of the run without it.  A reload that succeeds leaves nothing of
what was installed earlier: the run goes on with the engine that starts from the configuration and
the file's contents.  An exchange answers the registry that was current, and a registry that was set
aside is the same and reads commands the same ever after. -/
theorem installations_atomic (before after : List Operation) :
    (s.run before).1.engine = ⟨s.engine.config, s.current before⟩ ∧
    (∀ failure, Engine.load s.engine.config (s.fileAfter before) = .error failure →
      (s.run (before ++ [.reload])).1 = (s.run before).1 ∧
      ∃ earlier later, earlier.length = before.length ∧
        (s.run (before ++ after)).2 = earlier ++ later ∧
        (s.run (before ++ .reload :: after)).2 = earlier ++ .failed failure :: later) ∧
    (∀ fresh, Engine.start s.engine.config (s.fileAfter before) = .ok fresh →
      (s.run (before ++ .reload :: after)).2 =
        (s.run before).2 ++ .done :: ({ (s.run before).1 with engine := fresh }.run after).2) ∧
    (∀ r, (s.run (before ++ .swap r :: after)).2 =
      (s.run before).2 ++ .registry (s.current before) ::
        ({ (s.run before).1 with engine := ⟨s.engine.config, r⟩ }.run after).2) ∧
    ∃ n, (s.run (before ++ [.snapshot])).2 = (s.run before).2 ++ [.number n] ∧
      ((s.run (before ++ .snapshot :: after)).1.step (.schemaOf n)).2 =
        .registry (s.current before) ∧
      ∀ text, ((s.run (before ++ .snapshot :: after)).1.step (.parseOn n text)).2 =
        match (s.current before).parse text with
        | .ok c => .command c
        | .error r => .failed (.parse r) := by
  have hengine := s.engine_run before
  have hfile := s.file_run before
  refine ⟨hengine, fun failure h => ?_, fun fresh h => ?_, fun r => ?_, ?_⟩
  · have hstep := (s.run before).1.step_reload_of_error (by rw [hengine, hfile]; exact h)
    refine ⟨by simp [run_append, hstep],
      (s.run before).2, ((s.run before).1.run after).2, s.length_answers before, ?_, ?_⟩
    · rw [run_append]
    · rw [run_append, run_cons, hstep]
  · have hstep := (s.run before).1.step_reload_of_ok (by rw [hengine, hfile]; exact h)
    rw [run_append, run_cons, hstep]
  · have hstep : (s.run before).1.step (.swap r) =
        ({ (s.run before).1 with engine := ⟨s.engine.config, r⟩ },
          .registry (s.current before)) := by
      simp only [step, Engine.swap, hengine]
    rw [run_append, run_cons, hstep]
  · have hkept : (s.run (before ++ .snapshot :: after)).1.setAside (s.run before).1.snapshots.size =
        s.current before := by
      rw [run_append, run_cons, setAside_run _ (by simp [step])]
      simp [step, setAside, hengine]
    refine ⟨(s.run before).1.snapshots.size, by simp [run_append, step], ?_, fun text => ?_⟩
    · simp only [step, hkept]
    · simp only [step, hkept]
      cases (s.current before).parse text <;> rfl

/-- A file that defines a function twice fails when the function has been put into the vocabulary
once already; nothing of it reaches the session.  Without the second definition it installs a
registry. -/
theorem installations_atomic_defined_twice :
    let function := "[[function]]\nfamily = \"a\"\nname = \"b\"\n"
    let once := "[[family]]\nname = \"a\"\n" ++ function
    let config : Config := { path := some "a.toml", includeBuiltin := false }
    let s := ofEngine ⟨config, .empty⟩ none
    (Vocabulary.empty.layer (once ++ function)).1.contracts.length = 1 ∧
      (∃ failure, Engine.load config (some (once ++ function)) = .error failure ∧
        (s.run [.write (some (once ++ function)), .reload, .schema]).2 =
          [.done, .failed failure, .registry .empty]) ∧
      ∃ fresh, Engine.start config (some once) = .ok fresh ∧
        fresh.registry.functionCount = 1 ∧
        (s.run [.write (some once), .reload, .schema]).2 =
          [.done, .done, .registry fresh.registry] := by
  intro function once config s
  refine ⟨by decide +kernel, ?_, ?_⟩
  · have hload : (Engine.load config (some (once ++ function))).toOption.isNone := by decide +kernel
    cases h : Engine.load config (some (once ++ function)) with
    | ok r => simp [h, Except.toOption] at hload
    | error failure =>
      have hrun := (s.installations_atomic [.write (some (once ++ function))] [.schema]).2.1
        failure h
      obtain ⟨-, earlier, later, hlength, hwithout, hrun⟩ := hrun
      have hsplit : [Answer.done] ++ [.registry .empty] = earlier ++ later := hwithout
      obtain ⟨rfl, rfl⟩ := List.append_inj hsplit hlength.symm
      exact ⟨failure, rfl, hrun⟩
  · have hstart : ((Engine.start config (some once)).toOption.any fun fresh =>
        fresh.registry.functionCount == 1) := by decide +kernel
    cases h : Engine.start config (some once) with
    | error failure => simp [h, Except.toOption] at hstart
    | ok fresh =>
      have hrun := (s.installations_atomic [.write (some once)] [.schema]).2.2.1 fresh h
      exact ⟨fresh, rfl, by simpa [h, Except.toOption] using hstart, hrun⟩

end Session

end Directive
