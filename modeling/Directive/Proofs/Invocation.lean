import Directive.Invocation
import Directive.Proofs.Building

/-!
# What a handler is called with

The arguments of a call are put together one parameter after the other: a parameter that the handler
renames takes its new name in any case, and one that it does not only if the name is still free.  So
an argument comes either from a parameter that is renamed to it or from the parameter of its own
name, if no other one is renamed to it (`Handler.Supplies`).  That this is all, whatever the order,
needs that no two parameters are renamed alike, which is what the check of a contract sees to.
-/

namespace Directive

namespace Handler

variable {h : Handler} {parameters : OrderedMap Value}

/-- The name of the argument that a parameter becomes. -/
def argumentName (h : Handler) (n : String) : String :=
  (h.mapping.get? n).getD n

/-! ### One parameter -/

theorem names_addArgument (h : Handler) (m : OrderedMap Value) (n : String) (x : Value) :
    (h.addArgument m n x).names =
      if h.argumentName n ∈ m.names then m.names else m.names ++ [h.argumentName n] := by
  unfold addArgument argumentName
  cases h.mapping.get? n with
  | some t => exact m.names_insert t x
  | none =>
    dsimp only
    rw [apply_ite OrderedMap.names, m.names_insert, Option.getD_none]
    split_ifs with hcontains hmem
    · rfl
    · exact absurd (OrderedMap.contains_iff.mp hcontains) hmem
    · exact absurd (OrderedMap.contains_iff.mpr ‹_›) hcontains
    · rfl

/-- A parameter that is renamed takes its new name from whatever has it. -/
theorem get?_addArgument_renamed {n t : String} (ht : h.mapping.get? n = some t)
    (m : OrderedMap Value) (x : Value) (k : String) :
    (h.addArgument m n x).get? k = if t = k then some x else m.get? k := by
  unfold addArgument
  rw [ht]
  exact m.get?_insert t k x

/-- A parameter that is not renamed leaves its name to whatever has it. -/
theorem get?_addArgument_kept {n : String} (hn : h.mapping.get? n = none) (m : OrderedMap Value)
    (x : Value) (k : String) :
    (h.addArgument m n x).get? k = (m.get? k).or (if n = k then some x else none) := by
  unfold addArgument
  rw [hn]
  dsimp only
  split_ifs with hcontains hk hk
  · subst hk
    cases hget : m.get? n with
    | none =>
      exact absurd (OrderedMap.contains_iff.mp hcontains) (OrderedMap.get?_eq_none_iff.mp hget)
    | some y => rfl
  · exact (Option.or_none).symm
  · subst hk
    have hget : m.get? n = none :=
      OrderedMap.get?_eq_none_iff.mpr fun hmem => hcontains (OrderedMap.contains_iff.mpr hmem)
    rw [m.get?_insert, if_pos rfl, hget, Option.none_or]
  · rw [m.get?_insert, if_neg hk, Option.or_none]

/-! ### All parameters -/

/-- The arguments for a list of entries. -/
def argumentsOf (h : Handler) (es : List (String × Value)) : OrderedMap Value :=
  es.foldl (fun m e => h.addArgument m e.1 e.2) .empty

theorem argumentsOf_concat (h : Handler) (es : List (String × Value)) (e : String × Value) :
    h.argumentsOf (es ++ [e]) = h.addArgument (h.argumentsOf es) e.1 e.2 := by
  unfold argumentsOf
  rw [List.foldl_append]
  rfl

theorem names_argumentsOf (h : Handler) (es : List (String × Value)) :
    (h.argumentsOf es).names = (es.map fun e => h.argumentName e.1).eraseDups := by
  induction es using List.reverseRecOn with
  | nil => rfl
  | append_singleton es e ih =>
    rw [argumentsOf_concat, names_addArgument, ih, List.map_append, List.map_singleton,
      eraseDups_concat]
    exact if_congr List.mem_eraseDups rfl rfl

/-- What the handler is given under a name: the value of a parameter that is renamed to it, or that
of the parameter with this name, if it keeps the name and no other parameter takes it. -/
inductive Supplies (h : Handler) (es : List (String × Value)) (k : String) (x : Value) : Prop
  | renamed {n : String} :
      (n, x) ∈ es → h.mapping.get? n = some k → Supplies h es k x
  | kept :
      (k, x) ∈ es → h.mapping.get? k = none → (∀ e ∈ es, h.mapping.get? e.1 ≠ some k) →
        Supplies h es k x

/-- No two parameters have the same new name. -/
theorem eq_of_mapping (hh : h.mapping.values.Nodup) {n n' t : String}
    (hn : h.mapping.get? n = some t) (hn' : h.mapping.get? n' = some t) : n = n' := by
  have hmem : (n, t) ∈ h.mapping.entries := OrderedMap.mem_entries_iff.mpr hn
  have hmem' : (n', t) ∈ h.mapping.entries := OrderedMap.mem_entries_iff.mpr hn'
  exact congrArg Prod.fst (List.inj_on_of_nodup_map hh hmem hmem' rfl)

/-- A parameter that is renamed decides on its new name. -/
theorem supplies_concat_self (hh : h.mapping.values.Nodup) {es : List (String × Value)}
    {n t : String} {x y : Value} (ht : h.mapping.get? n = some t) (hn : n ∉ es.map Prod.fst) :
    h.Supplies (es ++ [(n, y)]) t x ↔ y = x := by
  constructor
  · rintro (⟨hmem, hm⟩ | ⟨-, -, hno⟩)
    · rw [eq_of_mapping hh hm ht] at hmem
      rcases List.mem_append.mp hmem with hmem | hmem
      · exact absurd (List.mem_map_of_mem hmem) hn
      · exact (congrArg Prod.snd (List.mem_singleton.mp hmem)).symm
    · exact absurd ht (hno (n, y) (by simp))
  · rintro rfl
    exact .renamed (by simp) ht

/-- It leaves all other names alone. -/
theorem supplies_concat_of_ne {es : List (String × Value)} {n t k : String} {x y : Value}
    (ht : h.mapping.get? n = some t) (hk : t ≠ k) :
    h.Supplies (es ++ [(n, y)]) k x ↔ h.Supplies es k x := by
  have hrenamed : h.mapping.get? n ≠ some k := fun hm => hk (Option.some.inj (ht.symm.trans hm))
  constructor
  · rintro (⟨hmem, hm⟩ | ⟨hmem, hkept, hno⟩)
    · rcases List.mem_append.mp hmem with hmem | hmem
      · exact .renamed hmem hm
      · cases List.mem_singleton.mp hmem
        exact absurd hm hrenamed
    · rcases List.mem_append.mp hmem with hmem | hmem
      · exact .kept hmem hkept fun e he => hno e (List.mem_append_left _ he)
      · cases List.mem_singleton.mp hmem
        rw [ht] at hkept
        cases hkept
  · rintro (⟨hmem, hm⟩ | ⟨hmem, hkept, hno⟩)
    · exact .renamed (List.mem_append_left _ hmem) hm
    · exact .kept (List.mem_append_left _ hmem) hkept
        (List.forall_mem_append.mpr ⟨hno, List.forall_mem_singleton.mpr hrenamed⟩)

/-- One more parameter that is renamed. -/
theorem supplies_concat_renamed (hh : h.mapping.values.Nodup) {es : List (String × Value)}
    {n t k : String} {x y : Value} (ht : h.mapping.get? n = some t) (hn : n ∉ es.map Prod.fst) :
    h.Supplies (es ++ [(n, y)]) k x ↔ if t = k then y = x else h.Supplies es k x := by
  split_ifs with hk
  · exact hk ▸ supplies_concat_self hh ht hn
  · exact supplies_concat_of_ne ht hk

/-- One more parameter that keeps its name. -/
theorem supplies_concat_kept {es : List (String × Value)} {n k : String} {x y : Value}
    (hkept : h.mapping.get? n = none) (hn : n ∉ es.map Prod.fst) :
    h.Supplies (es ++ [(n, y)]) k x ↔
      h.Supplies es k x ∨ ((∀ z, ¬h.Supplies es k z) ∧ n = k ∧ y = x) := by
  have hlast : ∀ {m z}, (m, z) ∈ es ++ [(n, y)] → h.mapping.get? m ≠ none → (m, z) ∈ es := by
    intro m z hmem hm
    rcases List.mem_append.mp hmem with hmem | hmem
    · exact hmem
    · cases List.mem_singleton.mp hmem
      exact absurd hkept hm
  constructor
  · rintro (⟨hmem, hm⟩ | ⟨hmem, hk, hno⟩)
    · exact Or.inl (.renamed (hlast hmem (by simp [hm])) hm)
    · have hes := (List.forall_mem_append.mp hno).1
      rcases List.mem_append.mp hmem with hmem | hmem
      · exact Or.inl (.kept hmem hk hes)
      · cases List.mem_singleton.mp hmem
        refine Or.inr ⟨fun z hz => ?_, rfl, rfl⟩
        rcases hz with ⟨hz, hm⟩ | ⟨hz, -, -⟩
        · exact hes _ hz hm
        · exact hn (List.mem_map_of_mem hz)
  · rintro ((⟨hmem, hm⟩ | ⟨hmem, hk, hno⟩) | ⟨hnone, rfl, rfl⟩)
    · exact .renamed (List.mem_append_left _ hmem) hm
    · refine .kept (List.mem_append_left _ hmem) hk (List.forall_mem_append.mpr ⟨hno, ?_⟩)
      refine List.forall_mem_singleton.mpr ?_
      rw [hkept]
      exact Option.some_ne_none k |>.symm
    · refine .kept (by simp) hkept (List.forall_mem_append.mpr ⟨fun e he hm => ?_, ?_⟩)
      · exact hnone e.2 (.renamed he hm)
      · refine List.forall_mem_singleton.mpr ?_
        rw [hkept]
        exact Option.some_ne_none n |>.symm

/-- The arguments are what is supplied. -/
theorem get?_argumentsOf (hh : h.mapping.values.Nodup) {es : List (String × Value)}
    (hes : (es.map Prod.fst).Nodup) {k : String} {x : Value} :
    (h.argumentsOf es).get? k = some x ↔ h.Supplies es k x := by
  induction es using List.reverseRecOn generalizing x with
  | nil =>
    refine iff_of_false (by rintro ⟨⟩) ?_
    rintro (⟨hmem, -⟩ | ⟨hmem, -, -⟩) <;> cases hmem
  | append_singleton es e ih =>
    obtain ⟨n, y⟩ := e
    rw [List.map_append, List.map_singleton, ← List.concat_eq_append, List.nodup_concat] at hes
    obtain ⟨hn, hes⟩ := hes
    rw [argumentsOf_concat]
    cases hm : h.mapping.get? n with
    | some t =>
      rw [get?_addArgument_renamed hm, supplies_concat_renamed hh hm hn]
      split_ifs
      · exact Option.some_inj
      · exact ih hes
    | none =>
      have hnone : (h.argumentsOf es).get? k = none ↔ ∀ z, ¬h.Supplies es k z := by
        simp only [Option.eq_none_iff_forall_ne_some, ne_eq, ih hes]
      rw [get?_addArgument_kept hm, supplies_concat_kept hm hn, Option.or_eq_some_iff, ih hes,
        hnone]
      split_ifs with hk <;> simp [hk]

/-- How arguments come from parameters: they are the parameters under the names that the handler has
for them, each name once and at its first place; a parameter that is renamed has its value under the
new name, so it also takes the name of one that is not, and this one has its value under its own
name if no other is renamed to it. -/
structure Renames (h : Handler) (parameters arguments : OrderedMap Value) : Prop where
  names : arguments.names = (parameters.names.map h.argumentName).eraseDups
  renamed : ∀ n x t, parameters.get? n = some x → h.mapping.get? n = some t →
    arguments.get? t = some x
  kept : ∀ n x, parameters.get? n = some x → h.mapping.get? n = none →
    (∀ m ∈ parameters.names, h.mapping.get? m ≠ some n) → arguments.get? n = some x

/-- What a handler is given for parameters. -/
theorem get?_arguments (hh : h.mapping.values.Nodup) {k : String} {x : Value} :
    (h.arguments parameters).get? k = some x ↔ h.Supplies parameters.entries k x :=
  get?_argumentsOf hh parameters.nodup

theorem renames_arguments (hh : h.mapping.values.Nodup) (parameters : OrderedMap Value) :
    h.Renames parameters (h.arguments parameters) where
  names := by
    have hnames := h.names_argumentsOf parameters.entries
    rw [← Function.comp_def h.argumentName Prod.fst, ← List.map_map] at hnames
    exact hnames
  renamed n x t hn ht :=
    (get?_arguments hh).mpr (.renamed (OrderedMap.mem_entries_iff.mpr hn) ht)
  kept n x hn hkept hno :=
    (get?_arguments hh).mpr (.kept (OrderedMap.mem_entries_iff.mpr hn) hkept fun _ he =>
      hno _ (List.mem_map_of_mem he))

/-- What is supplied does not depend on the order of the parameters. -/
theorem Supplies.perm {es es' : List (String × Value)} {k : String} {x : Value}
    (hs : h.Supplies es k x) (hp : es.Perm es') : h.Supplies es' k x := by
  rcases hs with ⟨hmem, hm⟩ | ⟨hmem, hk, hno⟩
  · exact .renamed (hp.mem_iff.mp hmem) hm
  · exact .kept (hp.mem_iff.mp hmem) hk fun e he => hno e (hp.mem_iff.mpr he)

/-- Parameters in another order have the same arguments. -/
theorem get?_arguments_perm (hh : h.mapping.values.Nodup) {parameters' : OrderedMap Value}
    (hp : parameters.entries.Perm parameters'.entries) (k : String) :
    (h.arguments parameters).get? k = (h.arguments parameters').get? k := by
  refine Option.ext fun x => ?_
  rw [get?_arguments hh, get?_arguments hh]
  exact ⟨fun hs => hs.perm hp, fun hs => hs.perm hp.symm⟩

end Handler

namespace Vocabulary

variable {v : Vocabulary} {r : Registry}

/-- The call for a command of a function that is defined. -/
theorem Makes.plan_eq (h : v.Makes r) {contract : Contract} (hmem : contract ∈ v.contracts)
    {c : Command} (hf : contract.family = c.family) (hg : contract.name = c.function) :
    r.plan c = contract.handler.map fun handler =>
      ⟨handler.module, handler.function, handler.arguments c.parameters, c.source⟩ := by
  rw [Registry.plan, h.contract?_eq_some_iff.mpr ⟨hmem, hf, hg⟩, Option.bind_some]

/-- Nothing is called exactly if no function that is defined has the names and a handler. -/
theorem Makes.plan_eq_none_iff (h : v.Makes r) (c : Command) :
    r.plan c = none ↔ ∀ contract ∈ v.contracts, contract.family = c.family →
      contract.name = c.function → contract.handler = none := by
  constructor
  · intro hplan contract hmem hf hg
    rwa [h.plan_eq hmem hf hg, Option.map_eq_none_iff] at hplan
  · intro hno
    cases hcontract : r.contract? c.family c.function with
    | none => rw [Registry.plan, hcontract, Option.bind_none, Option.map_none]
    | some contract =>
      obtain ⟨hmem, hf, hg⟩ := h.contract?_eq_some_iff.mp hcontract
      rw [h.plan_eq hmem hf hg, hno contract hmem hf hg, Option.map_none]

/-- A command asks for a call exactly if its function is defined with a handler.  The call names the
handler, and its arguments are the parameters as the handler renames them; in whatever order the
command gives its parameters, the arguments have the same values. -/
theorem plan_of_build (h : v.build = .ok r) (c : Command) :
    (r.plan c = none ↔ ∀ contract ∈ v.contracts, contract.family = c.family →
        contract.name = c.function → contract.handler = none) ∧
      ∀ contract ∈ v.contracts, contract.family = c.family → contract.name = c.function →
        ∀ handler, contract.handler = some handler →
          ∃ i, r.plan c = some i ∧ i.module = handler.module ∧ i.function = handler.function ∧
            i.source = c.source ∧ handler.Renames c.parameters i.arguments ∧
            ∀ d : Command, d.family = c.family → d.function = c.function →
              c.parameters.entries.Perm d.parameters.entries →
                ∃ j, r.plan d = some j ∧ ∀ k, i.arguments.get? k = j.arguments.get? k := by
  have hmakes := makes_of_build h
  refine ⟨hmakes.plan_eq_none_iff c, fun contract hmem hf hg handler hhandler => ?_⟩
  -- the check of the contract has seen to it that no two parameters are renamed alike
  have hmapping := (hmakes.wellFormed.contracts contract hmem).mapping handler hhandler
  have hplan : ∀ d : Command, d.family = c.family → d.function = c.function → r.plan d =
      some ⟨handler.module, handler.function, handler.arguments d.parameters, d.source⟩ := by
    intro d hdf hdg
    rw [hmakes.plan_eq hmem (hf.trans hdf.symm) (hg.trans hdg.symm), hhandler, Option.map_some]
  refine ⟨_, hplan c rfl rfl, rfl, rfl, rfl, Handler.renames_arguments hmapping c.parameters, ?_⟩
  intro d hdf hdg hp
  exact ⟨_, hplan d hdf hdg, Handler.get?_arguments_perm hmapping hp⟩

/-- Two parameters change their names, and a third one takes the name of a fourth. -/
theorem plan_of_build_swap : ∃ v r, build v = .ok r ∧ ∃ i,
    r.plan ⟨"a", "b", .ofList [("w", .integer 1), ("x", .integer 2), ("y", .integer 3),
      ("z", .integer 4)], ""⟩ = some i ∧ i.arguments.names = ["x", "z", "y"] ∧
        i.arguments.get? "x" = some (.integer 1) ∧ i.arguments.get? "z" = some (.integer 3) := by
  let handler : Handler :=
    { module := "m", function := "f", mapping := .ofList [("w", "x"), ("y", "z"), ("z", "y")] }
  let contract : Contract := { family := "a", name := "b", handler := some handler }
  let v : Vocabulary := ⟨[⟨"a", ""⟩], [contract]⟩
  obtain ⟨r, hr⟩ : ∃ r, v.build = .ok r := by
    unfold v contract handler
    exact ⟨_, rfl⟩
  obtain ⟨i, hi, -, -, -, hrenames, -⟩ := (plan_of_build hr ⟨"a", "b", .ofList [("w", .integer 1),
    ("x", .integer 2), ("y", .integer 3), ("z", .integer 4)], ""⟩).2 contract
      (List.mem_singleton.mpr rfl) rfl rfl handler rfl
  refine ⟨v, r, hr, i, hi, ?_, ?_, ?_⟩
  · rw [hrenames.names]
    decide
  · exact hrenames.renamed "w" _ "x" rfl rfl
  · exact hrenames.renamed "y" _ "z" rfl rfl

end Vocabulary

end Directive
