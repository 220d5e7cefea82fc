import Directive.Proofs.Faults
import Mathlib.Algebra.BigOperators.Group.List.Basic

/-!
# Registries hold what their vocabularies define

`Vocabulary.build` adds the families and then the contracts one after the other.  The invariant of
both loops is `Vocabulary.Makes v r`: what has been added so far is well-formed, and the registry
shows it family by family (`Registry.view`, `Vocabulary.view`).  One more definition keeps it, or it
is the first that cannot be added; so a vocabulary is built exactly if it is well-formed
(`Vocabulary.build_cases`), and the registry answers all questions from what was defined.
-/

namespace Directive

open Grammar (IsName)

/-! ### Loops that may fail -/

section

variable {α σ ε : Type} {step : σ → α → Except ε σ} {start : σ}

/-- If every step keeps the invariant of the items so far or fails, the loop ends with the invariant
or fails at the first item at which a step does. -/
theorem foldlM_cases (Inv : List α → σ → Prop) (Bad : List α → α → ε → Prop)
    (hstart : Inv [] start)
    (hstep : ∀ xs s x, Inv xs s → (∃ s', step s x = .ok s' ∧ Inv (xs ++ [x]) s') ∨
      ∃ e, step s x = .error e ∧ Bad xs x e) (xs : List α) :
    (∃ s, xs.foldlM step start = .ok s ∧ Inv xs s) ∨
      ∃ before x after s e, xs = before ++ x :: after ∧ before.foldlM step start = .ok s ∧
        xs.foldlM step start = .error e ∧ Bad before x e := by
  induction xs using List.reverseRecOn with
  | nil => exact Or.inl ⟨start, rfl, hstart⟩
  | append_singleton xs x ih =>
    have hconcat : (xs ++ [x]).foldlM step start = xs.foldlM step start >>= fun s => step s x := by
      rw [List.foldlM_append]
      congr 1
      funext s
      rw [List.foldlM_cons]
      cases step s x <;> rfl
    rw [hconcat]
    rcases ih with ⟨s, hs, hinv⟩ | ⟨before, y, after, s, e, rfl, hs, he, hbad⟩
    · rw [hs]
      rcases hstep xs s x hinv with ⟨s', hs', hinv'⟩ | ⟨e, he, hbad⟩
      · exact Or.inl ⟨s', hs', hinv'⟩
      · exact Or.inr ⟨xs, x, [], s, e, rfl, hs, he, hbad⟩
    · rw [he]
      exact Or.inr ⟨before, y, after ++ [x], s, e, by simp, hs, rfl, hbad⟩

end

/-! ### Well-formed vocabularies -/

namespace Vocabulary

/-- Names are names, families are declared once, and functions are defined once and in families that
are declared. -/
structure WellFormed (v : Vocabulary) : Prop where
  names : ∀ f ∈ v.families, IsName f.name.toList
  nodup_families : (v.families.map Family.name).Nodup
  contracts : ∀ c ∈ v.contracts, c.WellFormed
  declared : ∀ c ∈ v.contracts, c.family ∈ v.families.map Family.name
  nodup_contracts : (v.contracts.map fun c => (c.family, c.name)).Nodup

/-- The contracts of a family's functions. -/
def functionsOf (v : Vocabulary) (family : String) : List Contract :=
  v.contracts.filter fun c => c.family == family

/-- The families with the contracts of their functions. -/
def view (v : Vocabulary) : List (String × Family × List (String × Contract)) :=
  v.families.map fun f => (f.name, f, (v.functionsOf f.name).map fun c => (c.name, c))

end Vocabulary

/-- The families of a registry with the contracts of their functions. -/
def Registry.view (r : Registry) : List (String × Family × List (String × Contract)) :=
  r.entries.entries.map fun e => (e.1, e.2.family, e.2.contracts.entries)

/-- The vocabulary is well-formed, and the registry shows all of it. -/
structure Vocabulary.Makes (v : Vocabulary) (r : Registry) : Prop where
  wellFormed : v.WellFormed
  view : r.view = v.view

/-! ### One more definition -/

namespace Vocabulary

variable {fs : List Family} {cs : List Contract} {f : Family} {c : Contract}

theorem wellFormed_empty : (Vocabulary.mk [] []).WellFormed :=
  ⟨by simp, List.nodup_nil, by simp, by simp, List.nodup_nil⟩

theorem WellFormed.concat_family (h : (Vocabulary.mk fs []).WellFormed)
    (hname : IsName f.name.toList) (hnew : f.name ∉ fs.map Family.name) :
    (Vocabulary.mk (fs ++ [f]) []).WellFormed := by
  refine ⟨?_, ?_, by simp, by simp, List.nodup_nil⟩
  · intro g hg
    rcases List.mem_append.mp hg with hg | hg
    · exact h.names g hg
    · rw [List.mem_singleton.mp hg]
      exact hname
  · rw [List.map_append, List.map_singleton, ← List.concat_eq_append, List.nodup_concat]
    exact ⟨hnew, h.nodup_families⟩

theorem WellFormed.concat_contract (h : (Vocabulary.mk fs cs).WellFormed) (hc : c.WellFormed)
    (hdeclared : c.family ∈ fs.map Family.name)
    (hnew : (c.family, c.name) ∉ cs.map fun c => (c.family, c.name)) :
    (Vocabulary.mk fs (cs ++ [c])).WellFormed := by
  refine ⟨h.names, h.nodup_families, ?_, ?_, ?_⟩
  · intro d hd
    rcases List.mem_append.mp hd with hd | hd
    · exact h.contracts d hd
    · rw [List.mem_singleton.mp hd]
      exact hc
  · intro d hd
    rcases List.mem_append.mp hd with hd | hd
    · exact h.declared d hd
    · rw [List.mem_singleton.mp hd]
      exact hdeclared
  · rw [List.map_append, List.map_singleton, ← List.concat_eq_append, List.nodup_concat]
    exact ⟨hnew, h.nodup_contracts⟩

theorem view_concat_family : (Vocabulary.mk (fs ++ [f]) []).view =
    (Vocabulary.mk fs []).view ++ [(f.name, f, [])] :=
  List.map_append

/-- What a contract adds to the view. -/
theorem view_concat_contract : (Vocabulary.mk fs (cs ++ [c])).view =
    (Vocabulary.mk fs cs).view.map fun e =>
      if e.1 = c.family then (e.1, e.2.1, e.2.2 ++ [(c.name, c)]) else e := by
  unfold view functionsOf
  rw [List.map_map]
  refine List.map_congr_left fun g _ => ?_
  by_cases h : g.name = c.family
  · simp [h]
  · have hne : ¬c.family = g.name := fun heq => h heq.symm
    simp [h, hne]

end Vocabulary

/-- What is wrong with a family that comes after others. -/
inductive FamilyFault (fs : List Family) (f : Family) : RegistryFault → Prop
  | name :
      ¬IsName f.name.toList → FamilyFault fs f (.invalidName .family f.name)
  | duplicate :
      IsName f.name.toList → f.name ∈ fs.map Family.name →
        FamilyFault fs f (.duplicateFamily f.name)

/-- What is wrong with a contract that comes after others. -/
inductive ContractFault (fs : List Family) (cs : List Contract) (c : Contract) :
    RegistryFault → Prop
  | alone {fault : RegistryFault} :
      c.FirstFault fault → ContractFault fs cs c fault
  | undeclared :
      c.WellFormed → c.family ∉ fs.map Family.name →
        ContractFault fs cs c (.undeclaredFamily c.family c.name)
  | duplicate :
      c.WellFormed → c.family ∈ fs.map Family.name →
        (c.family, c.name) ∈ cs.map (fun c => (c.family, c.name)) →
          ContractFault fs cs c (.duplicateFunction c.family c.name)

namespace Registry

variable {r : Registry} {fs : List Family} {cs : List Contract}

theorem names_eq_of_view {v : Vocabulary} (h : r.view = v.view) :
    r.entries.names = v.families.map Family.name := by
  have hnames := congrArg (List.map Prod.fst) h
  rw [Registry.view, Vocabulary.view, List.map_map, List.map_map] at hnames
  exact hnames

/-- A family is added, or it is no good after those before it. -/
theorem addFamily_cases (h : (Vocabulary.mk fs []).Makes r) (f : Family) :
    (∃ r', r.addFamily f = .ok r' ∧ (Vocabulary.mk (fs ++ [f]) []).Makes r') ∨
      ∃ fault, r.addFamily f = .error fault ∧ FamilyFault fs f fault := by
  unfold addFamily
  by_cases hname : IsName f.name.toList
  · rw [NameRole.fault?_eq_none_iff.mpr hname]
    have hnames : r.entries.names = fs.map Family.name := names_eq_of_view h.view
    dsimp only
    split_ifs with hcontains
    · rw [OrderedMap.contains_iff, hnames] at hcontains
      exact Or.inr ⟨_, rfl, .duplicate hname hcontains⟩
    · rw [OrderedMap.contains_iff] at hcontains
      have hnew : f.name ∉ fs.map Family.name := by rwa [← hnames]
      refine Or.inl ⟨_, rfl, h.wellFormed.concat_family hname hnew, ?_⟩
      rw [Vocabulary.view_concat_family, ← h.view]
      show (OrderedMap.place f.name _ r.entries.entries).map _ = _
      rw [OrderedMap.place_of_not_mem hcontains, List.map_append]
      rfl
  · rw [NameRole.fault?_eq_some_iff.mpr ⟨hname, rfl⟩]
    exact Or.inr ⟨_, rfl, .name hname⟩

theorem mem_view_of_get? {family : String} {entry : RegistryEntry}
    (h : r.entries.get? family = some entry) :
    (family, entry.family, entry.contracts.entries) ∈ r.view :=
  List.mem_map_of_mem (OrderedMap.mem_entries_iff (e := (family, entry)).mpr h)

/-- An entry of the registry shows the functions of its family. -/
theorem entries_of_get? {v : Vocabulary} (hview : r.view = v.view) {family : String}
    {entry : RegistryEntry} (h : r.entries.get? family = some entry) :
    entry.contracts.entries = (v.functionsOf family).map fun c => (c.name, c) := by
  have hmem := mem_view_of_get? h
  rw [hview, Vocabulary.view, List.mem_map] at hmem
  obtain ⟨f, -, hf⟩ := hmem
  rw [Prod.mk.injEq, Prod.mk.injEq] at hf
  obtain ⟨rfl, -, hf⟩ := hf
  exact hf.symm

/-- A contract that is put into its family comes last there. -/
theorem view_insert {entry : RegistryEntry} {c : Contract}
    (h : r.entries.get? c.family = some entry) (hnew : c.name ∉ entry.contracts.names) :
    Registry.view ⟨r.entries.insert c.family
        { entry with contracts := entry.contracts.insert c.name c }⟩ =
      r.view.map fun e => if e.1 = c.family then (e.1, e.2.1, e.2.2 ++ [(c.name, c)]) else e := by
  have hmem : c.family ∈ r.entries.names := by
    by_contra hnot
    rw [← OrderedMap.get?_eq_none_iff, h] at hnot
    cases hnot
  have hinsert : (entry.contracts.insert c.name c).entries =
      entry.contracts.entries ++ [(c.name, c)] := OrderedMap.place_of_not_mem hnew
  show (OrderedMap.place c.family _ r.entries.entries).map _ = _
  rw [OrderedMap.place_of_mem r.entries.nodup hmem, Registry.view, List.map_map, List.map_map]
  refine List.map_congr_left fun e he => ?_
  by_cases hname : e.1 = c.family
  · rw [OrderedMap.mem_entries_iff, hname, h, Option.some.injEq] at he
    simp [hname, ← he, hinsert]
  · simp [hname]

/-- A contract is added, or it is no good after those before it. -/
theorem addContract_cases (h : (Vocabulary.mk fs cs).Makes r) (c : Contract) :
    (∃ r', r.addContract c = .ok r' ∧ (Vocabulary.mk fs (cs ++ [c])).Makes r') ∨
      ∃ fault, r.addContract c = .error fault ∧ ContractFault fs cs c fault := by
  unfold addContract
  rcases c.fault?_cases with ⟨hnone, hc, -⟩ | ⟨fault, hsome, hfault⟩
  · rw [hnone]
    have hnames : r.entries.names = fs.map Family.name := names_eq_of_view h.view
    cases hentry : r.entries.get? c.family with
    | none =>
      rw [OrderedMap.get?_eq_none_iff, hnames] at hentry
      exact Or.inr ⟨_, rfl, .undeclared hc hentry⟩
    | some entry =>
      have hdeclared : c.family ∈ fs.map Family.name := by
        by_contra hnot
        rw [← hnames, ← OrderedMap.get?_eq_none_iff, hentry] at hnot
        cases hnot
      -- the registry looks among the functions of one family, the vocabulary among all pairs
      have hcontains : c.name ∈ entry.contracts.names ↔
          (c.family, c.name) ∈ cs.map fun c => (c.family, c.name) := by
        rw [OrderedMap.names, entries_of_get? h.view hentry, List.map_map]
        simp [Vocabulary.functionsOf, and_assoc]
      dsimp only
      split_ifs with hdup
      · rw [OrderedMap.contains_iff, hcontains] at hdup
        exact Or.inr ⟨_, rfl, .duplicate hc hdeclared hdup⟩
      · rw [OrderedMap.contains_iff] at hdup
        have hnew : (c.family, c.name) ∉ cs.map fun c => (c.family, c.name) := by
          rwa [← hcontains]
        refine Or.inl ⟨_, rfl, h.wellFormed.concat_contract hc hdeclared hnew, ?_⟩
        rw [Vocabulary.view_concat_contract, ← h.view]
        exact view_insert hentry hdup
  · rw [hsome]
    exact Or.inr ⟨fault, rfl, .alone hfault⟩

end Registry

/-! ### All definitions -/

namespace Vocabulary

variable {v : Vocabulary} {r : Registry}

/-- The fault of the first definition that cannot be added; all families come before all
functions. -/
inductive FirstFault (v : Vocabulary) : RegistryFault → Prop
  | family {before after : List Family} {f : Family} {r : Registry} {fault : RegistryFault} :
      v.families = before ++ f :: after → (Vocabulary.mk before []).build = .ok r →
        FamilyFault before f fault → FirstFault v fault
  | contract {before after : List Contract} {c : Contract} {r : Registry}
      {fault : RegistryFault} :
      v.contracts = before ++ c :: after → (Vocabulary.mk v.families before).build = .ok r →
        ContractFault v.families before c fault → FirstFault v fault

/-- A vocabulary is built, or its first fault is reported. -/
theorem build_cases (v : Vocabulary) : (∃ r, v.build = .ok r ∧ v.Makes r) ∨
    ∃ fault, v.build = .error fault ∧ v.FirstFault fault := by
  obtain ⟨fs, cs⟩ := v
  have hempty : (Vocabulary.mk [] []).Makes .empty := ⟨wellFormed_empty, rfl⟩
  have hbuild : ∀ cs, (Vocabulary.mk fs cs).build =
      fs.foldlM Registry.addFamily .empty >>= fun r => cs.foldlM Registry.addContract r :=
    fun _ => rfl
  -- two loops: what the families have made is where that of the functions begins
  rcases foldlM_cases (fun fs r => (Vocabulary.mk fs []).Makes r) FamilyFault hempty
    (fun _ _ f h => Registry.addFamily_cases h f) fs with
    ⟨r, hr, h⟩ | ⟨before, f, after, r, fault, hsplit, hr, hfault, hbad⟩
  · rcases foldlM_cases (fun cs r => (Vocabulary.mk fs cs).Makes r) (ContractFault fs) h
      (fun _ _ c h => Registry.addContract_cases h c) cs with
      ⟨r', hr', h'⟩ | ⟨before, c, after, r', fault, hsplit, hr', hfault, hbad⟩
    · refine Or.inl ⟨r', ?_, h'⟩
      rw [hbuild, hr]
      exact hr'
    · have hbefore : (Vocabulary.mk fs before).build = .ok r' := by
        rw [hbuild, hr]
        exact hr'
      refine Or.inr ⟨fault, ?_, .contract hsplit hbefore hbad⟩
      rw [hbuild, hr]
      exact hfault
  · have hbefore : (Vocabulary.mk before []).build = .ok r := by
      show (before.foldlM Registry.addFamily .empty >>= fun r => [].foldlM _ r) = .ok r
      rw [hr]
      rfl
    refine Or.inr ⟨fault, ?_, .family hsplit hbefore hbad⟩
    rw [hbuild, hfault]
    rfl

/-- A vocabulary with a fault is not well-formed. -/
theorem FirstFault.not_wellFormed {fault : RegistryFault} (h : v.FirstFault fault)
    (hnodup : ∀ c ∈ v.contracts, c.required.Nodup) : ¬v.WellFormed := by
  intro hv
  cases h with
  | @family before after f r fault hsplit _ hbad =>
    cases hbad with
    | name hno =>
      refine hno (hv.names f ?_)
      rw [hsplit]
      simp
    | duplicate _ hmem =>
      have hfamilies := hv.nodup_families
      rw [hsplit, List.map_append, List.nodup_append] at hfamilies
      exact hfamilies.2.2 _ hmem _ List.mem_cons_self rfl
  | @contract before after c r fault hsplit _ hbad =>
    have hmem : c ∈ v.contracts := by
      rw [hsplit]
      simp
    cases hbad with
    | alone hfault => exact hfault.not_wellFormed (hnodup c hmem) (hv.contracts c hmem)
    | undeclared _ hno => exact hno (hv.declared c hmem)
    | duplicate _ _ hdup =>
      have hcontracts := hv.nodup_contracts
      rw [hsplit, List.map_append, List.nodup_append] at hcontracts
      exact hcontracts.2.2 _ hdup _ List.mem_cons_self rfl

/-- A vocabulary is built exactly if it is well-formed. -/
theorem exists_build_iff (hnodup : ∀ c ∈ v.contracts, c.required.Nodup) :
    (∃ r, v.build = .ok r) ↔ v.WellFormed := by
  rcases v.build_cases with ⟨r, hr, h⟩ | ⟨fault, hfault, h⟩
  · exact iff_of_true ⟨r, hr⟩ h.wellFormed
  · refine iff_of_false ?_ (h.not_wellFormed hnodup)
    rintro ⟨r, hr⟩
    rw [hr] at hfault
    cases hfault

theorem makes_of_build (h : v.build = .ok r) : v.Makes r := by
  rcases v.build_cases with ⟨r', hr', hmakes⟩ | ⟨fault, hfault, -⟩
  · rw [h] at hr'
    cases hr'
    exact hmakes
  · rw [h] at hfault
    cases hfault

/-! ### Questions to a registry -/

/-- Items that are counted name by name are all counted. -/
theorem sum_length_filter {α : Type} (name : α → String) {names : List String} {xs : List α}
    (hnodup : names.Nodup) (hnames : ∀ x ∈ xs, name x ∈ names) :
    (names.map fun n => (xs.filter fun x => name x == n).length).sum = xs.length := by
  induction xs with
  | nil => simp
  | cons x xs ih =>
    obtain ⟨hx, hxs⟩ := List.forall_mem_cons.mp hnames
    -- an item counts once, for its own name
    have hone : (names.map fun n => if name x == n then 1 else 0).sum = 1 := by
      rw [List.sum_map_eq_nsmul_single (name x) _ fun n hn _ => if_neg (by simpa using hn.symm),
        List.count_eq_one_of_mem hnodup hx]
      simp
    have hcons : ∀ n, ((x :: xs).filter fun x => name x == n).length =
        (if name x == n then 1 else 0) + (xs.filter fun x => name x == n).length := by
      intro n
      rw [List.filter_cons]
      split_ifs
      · exact Nat.add_comm _ 1
      · exact (Nat.zero_add _).symm
    simp only [hcons]
    rw [List.sum_map_add, hone, ih hxs, List.length_cons, Nat.add_comm]

namespace Makes

theorem families_eq (h : v.Makes r) : r.families = v.families := by
  have hfamilies := congrArg (List.map fun e => e.2.1) h.view
  rw [Registry.view, Vocabulary.view, List.map_map, List.map_map] at hfamilies
  unfold Registry.families OrderedMap.values
  rw [List.map_map]
  exact hfamilies.trans (List.map_id _)

theorem family?_eq (h : v.Makes r) (family : String) :
    r.family? family = v.families.find? fun f => f.name == family := by
  have hfind := congrArg (fun es => (es.find? fun e => e.1 == family).map fun e => e.2.1) h.view
  simp only [Registry.view, Vocabulary.view, List.find?_map, Option.map_map] at hfind
  unfold Registry.family? OrderedMap.get?
  rw [Option.map_map]
  exact hfind.trans (by simp [Function.comp_def])

theorem get?_eq_none_iff (h : v.Makes r) {family : String} :
    r.entries.get? family = none ↔ family ∉ v.families.map Family.name := by
  rw [OrderedMap.get?_eq_none_iff, Registry.names_eq_of_view h.view]

/-- A family that is not declared has no functions. -/
theorem functionsOf_eq_nil (h : v.Makes r) {family : String}
    (hno : family ∉ v.families.map Family.name) : v.functionsOf family = [] := by
  rw [functionsOf, List.filter_eq_nil_iff]
  intro c hc heq
  rw [beq_iff_eq] at heq
  exact hno (heq ▸ h.wellFormed.declared c hc)

theorem contracts_eq (h : v.Makes r) (family : String) :
    r.contracts family = v.functionsOf family := by
  unfold Registry.contracts
  cases hentry : r.entries.get? family with
  | none => exact (h.functionsOf_eq_nil (h.get?_eq_none_iff.mp hentry)).symm
  | some entry =>
    show entry.contracts.entries.map Prod.snd = _
    rw [Registry.entries_of_get? h.view hentry, List.map_map]
    exact List.map_id _

theorem lookup_eq_found_iff (h : v.Makes r) {family function : String} {c : Contract} :
    r.lookup family function = .found c ↔
      c ∈ v.contracts ∧ c.family = family ∧ c.name = function := by
  unfold Registry.lookup
  cases hentry : r.entries.get? family with
  | none =>
    refine iff_of_false (by simp) ?_
    rintro ⟨hc, rfl, -⟩
    exact h.get?_eq_none_iff.mp hentry (h.wellFormed.declared c hc)
  | some entry =>
    have hget : entry.contracts.get? function = some c ↔
        c ∈ v.contracts ∧ c.family = family ∧ c.name = function := by
      rw [← OrderedMap.mem_entries_iff (e := (function, c)),
        Registry.entries_of_get? h.view hentry, List.mem_map]
      constructor
      · rintro ⟨d, hd, heq⟩
        cases heq
        obtain ⟨hmem, hfamily⟩ := List.mem_filter.mp hd
        exact ⟨hmem, eq_of_beq hfamily, rfl⟩
      · rintro ⟨hc, rfl, rfl⟩
        exact ⟨c, List.mem_filter.mpr ⟨hc, beq_self_eq_true _⟩, rfl⟩
    rw [← hget]
    dsimp only
    cases entry.contracts.get? function with
    | none => simp
    | some d => simp

theorem contract?_eq_some_iff (h : v.Makes r) {family function : String} {c : Contract} :
    r.contract? family function = some c ↔
      c ∈ v.contracts ∧ c.family = family ∧ c.name = function := by
  rw [← h.lookup_eq_found_iff]
  unfold Registry.contract? Registry.lookup
  cases r.entries.get? family with
  | none => simp
  | some entry => cases hget : entry.contracts.get? function <;> simp [hget]

theorem contract?_eq (h : v.Makes r) (family function : String) : r.contract? family function =
    v.contracts.find? fun c => (c.family, c.name) == (family, function) := by
  refine Option.ext fun c => ?_
  rw [h.contract?_eq_some_iff, ← Prod.mk.injEq]
  exact (find?_key_eq_some_iff h.wellFormed.nodup_contracts).symm

theorem lookup_eq_unknownFamily_iff (h : v.Makes r) {family function : String} :
    r.lookup family function = .unknownFamily ↔ family ∉ v.families.map Family.name := by
  rw [← h.get?_eq_none_iff]
  unfold Registry.lookup
  cases r.entries.get? family with
  | none => simp
  | some entry =>
    cases hget : entry.contracts.get? function <;> simp [hget]

theorem lookup_eq_unknownFunction_iff (h : v.Makes r) {family function : String} :
    r.lookup family function = .unknownFunction ↔ family ∈ v.families.map Family.name ∧
      ∀ c ∈ v.contracts, ¬(c.family = family ∧ c.name = function) := by
  have hfound : (∀ c, r.lookup family function ≠ .found c) ↔
      ∀ c ∈ v.contracts, ¬(c.family = family ∧ c.name = function) := by
    simp only [Ne, h.lookup_eq_found_iff, not_and]
  have hfamily : r.lookup family function ≠ .unknownFamily ↔
      family ∈ v.families.map Family.name := by
    rw [Ne, h.lookup_eq_unknownFamily_iff, not_not]
  -- there are three answers, so the third is told by the other two
  rw [← hfound, ← hfamily]
  cases r.lookup family function <;> simp

/-- Each function is counted with its family. -/
theorem functionCount_eq (h : v.Makes r) : r.functionCount = v.contracts.length := by
  have hsizes : r.entries.values.map (fun entry => entry.contracts.size) =
      (v.families.map Family.name).map fun name =>
        (v.contracts.filter fun c => c.family == name).length := by
    have hlengths := congrArg (List.map fun e => e.2.2.length) h.view
    rw [Registry.view, Vocabulary.view, List.map_map, List.map_map] at hlengths
    unfold OrderedMap.values
    rw [List.map_map, List.map_map]
    refine hlengths.trans (List.map_congr_left fun f _ => ?_)
    exact List.length_map _
  rw [Registry.functionCount, hsizes]
  exact sum_length_filter Contract.family h.wellFormed.nodup_families h.wellFormed.declared

end Makes

/-! ### Definitions one after the other -/

/-- What is put into a vocabulary: a family that is declared, or a function that is defined. -/
inductive Definition where
  | family (f : Family)
  | function (c : Contract)

/-- The vocabulary with one more definition. -/
def put (v : Vocabulary) : Definition → Vocabulary
  | .family f => v.addFamily f
  | .function c => v.addContract c

/-- The vocabulary into which the definitions have been put one after the other. -/
def ofDefinitions (ds : List Definition) : Vocabulary :=
  ds.foldl put empty

/-- The families that are declared, in their order. -/
def declaredFamilies (ds : List Definition) : List Family :=
  ds.filterMap fun
    | .family f => some f
    | .function _ => none

/-- The contracts of the functions that are defined, in their order. -/
def definedContracts (ds : List Definition) : List Contract :=
  ds.filterMap fun
    | .family _ => none
    | .function c => some c

/-- No definition is lost, whatever comes between. -/
theorem ofDefinitions_eq (ds : List Definition) :
    ofDefinitions ds = ⟨declaredFamilies ds, definedContracts ds⟩ := by
  induction ds using List.reverseRecOn with
  | nil => rfl
  | append_singleton ds d ih =>
    have hput : ofDefinitions (ds ++ [d]) = (ofDefinitions ds).put d := by
      unfold ofDefinitions
      rw [List.foldl_append]
      rfl
    rw [hput, ih]
    cases d <;> simp [put, addFamily, addContract, declaredFamilies, definedContracts]

/-- A registry is built exactly from well-formed definitions, and it answers from them: it lists the
families and the functions of each family in the order of their definition, counts all functions,
and tells apart a function that is defined, one that is not, and a family that is not.  If it is not
built, the fault is that of the first definition that is no good. -/
theorem build_ofDefinitions {ds : List Definition} (hmade : ∀ c ∈ definedContracts ds, c.Made) :
    ((∃ r, (ofDefinitions ds).build = .ok r) ↔
        (Vocabulary.mk (declaredFamilies ds) (definedContracts ds)).WellFormed) ∧
      (∀ r, (ofDefinitions ds).build = .ok r →
        r.families = declaredFamilies ds ∧
          (∀ f, r.contracts f = (definedContracts ds).filter fun c => c.family == f) ∧
          r.functionCount = (definedContracts ds).length ∧
          ∀ f g,
            (∀ c, r.lookup f g = .found c ↔
              c ∈ definedContracts ds ∧ c.family = f ∧ c.name = g) ∧
            (r.lookup f g = .unknownFunction ↔ f ∈ (declaredFamilies ds).map Family.name ∧
              ∀ c ∈ definedContracts ds, ¬(c.family = f ∧ c.name = g)) ∧
            (r.lookup f g = .unknownFamily ↔ f ∉ (declaredFamilies ds).map Family.name)) ∧
      ∀ fault, (ofDefinitions ds).build = .error fault →
        (Vocabulary.mk (declaredFamilies ds) (definedContracts ds)).FirstFault fault := by
  rw [ofDefinitions_eq]
  refine ⟨exists_build_iff fun c hc => (hmade c hc).nodup_required, fun r hr => ?_,
    fun fault h => ?_⟩
  · have hmakes := makes_of_build hr
    refine ⟨hmakes.families_eq, hmakes.contracts_eq, hmakes.functionCount_eq, fun f g => ?_⟩
    exact ⟨fun c => hmakes.lookup_eq_found_iff, hmakes.lookup_eq_unknownFunction_iff,
      hmakes.lookup_eq_unknownFamily_iff⟩
  · rcases build_cases ⟨declaredFamilies ds, definedContracts ds⟩ with
      ⟨r, hr, -⟩ | ⟨fault', hfault', hfirst⟩
    · rw [h] at hr
      cases hr
    · rw [h] at hfault'
      cases hfault'
      exact hfirst

/-- A function may be defined before its family is declared. -/
theorem build_ofDefinitions_function_first : ∃ r,
    (ofDefinitions [.function { family := "a", name := "b" }, .family ⟨"a", "letters"⟩]).build =
      .ok r ∧ r.functionCount = 1 ∧ r.lookup "a" "c" = .unknownFunction := by
  let ds : List Definition := [.function { family := "a", name := "b" }, .family ⟨"a", "letters"⟩]
  have hmade : ∀ c ∈ definedContracts ds, c.Made := by
    intro c hc
    rw [List.mem_singleton.mp hc]
    exact .new "a" "b"
  obtain ⟨r, hr⟩ : ∃ r, (ofDefinitions ds).build = .ok r := by
    unfold ds
    exact ⟨_, rfl⟩
  obtain ⟨-, -, hcount, hlookup⟩ := (build_ofDefinitions hmade).2.1 r hr
  refine ⟨r, hr, hcount, (hlookup "a" "c").2.1.mpr ⟨by decide, fun c hc => ?_⟩⟩
  rw [List.mem_singleton.mp hc]
  decide

end Vocabulary

end Directive
