import Directive.Proofs.Building
import Directive.Proofs.Entries
import Directive.Vocabulary.Builtin

/-!
# Layers of definitions

A definition file is put into a vocabulary definition by definition, each in the place of the one
with its name.  What comes of all of them (`upsertAll`) is told by the keys in their order and by
what is found under each key; the registry that is built afterwards lists and finds the same.  The
contract that is put in for an entry of the file is the one it describes
(`Definition.FunctionEntry.Describes`).

At the first fault nothing more is put in.  Up to where a file gets, and what its fault is, is told
by `Definition.File.Yields`; the vocabulary it is put into has no part in that.
-/

namespace Directive

/-! ### Items put over items -/

section

variable {α κ : Type} [BEq κ] [LawfulBEq κ] (key : α → κ)

/-- The items of `xs` after those of `ys` have been put in one by one, each in the place of the item
with its key. -/
def upsertAll (xs ys : List α) : List α :=
  ys.foldl (fun xs y => upsert (fun a b => key a == key b) y xs) xs

variable {key} {xs ys : List α} {y : α}

/-- An item takes a place that is there, or one at the end. -/
theorem map_upsert (y : α) (xs : List α) :
    (upsert (fun a b => key a == key b) y xs).map key =
      if key y ∈ xs.map key then xs.map key else xs.map key ++ [key y] := by
  induction xs with
  | nil => simp [upsert]
  | cons x xs ih =>
    by_cases h : key x = key y
    · simp [upsert, h]
    · have hne : ¬key y = key x := fun heq => h heq.symm
      simp only [upsert, beq_eq_false_iff_ne.mpr h, Bool.false_eq_true, if_false, List.map_cons, ih,
        List.mem_cons, hne, false_or]
      split_ifs <;> rfl

theorem find?_upsert (y : α) (xs : List α) (k : κ) :
    (upsert (fun a b => key a == key b) y xs).find? (fun x => key x == k) =
      if key y == k then some y else xs.find? fun x => key x == k := by
  induction xs with
  | nil => cases h : key y == k <;> simp [upsert, h]
  | cons x xs ih =>
    by_cases h : key x = key y
    · cases hk : key y == k <;> simp [upsert, h, hk]
    · simp only [upsert, beq_eq_false_iff_ne.mpr h, Bool.false_eq_true, if_false, List.find?_cons, ih]
      cases hx : key x == k with
      | false => rfl
      | true =>
        have hy : (key y == k) = false := by
          rw [beq_eq_false_iff_ne]
          exact fun heq => h ((eq_of_beq hx).trans heq.symm)
        rw [hy]
        rfl

/-- The keys are the old ones in their order, and behind them the new ones in theirs. -/
theorem map_upsertAll (hys : (ys.map key).Nodup) : (upsertAll key xs ys).map key =
    xs.map key ++ (ys.map key).filter fun k => !(xs.map key).contains k := by
  induction ys generalizing xs with
  | nil => simp [upsertAll]
  | cons y ys ih =>
    rw [List.map_cons, List.nodup_cons] at hys
    show (upsertAll key (upsert _ y xs) ys).map key = _
    rw [ih hys.2, map_upsert, List.map_cons]
    split_ifs with hmem
    · rw [List.filter_cons_of_neg (by simpa using hmem)]
    · rw [List.filter_cons_of_pos (by simpa using hmem), List.append_assoc]
      -- the key of the item that was put in is none of those that follow
      have hrest : (ys.map key).filter (fun k => !(xs.map key ++ [key y]).contains k) =
          (ys.map key).filter fun k => !(xs.map key).contains k := by
        refine List.filter_congr fun k hk => ?_
        have hne : k ≠ key y := fun heq => hys.1 (heq ▸ hk)
        simp [hne]
      rw [hrest]
      rfl

theorem nodup_upsertAll (hxs : (xs.map key).Nodup) (hys : (ys.map key).Nodup) :
    ((upsertAll key xs ys).map key).Nodup := by
  rw [map_upsertAll hys, List.nodup_append]
  refine ⟨hxs, hys.filter _, fun k hk l hl heq => ?_⟩
  rw [List.mem_filter, ← heq] at hl
  simp [hk] at hl

/-- An item is found among the new ones, or else among the old ones. -/
theorem find?_upsertAll (hys : (ys.map key).Nodup) (k : κ) :
    (upsertAll key xs ys).find? (fun x => key x == k) =
      (ys.find? fun y => key y == k).or (xs.find? fun x => key x == k) := by
  induction ys generalizing xs with
  | nil => rfl
  | cons y ys ih =>
    rw [List.map_cons, List.nodup_cons] at hys
    show (upsertAll key (upsert _ y xs) ys).find? _ = _
    rw [ih hys.2, find?_upsert, List.find?_cons]
    cases hk : key y == k with
    | false => rfl
    | true =>
      obtain rfl : key y = k := eq_of_beq hk
      rw [find?_key_eq_none_iff.mpr hys.1]
      rfl

end

namespace Vocabulary

/-- The vocabulary with families and contracts put over its own. -/
def overlaid (v : Vocabulary) (fs : List Family) (cs : List Contract) : Vocabulary :=
  ⟨upsertAll Family.name v.families fs, upsertAll (fun c => (c.family, c.name)) v.contracts cs⟩

theorem foldl_upsertFamily (v : Vocabulary) (fs : List Family) :
    fs.foldl upsertFamily v = v.overlaid fs [] := by
  induction fs generalizing v with
  | nil => rfl
  | cons f fs ih => exact ih (v.upsertFamily f)

theorem foldl_upsertContract (v : Vocabulary) (cs : List Contract) :
    cs.foldl upsertContract v = v.overlaid [] cs := by
  induction cs generalizing v with
  | nil => rfl
  | cons c cs ih => exact ih (v.upsertContract c)

/-- What is put in one by one, families first, lies over what was there. -/
theorem foldl_upsert (v : Vocabulary) (fs : List Family) (cs : List Contract) :
    cs.foldl upsertContract (fs.foldl upsertFamily v) = v.overlaid fs cs := by
  rw [foldl_upsertFamily, foldl_upsertContract]
  rfl

end Vocabulary

namespace Definition

/-! ### Loops that stop at a fault -/

/-- The keys are distinct, and none has been seen before. -/
def Distinct {κ : Type} (seen ks : List κ) : Prop :=
  ks.Nodup ∧ ∀ k ∈ ks, k ∉ seen

section

variable {κ : Type} {seen ks : List κ} {k : κ}

theorem distinct_nil (seen : List κ) : Distinct seen [] :=
  ⟨List.nodup_nil, List.forall_mem_nil _⟩

theorem Distinct.cons (hk : k ∉ seen) (h : Distinct (k :: seen) ks) : Distinct seen (k :: ks) := by
  have hnew : k ∉ ks := fun hmem => h.2 k hmem List.mem_cons_self
  refine ⟨List.nodup_cons.mpr ⟨hnew, h.1⟩, List.forall_mem_cons.mpr ⟨hk, fun l hl => ?_⟩⟩
  exact fun hmem => h.2 l hl (List.mem_cons_of_mem _ hmem)

end

/-- The family that an entry declares. -/
def FamilyEntry.declared (f : FamilyEntry) : Family :=
  ⟨f.name, f.description⟩

/-- The names that say which function an entry defines. -/
def FunctionEntry.names (e : FunctionEntry) : String × String :=
  (e.family, e.name)

section

variable {seen : List String} {f : FamilyEntry}

theorem layerFamilies_cons_of_mem (h : f.name ∈ seen) (v : Vocabulary) (fs : List FamilyEntry) :
    layerFamilies v seen (f :: fs) = (v, .error (.vocabulary (.duplicateFamily f.name))) := by
  rw [layerFamilies, if_pos (List.contains_iff_mem.mpr h)]

/-- A new family is put in, and from then on its name has been seen. -/
theorem layerFamilies_cons_of_not_mem (h : f.name ∉ seen) (v : Vocabulary)
    (fs : List FamilyEntry) : layerFamilies v seen (f :: fs) =
      layerFamilies (v.upsertFamily f.declared) (f.name :: seen) fs := by
  rw [layerFamilies, if_neg (by rwa [List.contains_iff_mem])]
  rfl

end

/-- Families are put in up to the first one with a name that was there before. -/
theorem layerFamilies_cases (seen : List String) (fs : List FamilyEntry) :
    (Distinct seen (fs.map FamilyEntry.name) ∧ ∀ v, layerFamilies v seen fs =
        ((fs.map FamilyEntry.declared).foldl Vocabulary.upsertFamily v, .ok ())) ∨
      ∃ before f after, fs = before ++ f :: after ∧
        Distinct seen (before.map FamilyEntry.name) ∧
        f.name ∈ before.map FamilyEntry.name ++ seen ∧ ∀ v, layerFamilies v seen fs =
          ((before.map FamilyEntry.declared).foldl Vocabulary.upsertFamily v,
            .error (.vocabulary (.duplicateFamily f.name))) := by
  induction fs generalizing seen with
  | nil => exact Or.inl ⟨distinct_nil seen, fun v => rfl⟩
  | cons f fs ih =>
    by_cases hseen : f.name ∈ seen
    · exact Or.inr ⟨[], f, fs, rfl, distinct_nil seen, hseen, fun v =>
        layerFamilies_cons_of_mem hseen v fs⟩
    · have hstep := layerFamilies_cons_of_not_mem hseen
      rcases ih (f.name :: seen) with ⟨hnew, hrun⟩ | ⟨before, g, after, rfl, hnew, hg, hrun⟩
      · exact Or.inl ⟨hnew.cons hseen, fun v => by rw [hstep, hrun]; rfl⟩
      · exact Or.inr ⟨f :: before, g, after, rfl, hnew.cons hseen,
          List.perm_middle.mem_iff.mp hg, fun v => by rw [hstep, hrun]; rfl⟩

/-- Why an entry is not put in behind functions with the given names: it has one of them, or it
describes no contract; then the fault is the first one in it. -/
inductive FunctionEntry.Offends (e : FunctionEntry) (earlier : List (String × String)) :
    DefinitionFault → Prop
  | repeated :
      e.names ∈ earlier → Offends e earlier (.vocabulary (.duplicateFunction e.family e.name))
  | undescribed {fault : DefinitionFault} :
      e.names ∉ earlier → (∀ c, ¬e.Describes c) → e.FirstFault fault → Offends e earlier fault

theorem FunctionEntry.Offends.perm {e : FunctionEntry} {ks ls : List (String × String)}
    {fault : DefinitionFault} (h : e.Offends ks fault) (hperm : ks.Perm ls) :
    e.Offends ls fault := by
  cases h with
  | repeated he => exact .repeated (hperm.mem_iff.mp he)
  | undescribed he hno hfault => exact .undescribed (mt hperm.mem_iff.mpr he) hno hfault

/-- An entry without a contract describes none. -/
theorem FunctionEntry.not_describes_of_error {e : FunctionEntry} {fault : DefinitionFault}
    (h : e.contract = .error fault) (c : Contract) : ¬e.Describes c := by
  intro hc
  rw [FunctionEntry.contract_eq_ok_iff.mpr hc] at h
  cases h

section

variable {seen : List (String × String)} {e : FunctionEntry}

/-- The loop stops at an entry that offends. -/
theorem layerFunctions_cons_of_offends {fault : DefinitionFault} (h : e.Offends seen fault)
    (v : Vocabulary) (fs : List FunctionEntry) :
    layerFunctions v seen (e :: fs) = (v, .error fault) := by
  cases h with
  | repeated he =>
    have hcontains : seen.contains (e.family, e.name) = true := List.contains_iff_mem.mpr he
    rw [layerFunctions, if_pos hcontains]
  | undescribed he _ hfault =>
    have hnot : ¬seen.contains (e.family, e.name) = true := by rwa [List.contains_iff_mem]
    rw [layerFunctions, if_neg hnot, FunctionEntry.contract_eq_error_iff.mpr hfault]

/-- The contract of a new entry is put in, and from then on its names have been seen. -/
theorem layerFunctions_cons_of_ok {c : Contract} (h : e.names ∉ seen) (hc : e.contract = .ok c)
    (v : Vocabulary) (fs : List FunctionEntry) : layerFunctions v seen (e :: fs) =
      layerFunctions (v.upsertContract c) (e.names :: seen) fs := by
  have hnot : ¬seen.contains (e.family, e.name) = true := by rwa [List.contains_iff_mem]
  rw [layerFunctions, if_neg hnot, hc]
  rfl

end

/-- Functions are put in up to the first one that offends. -/
theorem layerFunctions_cases (seen : List (String × String)) (fs : List FunctionEntry) :
    (∃ cs, Distinct seen (fs.map FunctionEntry.names) ∧
        List.Forall₂ FunctionEntry.Describes fs cs ∧
        ∀ v, layerFunctions v seen fs = (cs.foldl Vocabulary.upsertContract v, .ok ())) ∨
      ∃ before e after cs fault, fs = before ++ e :: after ∧
        Distinct seen (before.map FunctionEntry.names) ∧
        List.Forall₂ FunctionEntry.Describes before cs ∧
        e.Offends (before.map FunctionEntry.names ++ seen) fault ∧
        ∀ v, layerFunctions v seen fs =
          (cs.foldl Vocabulary.upsertContract v, .error fault) := by
  induction fs generalizing seen with
  | nil => exact Or.inl ⟨[], distinct_nil seen, .nil, fun v => rfl⟩
  | cons e fs ih =>
    -- an entry that offends is the first one that does
    have hstop : ∀ {fault}, e.Offends seen fault → ∃ before g after cs fault,
        e :: fs = before ++ g :: after ∧ Distinct seen (before.map FunctionEntry.names) ∧
          List.Forall₂ FunctionEntry.Describes before cs ∧
          g.Offends (before.map FunctionEntry.names ++ seen) fault ∧
          ∀ v, layerFunctions v seen (e :: fs) =
            (cs.foldl Vocabulary.upsertContract v, .error fault) := fun h =>
      ⟨[], e, fs, [], _, rfl, distinct_nil seen, .nil, h, fun v =>
        layerFunctions_cons_of_offends h v fs⟩
    by_cases hseen : e.names ∈ seen
    · exact Or.inr (hstop (.repeated hseen))
    · cases hcontract : e.contract with
      | error fault =>
        have hno := FunctionEntry.not_describes_of_error hcontract
        have hfault := FunctionEntry.contract_eq_error_iff.mp hcontract
        exact Or.inr (hstop (.undescribed hseen hno hfault))
      | ok c =>
        have hstep := layerFunctions_cons_of_ok hseen hcontract
        have hc := FunctionEntry.contract_eq_ok_iff.mp hcontract
        rcases ih (e.names :: seen) with ⟨cs, hnew, hcs, hrun⟩ |
          ⟨before, f, after, cs, fault, rfl, hnew, hcs, hf, hrun⟩
        · exact Or.inl ⟨c :: cs, hnew.cons hseen, .cons hc hcs, fun v => by rw [hstep, hrun]; rfl⟩
        · exact Or.inr ⟨e :: before, f, after, c :: cs, fault, rfl, hnew.cons hseen,
            .cons hc hcs, hf.perm List.perm_middle, fun v => by rw [hstep, hrun]; rfl⟩

/-! ### Layers -/

/-- `file.Yields fs cs outcome`: the families `fs` and the contracts `cs` are those of the file that
stand before its first fault, and the outcome is that fault; or they are all of the file. -/
inductive File.Yields (file : File) :
    List Family → List Contract → Except DefinitionFault Unit → Prop
  | family {before after : List FamilyEntry} {f : FamilyEntry} :
      file.families = before ++ f :: after → (before.map FamilyEntry.name).Nodup →
        f.name ∈ before.map FamilyEntry.name →
          Yields file (before.map FamilyEntry.declared) []
            (.error (.vocabulary (.duplicateFamily f.name)))
  | function {before after : List FunctionEntry} {e : FunctionEntry} {cs : List Contract}
      {fault : DefinitionFault} :
      (file.families.map FamilyEntry.name).Nodup → file.functions = before ++ e :: after →
        (before.map FunctionEntry.names).Nodup →
          List.Forall₂ FunctionEntry.Describes before cs →
            e.Offends (before.map FunctionEntry.names) fault →
              Yields file (file.families.map FamilyEntry.declared) cs (.error fault)
  | complete {cs : List Contract} :
      (file.families.map FamilyEntry.name).Nodup → (file.functions.map FunctionEntry.names).Nodup →
        List.Forall₂ FunctionEntry.Describes file.functions cs →
          Yields file (file.families.map FamilyEntry.declared) cs (.ok ())

/-- A file puts the same definitions into every vocabulary, with the same outcome. -/
theorem File.exists_yields (file : File) : ∃ fs cs outcome, file.Yields fs cs outcome ∧
    ∀ v, layerFile v file = (v.overlaid fs cs, outcome) := by
  -- functions come only after all families
  rcases layerFamilies_cases [] file.families with ⟨hfamilies, hrun⟩ |
    ⟨before, f, after, hsplit, hbefore, hf, hrun⟩
  · rcases layerFunctions_cases [] file.functions with ⟨cs, hfunctions, hcs, hrun'⟩ |
      ⟨before, e, after, cs, fault, hsplit, hbefore, hcs, he, hrun'⟩
    · refine ⟨_, cs, _, .complete hfamilies.1 hfunctions.1 hcs, fun v => ?_⟩
      rw [layerFile, hrun]
      dsimp only
      rw [hrun', Vocabulary.foldl_upsert]
    · rw [List.append_nil] at he
      refine ⟨_, cs, _, .function hfamilies.1 hsplit hbefore.1 hcs he, fun v => ?_⟩
      rw [layerFile, hrun]
      dsimp only
      rw [hrun', Vocabulary.foldl_upsert]
  · rw [List.append_nil] at hf
    refine ⟨_, [], _, .family hsplit hbefore.1 hf, fun v => ?_⟩
    rw [layerFile, hrun, Vocabulary.foldl_upsertFamily]

/-- What a file yields has distinct names. -/
theorem File.Yields.nodup {file : File} {fs : List Family} {cs : List Contract}
    {outcome : Except DefinitionFault Unit} (h : file.Yields fs cs outcome) :
    (fs.map Family.name).Nodup ∧ (cs.map fun c => (c.family, c.name)).Nodup := by
  have hdeclared : ∀ fs : List FamilyEntry,
      (fs.map FamilyEntry.declared).map Family.name = fs.map FamilyEntry.name := fun fs => by
    rw [List.map_map]
    rfl
  cases h with
  | family _ hbefore => exact ⟨by rwa [hdeclared], List.nodup_nil⟩
  | function hfamilies _ hbefore hcs =>
    exact ⟨by rwa [hdeclared], by rwa [FunctionEntry.keys_eq_of_describes hcs]⟩
  | complete hfamilies hfunctions hcs =>
    exact ⟨by rwa [hdeclared], by rwa [FunctionEntry.keys_eq_of_describes hcs]⟩

end Definition

open Definition

/-- What is wrong with a contract on its own is not that there are two of it. -/
theorem Contract.FirstFault.not_duplicate {c : Contract} {fault : RegistryFault}
    (h : c.FirstFault fault) :
    (∀ f, fault ≠ .duplicateFamily f) ∧ ∀ f g, fault ≠ .duplicateFunction f g := by
  cases h with
  | rule _ _ _ _ hrule => cases hrule <;> simp
  | _ => simp

namespace Vocabulary

variable {v v' : Vocabulary} {r₀ r : Registry} {source : String}

/-- What a layer without a fault has put into a vocabulary. -/
theorem layer_ok (h : v.layer source = (v', .ok ())) :
    ∃ file cs, File.ofText? source = some file ∧
      List.Forall₂ FunctionEntry.Describes file.functions cs ∧
      (file.families.map FamilyEntry.name).Nodup ∧ (cs.map fun c => (c.family, c.name)).Nodup ∧
      v' = v.overlaid (file.families.map fun f => ⟨f.name, f.description⟩) cs := by
  rw [layer] at h
  cases hfile : File.ofText? source with
  | none =>
    rw [hfile] at h
    cases h
  | some file =>
    rw [hfile] at h
    obtain ⟨fs, cs, outcome, hyields, hlayer⟩ := file.exists_yields
    obtain ⟨rfl, rfl⟩ := Prod.mk.inj ((hlayer v).symm.trans h)
    obtain ⟨-, hcontracts⟩ := hyields.nodup
    cases hyields with
    | complete hfamilies _ hcs => exact ⟨file, cs, rfl, hcs, hfamilies, hcontracts, rfl⟩

/-- Distinct definitions fail for other reasons than that there are two of them. -/
theorem FirstFault.not_duplicate {fault : RegistryFault} (h : v.FirstFault fault)
    (hfamilies : (v.families.map Family.name).Nodup)
    (hcontracts : (v.contracts.map fun c => (c.family, c.name)).Nodup) :
    (∀ f, fault ≠ .duplicateFamily f) ∧ ∀ f g, fault ≠ .duplicateFunction f g := by
  cases h with
  | @family before after f _ _ hsplit _ hfault =>
    cases hfault with
    | name => simp
    | duplicate _ hmem =>
      rw [hsplit, List.map_append, List.nodup_append] at hfamilies
      exact absurd rfl (hfamilies.2.2 _ hmem _ List.mem_cons_self)
  | @contract before after c _ _ hsplit _ hfault =>
    cases hfault with
    | alone hfault => exact hfault.not_duplicate
    | undeclared => simp
    | duplicate _ _ hmem =>
      rw [hsplit, List.map_append, List.nodup_append] at hcontracts
      exact absurd rfl (hcontracts.2.2 _ hmem _ List.mem_cons_self)

/-! ### Registries of layers -/

/-- The names in a family, read off the pairs of family and name. -/
theorem names_of_pairs {α : Type} (family name : α → String) (xs : List α) (f : String) :
    (xs.filter fun x => family x == f).map name =
      ((xs.map fun x => (family x, name x)).filter fun k => k.1 == f).map Prod.snd := by
  rw [List.filter_map, List.map_map]
  rfl

namespace Makes

variable {fs : List Family} {cs : List Contract}

theorem contract?_overlaid (h₀ : v.Makes r₀) (h : (v.overlaid fs cs).Makes r)
    (hcs : (cs.map fun c => (c.family, c.name)).Nodup) (f g : String) : r.contract? f g =
      (cs.find? fun c => (c.family, c.name) == (f, g)).or (r₀.contract? f g) := by
  rw [h.contract?_eq, h₀.contract?_eq]
  exact find?_upsertAll hcs (f, g)

theorem family?_overlaid (h₀ : v.Makes r₀) (h : (v.overlaid fs cs).Makes r)
    (hfs : (fs.map Family.name).Nodup) (f : String) :
    r.family? f = (fs.find? fun e => e.name == f).or (r₀.family? f) := by
  rw [h.family?_eq, h₀.family?_eq]
  exact find?_upsertAll hfs f

/-- New families follow the old ones. -/
theorem names_families_overlaid (h₀ : v.Makes r₀) (h : (v.overlaid fs cs).Makes r)
    (hfs : (fs.map Family.name).Nodup) : r.families.map Family.name =
      r₀.families.map Family.name ++ (fs.map Family.name).filter fun f => !r₀.hasFamily f := by
  rw [h.families_eq, h₀.families_eq]
  show (upsertAll Family.name v.families fs).map Family.name = _
  rw [map_upsertAll hfs]
  congr 1
  refine List.filter_congr fun f _ => ?_
  rw [Bool.eq_iff_iff, Registry.hasFamily]
  simp [← Bool.not_eq_true, OrderedMap.contains_iff, Registry.names_eq_of_view h₀.view]

/-- A pair is new exactly if there is no contract for it. -/
theorem not_contains_pair_eq (h₀ : v.Makes r₀) (f g : String) :
    (!(v.contracts.map fun c => (c.family, c.name)).contains (f, g)) =
      (r₀.contract? f g).isNone := by
  rw [h₀.contract?_eq, Bool.eq_iff_iff, Option.isNone_iff_eq_none, Bool.not_eq_true',
    ← Bool.not_eq_true, List.contains_iff_mem]
  exact find?_key_eq_none_iff.symm

/-- In each family new functions follow the old ones. -/
theorem names_contracts_overlaid (h₀ : v.Makes r₀) (h : (v.overlaid fs cs).Makes r)
    (hcs : (cs.map fun c => (c.family, c.name)).Nodup) (f : String) :
    (r.contracts f).map Contract.name = (r₀.contracts f).map Contract.name ++
      ((cs.filter fun c => c.family == f).map Contract.name).filter
        fun g => (r₀.contract? f g).isNone := by
  rw [h.contracts_eq, h₀.contracts_eq, functionsOf, functionsOf,
    names_of_pairs _ _ (v.overlaid fs cs).contracts, names_of_pairs _ _ v.contracts]
  show (((upsertAll (fun c => (c.family, c.name)) v.contracts cs).map _).filter _).map _ = _
  rw [map_upsertAll hcs, List.filter_append, List.map_append]
  congr 1
  rw [List.filter_map, ← names_of_pairs, List.filter_map, List.filter_filter, List.filter_filter]
  congr 1
  refine List.filter_congr fun c _ => ?_
  rw [Function.comp_apply, Function.comp_apply, h₀.not_contains_pair_eq]
  cases hc : c.family == f with
  | false => rw [Bool.false_and, Bool.and_false]
  | true => rw [Bool.true_and, Bool.and_true, eq_of_beq hc]

end Makes

/-- A definition file replaces whole definitions and touches nothing else.  A function that the file
defines has exactly the contract that is described there, and any other the one it had; a family that
the file declares has the description from there, and any other keeps its own.  Old families and
functions keep their order, new ones follow in the order of the file.  And as long as the vocabulary
had no two definitions of one name, a file that is put into it brings none about. -/
theorem layer_replaces (hfamilies : (v.families.map Family.name).Nodup)
    (hcontracts : (v.contracts.map fun c => (c.family, c.name)).Nodup)
    (h : v.layer source = (v', .ok ())) :
    (∀ fault, v'.build = .error fault →
      (∀ f, fault ≠ .duplicateFamily f) ∧ ∀ f g, fault ≠ .duplicateFunction f g) ∧
    ∃ file, File.ofText? source = some file ∧ ∀ r₀ r, v.build = .ok r₀ → v'.build = .ok r →
      (∀ e ∈ file.functions, ∃ c, (∀ d, e.Describes d ↔ d = c) ∧
        r.contract? e.family e.name = some c) ∧
      (∀ f g, (∀ e ∈ file.functions, ¬(e.family = f ∧ e.name = g)) →
        r.contract? f g = r₀.contract? f g) ∧
      (∀ e ∈ file.families, r.family? e.name = some ⟨e.name, e.description⟩) ∧
      (∀ f, (∀ e ∈ file.families, e.name ≠ f) → r.family? f = r₀.family? f) ∧
      r.families.map Family.name = r₀.families.map Family.name ++
        (file.families.map FamilyEntry.name).filter (fun f => !r₀.hasFamily f) ∧
      ∀ f, (r.contracts f).map Contract.name = (r₀.contracts f).map Contract.name ++
        ((file.functions.filter fun e => e.family == f).map FunctionEntry.name).filter
          fun g => (r₀.contract? f g).isNone := by
  obtain ⟨file, cs, hfile, hcs, hnodup, hnew, rfl⟩ := layer_ok h
  set fs : List Family := file.families.map fun f => ⟨f.name, f.description⟩ with hfs
  have hnames : fs.map Family.name = file.families.map FamilyEntry.name := by
    rw [hfs, List.map_map]
    rfl
  have hkeys : cs.map (fun c => (c.family, c.name)) =
      file.functions.map fun e => (e.family, e.name) := FunctionEntry.keys_eq_of_describes hcs
  rw [← hnames] at hnodup
  refine ⟨fun fault hfault => ?_, file, hfile, fun r₀ r hr₀ hr => ?_⟩
  · rcases (v.overlaid fs cs).build_cases with ⟨r, hr, -⟩ | ⟨fault', hr, hfirst⟩
    · rw [hfault] at hr
      cases hr
    · rw [hfault] at hr
      cases hr
      exact hfirst.not_duplicate (nodup_upsertAll hfamilies hnodup)
        (nodup_upsertAll hcontracts hnew)
  · have h₀ := makes_of_build hr₀
    have hover := makes_of_build hr
    refine ⟨fun e he => ?_, fun f g hno => ?_, fun e he => ?_, fun f hno => ?_, ?_, fun f => ?_⟩
    · obtain ⟨c, hc, hdescribes⟩ :=
        exists_left_of_forall₂ (R := flip FunctionEntry.Describes) hcs.flip he
      have hfind : cs.find? (fun c => (c.family, c.name) == (e.family, e.name)) = some c :=
        (find?_key_eq_some_iff hnew).mpr ⟨hc, by rw [hdescribes.family, hdescribes.name]⟩
      refine ⟨c, fun d => ?_, by rw [h₀.contract?_overlaid hover hnew, hfind, Option.some_or]⟩
      rw [← FunctionEntry.contract_eq_ok_iff, FunctionEntry.contract_eq_ok_iff.mpr hdescribes,
        Except.ok.injEq, eq_comm]
    · have hfind : cs.find? (fun c => (c.family, c.name) == (f, g)) = none := by
        rw [find?_key_eq_none_iff, hkeys]
        intro hmem
        obtain ⟨e, he, hkey⟩ := List.mem_map.mp hmem
        exact hno e he (Prod.mk.inj hkey)
      rw [h₀.contract?_overlaid hover hnew, hfind, Option.none_or]
    · have hfind : fs.find? (fun f => f.name == e.name) = some ⟨e.name, e.description⟩ :=
        (find?_key_eq_some_iff hnodup).mpr ⟨List.mem_map_of_mem he, rfl⟩
      rw [h₀.family?_overlaid hover hnodup, hfind, Option.some_or]
    · have hfind : fs.find? (fun e => e.name == f) = none := by
        rw [find?_key_eq_none_iff, hnames]
        intro hmem
        obtain ⟨e, he, hname⟩ := List.mem_map.mp hmem
        exact hno e he hname
      rw [h₀.family?_overlaid hover hnodup, hfind, Option.none_or]
    · rw [h₀.names_families_overlaid hover hnodup, hnames]
    · rw [h₀.names_contracts_overlaid hover hnew, names_of_pairs, hkeys, ← names_of_pairs]

/-- A built-in function that a file defines anew keeps nothing of its old definition and has the
default that the file gives, the other functions are as they were, and a family that the file adds
comes last. -/
theorem layer_replaces_builtin :
    let source := "[[family]]\nname = \"audit\"\n" ++
      "[[function]]\nfamily = \"reflect\"\nname = \"trace\"\n" ++
        "parameters.scope.type = \"str\"\nparameters.scope.default = \"all\"\n"
    ∃ v' r₀ r, builtin.layer source = (v', .ok ()) ∧ builtin.build = .ok r₀ ∧ v'.build = .ok r ∧
      (∃ c, r₀.contract? "reflect" "trace" = some c ∧ c.handler.isSome) ∧
      (∃ c, r.contract? "reflect" "trace" = some c ∧ c.handler = none ∧
        ∃ rule, c.parameters = .ofList [("scope", rule)] ∧ rule.tag = .string ∧
          rule.default = some (.string "all")) ∧
      r.contract? "collapse" "detect" = r₀.contract? "collapse" "detect" ∧
      r.families.map Family.name = r₀.families.map Family.name ++ ["audit"] := by
  intro source
  have hold : builtin.build.toOption.any fun r => !r.hasFamily "audit" &&
      (r.contract? "reflect" "trace").any fun c => c.handler.isSome := by decide +kernel
  have hfile : (File.ofText? source).any fun file =>
      file.families.map FamilyEntry.name == ["audit"] &&
        file.functions.all (fun e => !(e.family == "collapse")) &&
          file.functions.any fun e => e.family == "reflect" && e.name == "trace" &&
            e.handler.isNone && e.parameters.map Prod.fst == ["scope"] &&
              e.parameters.all fun p => p.2.type == "str" &&
                p.2.default.bind Toml.Value.string? == some "all" := by decide +kernel
  have hnew : ((builtin.layer source).2.toOption.any fun _ => true) &&
      (builtin.layer source).1.build.toOption.any fun _ => true := by decide +kernel
  obtain ⟨r₀, hr₀, hold⟩ := exists_of_any_toOption hold
  rw [Bool.and_eq_true] at hnew
  obtain ⟨⟨⟩, hunit, -⟩ := exists_of_any_toOption hnew.1
  obtain ⟨r, hr, -⟩ := exists_of_any_toOption hnew.2
  have hok : builtin.layer source = ((builtin.layer source).1, .ok ()) :=
    hunit ▸ (Prod.eta (builtin.layer source)).symm
  have hwell := (makes_of_build hr₀).wellFormed
  obtain ⟨-, file, hsource, h⟩ := layer_replaces hwell.nodup_families hwell.nodup_contracts hok
  obtain ⟨hdefined, hother, -, -, hfamilies, -⟩ := h r₀ r hr₀ hr
  rw [hsource] at hfile
  simp only [Option.any_some, Bool.and_eq_true, beq_iff_eq, List.any_eq_true,
    List.all_eq_true, Bool.not_eq_true', beq_eq_false_iff_ne, Option.any_eq_true,
    Option.bind_eq_some_iff] at hold hfile
  obtain ⟨hno, c₀, hc₀, hhandler₀⟩ := hold
  obtain ⟨⟨hnames, hcollapse⟩, e, he, ⟨⟨⟨hefamily, hename⟩, hhandler⟩, hkeys⟩, hentries⟩ := hfile
  obtain ⟨⟨name, p⟩, hparameters, hname⟩ := List.map_eq_singleton_iff.mp hkeys
  rw [hparameters, List.forall_mem_singleton] at hentries
  obtain ⟨htype, t, hdefault, ht⟩ := hentries
  obtain ⟨c, hc, hcontract⟩ := hdefined e he
  have hdescribes := (hc c).mpr rfl
  obtain ⟨rule, hrule, hof⟩ := hdescribes.exists_rule hparameters
  have htag := hrule.tag
  rw [htype, ← TypeTag.ofName?_eq_some_iff] at htag
  have hvalue : rule.default = some (.string "all") := by
    have hrel := hrule.default
    rw [hdefault] at hrel
    generalize rule.default = default at hrel ⊢
    cases hrel with
    | some hdenotes =>
      cases hdenotes <;> cases ht
      rfl
  refine ⟨_, r₀, r, hok, hr₀, hr, ⟨c₀, hc₀, hhandler₀⟩, ⟨c, ?_, ?_, rule, ?_, ?_, ?_⟩, ?_, ?_⟩
  · rw [← hefamily, ← hename, hcontract]
  · rw [hdescribes.handler, Option.isNone_iff_eq_none.mp hhandler, Option.map_none]
  · rw [hof]
    exact congrArg (fun n => OrderedMap.ofList [(n, rule)]) hname
  · exact (Option.some.inj htag).symm
  · exact hvalue
  · exact hother "collapse" "detect" fun e he heq => hcollapse e he heq.1
  · rw [hfamilies, hnames]
    simp [hno]

end Vocabulary

end Directive
