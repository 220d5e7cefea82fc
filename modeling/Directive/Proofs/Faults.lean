import Directive.Proofs.Grammar
import Directive.Proofs.OrderedMap
import Directive.Vocabulary.Basic

/-!
# Faults of contracts

When a contract is well-formed, and what its check reports when it is not: `Contract.FirstFault`
goes through the names, the rules of the parameters, the required parameters and the mapping of the
handler, and names the first thing that is wrong.  The check fails exactly with such a fault
(`Contract.fault?_cases`).

Contracts that are put together step by step require no parameter twice (`Contract.Made`).
-/

namespace Directive

open Grammar (IsName isName_iff)

/-! ### Names -/

theorem NameRole.fault?_eq_none_iff {role : NameRole} {name : String} :
    role.fault? name = none ↔ IsName name.toList := by
  rw [← isName_iff, NameRole.fault?]
  split_ifs with h
  · exact iff_of_true rfl h
  · exact iff_of_false (by simp) h

theorem NameRole.fault?_eq_some_iff {role : NameRole} {name : String} {fault : RegistryFault} :
    role.fault? name = some fault ↔ ¬IsName name.toList ∧ fault = .invalidName role name := by
  rw [← isName_iff, NameRole.fault?]
  split_ifs with h
  · simp [h]
  · simp [h, eq_comm]

/-! ### Repetitions -/

section

variable {bad : String → Bool} {seen xs : List String}

theorem firstRepeatedOr_eq_none_iff :
    firstRepeatedOr bad seen xs = none ↔ xs.Nodup ∧ ∀ x ∈ xs, x ∉ seen ∧ bad x = false := by
  induction xs generalizing seen with
  | nil => simp [firstRepeatedOr]
  | cons x xs ih =>
    rw [firstRepeatedOr, List.nodup_cons, List.forall_mem_cons]
    split_ifs with h
    · rw [Bool.or_eq_true, List.contains_iff_mem] at h
      refine iff_of_false (by simp) ?_
      rintro ⟨-, ⟨hseen, hbad⟩, -⟩
      rcases h with h | h
      · exact hseen h
      · rw [hbad] at h
        cases h
    · rw [Bool.or_eq_true, not_or, List.contains_iff_mem, Bool.not_eq_true] at h
      rw [ih]
      -- `x` is among the seen from here on: that is how it cannot stand in `xs` again
      constructor
      · rintro ⟨hnodup, hrest⟩
        refine ⟨⟨fun hx => ?_, hnodup⟩, h, fun y hy => ?_⟩
        · exact (hrest x hx).1 List.mem_cons_self
        · exact ⟨fun hs => (hrest y hy).1 (List.mem_cons_of_mem x hs), (hrest y hy).2⟩
      · rintro ⟨⟨hx, hnodup⟩, -, hrest⟩
        refine ⟨hnodup, fun y hy => ⟨fun hs => ?_, (hrest y hy).2⟩⟩
        rcases List.mem_cons.mp hs with rfl | hs
        · exact hx hy
        · exact (hrest y hy).1 hs

/-- The item that is found comes first of those that are bad or stand there already. -/
theorem exists_of_firstRepeatedOr {x : String} (h : firstRepeatedOr bad seen xs = some x) :
    ∃ pre post, xs = pre ++ x :: post ∧ firstRepeatedOr bad seen pre = none ∧
      (x ∈ seen ∨ x ∈ pre ∨ bad x = true) := by
  induction xs generalizing seen with
  | nil => cases h
  | cons y xs ih =>
    rw [firstRepeatedOr] at h
    split_ifs at h with hy
    · cases h
      rw [Bool.or_eq_true, List.contains_iff_mem] at hy
      exact ⟨[], xs, rfl, rfl, hy.imp_right Or.inr⟩
    · obtain ⟨pre, post, rfl, hpre, hx⟩ := ih h
      refine ⟨y :: pre, post, rfl, ?_, ?_⟩
      · rw [firstRepeatedOr, if_neg hy, hpre]
      · rw [List.mem_cons] at hx ⊢
        tauto

end

/-! ### Rules -/

/-- The default and the allowed values of a rule have its type. -/
structure ParamRule.WellFormed (rule : ParamRule) : Prop where
  default : ∀ v, rule.default = some v → rule.tag.accepts v = true
  allowed : ∀ vs, rule.allowed = some vs → ∀ v ∈ vs, rule.tag.accepts v = true

namespace Contract

variable {c : Contract}

/-- The first thing that is wrong with a parameter and its rule. -/
inductive RuleFault (c : Contract) (name : String) (rule : ParamRule) : RegistryFault → Prop
  | name :
      ¬IsName name.toList → RuleFault c name rule (.invalidName .parameter name)
  | default {v : Value} :
      IsName name.toList → rule.default = some v → rule.tag.accepts v = false →
        RuleFault c name rule (.invalidDefault c.key name rule.tag)
  | allowed {vs ws : List Value} {v : Value} :
      IsName name.toList → (∀ v, rule.default = some v → rule.tag.accepts v = true) →
        rule.allowed = some (vs ++ v :: ws) → (∀ w ∈ vs, rule.tag.accepts w = true) →
          rule.tag.accepts v = false →
            RuleFault c name rule (.invalidAllowedValue c.key name v rule.tag)

/-- A parameter has a name and a well-formed rule, or the check reports what is wrong with it. -/
theorem ruleFault?_cases (c : Contract) (name : String) (rule : ParamRule) :
    (c.ruleFault? name rule = none ∧ IsName name.toList ∧ rule.WellFormed) ∨
      ∃ fault, c.ruleFault? name rule = some fault ∧ c.RuleFault name rule fault := by
  unfold ruleFault?
  by_cases hname : IsName name.toList
  · rw [NameRole.fault?_eq_none_iff.mpr hname, Option.none_or]
    split_ifs with hbad
    · cases hdefault : rule.default with
      | none =>
        rw [hdefault] at hbad
        cases hbad
      | some v =>
        have hv : rule.tag.accepts v = false := by simpa [hdefault] using hbad
        exact Or.inr ⟨_, rfl, .default hname hdefault hv⟩
    · have hdefault : ∀ v, rule.default = some v → rule.tag.accepts v = true := by
        intro v hv
        simpa [hv] using hbad
      cases hallowed : rule.allowed with
      | none =>
        refine Or.inl ⟨rfl, hname, hdefault, fun vs hvs => ?_⟩
        rw [hallowed] at hvs
        cases hvs
      | some vs =>
        rw [Option.bind_some]
        cases hfind : vs.find? fun v => !rule.tag.accepts v with
        | none =>
          refine Or.inl ⟨rfl, hname, hdefault, fun ws hws v hv => ?_⟩
          obtain rfl : vs = ws := Option.some.inj (hallowed.symm.trans hws)
          simpa using List.find?_eq_none.mp hfind v hv
        | some v =>
          obtain ⟨hv, before, after, rfl, hbefore⟩ := List.find?_eq_some_iff_append.mp hfind
          refine Or.inr ⟨_, rfl, .allowed hname hdefault hallowed (fun w hw => ?_) ?_⟩
          · simpa using hbefore w hw
          · simpa using hv
  · rw [NameRole.fault?_eq_some_iff.mpr ⟨hname, rfl⟩, Option.some_or]
    exact Or.inr ⟨_, rfl, .name hname⟩

/-! ### Contracts -/

/-- The names of a contract are names, and its parameters have well-formed rules. -/
structure Typed (c : Contract) : Prop where
  family : IsName c.family.toList
  name : IsName c.name.toList
  parameters : ∀ e ∈ c.parameters.entries, IsName e.1.toList ∧ e.2.WellFormed

/-- What is required is declared as well, and the handler has different names for different
parameters. -/
structure WellFormed (c : Contract) : Prop extends Typed c where
  required : ∀ name ∈ c.required, name ∈ c.parameters.names
  mapping : ∀ h, c.handler = some h → h.mapping.values.Nodup

/-- The first thing that is wrong with a contract. -/
inductive FirstFault (c : Contract) : RegistryFault → Prop
  | family :
      ¬IsName c.family.toList → FirstFault c (.invalidName .family c.family)
  | name :
      IsName c.family.toList → ¬IsName c.name.toList →
        FirstFault c (.invalidName .function c.name)
  | rule {before after : List (String × ParamRule)} {name : String} {rule : ParamRule}
      {fault : RegistryFault} :
      IsName c.family.toList → IsName c.name.toList →
        c.parameters.entries = before ++ (name, rule) :: after →
          (∀ e ∈ before, IsName e.1.toList ∧ e.2.WellFormed) → c.RuleFault name rule fault →
            FirstFault c fault
  | required {before after : List String} {name : String} :
      c.Typed → c.required = before ++ name :: after →
        (∀ n ∈ before, n ∈ c.parameters.names) →
          name ∈ before ∨ name ∉ c.parameters.names →
            FirstFault c (.undeclaredRequired c.key name)
  | mapping {h : Handler} {before after : List String} {target : String} :
      c.Typed → (∀ n ∈ c.required, n ∈ c.parameters.names) → c.handler = some h →
        h.mapping.values = before ++ target :: after → before.Nodup → target ∈ before →
          FirstFault c (.conflictingMapping c.key target)

theorem isNone_rule?_iff {name : String} :
    (c.rule? name).isNone = true ↔ name ∉ c.parameters.names := by
  rw [Option.isNone_iff_eq_none]
  exact OrderedMap.get?_eq_none_iff

/-- The rules are well-formed, or the check of the parameters reports the first that is not. -/
theorem rules_cases (c : Contract) :
    ((c.parameters.entries.findSome? fun e => c.ruleFault? e.1 e.2) = none ∧
        ∀ e ∈ c.parameters.entries, IsName e.1.toList ∧ e.2.WellFormed) ∨
      ∃ fault before name rule after,
        (c.parameters.entries.findSome? fun e => c.ruleFault? e.1 e.2) = some fault ∧
          c.parameters.entries = before ++ (name, rule) :: after ∧
            (∀ e ∈ before, IsName e.1.toList ∧ e.2.WellFormed) ∧ c.RuleFault name rule fault := by
  have hok : ∀ e : String × ParamRule, c.ruleFault? e.1 e.2 = none →
      IsName e.1.toList ∧ e.2.WellFormed := by
    intro e he
    rcases c.ruleFault?_cases e.1 e.2 with ⟨-, h⟩ | ⟨fault, hfault, -⟩
    · exact h
    · rw [he] at hfault
      cases hfault
  cases hfind : c.parameters.entries.findSome? fun e => c.ruleFault? e.1 e.2 with
  | none => exact Or.inl ⟨rfl, fun e he => hok e (List.findSome?_eq_none_iff.mp hfind e he)⟩
  | some fault =>
    obtain ⟨before, ⟨name, rule⟩, after, hes, hfault, hbefore⟩ :=
      List.findSome?_eq_some_iff.mp hfind
    refine Or.inr ⟨fault, before, name, rule, after, rfl, hes, fun e he => hok e (hbefore e he), ?_⟩
    rcases c.ruleFault?_cases name rule with ⟨hnone, -⟩ | ⟨fault', hsome, hrule⟩
    · rw [hnone] at hfault
      cases hfault
    · rw [hsome] at hfault
      cases hfault
      exact hrule

/-- What is required is declared and required once, or the check reports the first that is not. -/
theorem required_cases (c : Contract) :
    (c.requiredFault? = none ∧ c.required.Nodup ∧ ∀ n ∈ c.required, n ∈ c.parameters.names) ∨
      ∃ before name after, c.requiredFault? = some (.undeclaredRequired c.key name) ∧
        c.required = before ++ name :: after ∧ (∀ n ∈ before, n ∈ c.parameters.names) ∧
          (name ∈ before ∨ name ∉ c.parameters.names) := by
  have hdeclared : ∀ n, (c.rule? n).isNone = false → n ∈ c.parameters.names := by
    intro n hn
    by_contra hnot
    rw [isNone_rule?_iff.mpr hnot] at hn
    cases hn
  unfold requiredFault?
  cases hfirst : firstRepeatedOr (fun name => (c.rule? name).isNone) [] c.required with
  | none =>
    obtain ⟨hnodup, hall⟩ := firstRepeatedOr_eq_none_iff.mp hfirst
    exact Or.inl ⟨rfl, hnodup, fun n hn => hdeclared n (hall n hn).2⟩
  | some name =>
    obtain ⟨before, after, hsplit, hbefore, hbad⟩ := exists_of_firstRepeatedOr hfirst
    have hall := (firstRepeatedOr_eq_none_iff.mp hbefore).2
    refine Or.inr ⟨before, name, after, rfl, hsplit, fun n hn => hdeclared n (hall n hn).2, ?_⟩
    rcases hbad with hnil | hbefore | hbad
    · cases hnil
    · exact Or.inl hbefore
    · exact Or.inr (isNone_rule?_iff.mp hbad)

/-- The handler has different names, or the check reports the first that it has twice. -/
theorem mapping_cases (c : Contract) :
    (c.mappingFault? = none ∧ ∀ h, c.handler = some h → h.mapping.values.Nodup) ∨
      ∃ h before target after, c.mappingFault? = some (.conflictingMapping c.key target) ∧
        c.handler = some h ∧ h.mapping.values = before ++ target :: after ∧ before.Nodup ∧
          target ∈ before := by
  unfold mappingFault?
  cases c.handler with
  | none =>
    refine Or.inl ⟨rfl, fun h hh => ?_⟩
    cases hh
  | some h =>
    rw [Option.bind_some]
    cases hfirst : firstRepeatedOr (fun _ => false) [] h.mapping.values with
    | none =>
      refine Or.inl ⟨rfl, fun h' hh => ?_⟩
      cases hh
      exact (firstRepeatedOr_eq_none_iff.mp hfirst).1
    | some target =>
      obtain ⟨before, after, hsplit, hbefore, hbad⟩ := exists_of_firstRepeatedOr hfirst
      have hnodup := (firstRepeatedOr_eq_none_iff.mp hbefore).1
      refine Or.inr ⟨h, before, target, after, rfl, rfl, hsplit, hnodup, ?_⟩
      simpa using hbad

/-- A contract is well-formed and requires nothing twice, or its check reports the first thing that
is wrong with it. -/
theorem fault?_cases (c : Contract) : (c.fault? = none ∧ c.WellFormed ∧ c.required.Nodup) ∨
    ∃ fault, c.fault? = some fault ∧ c.FirstFault fault := by
  unfold fault?
  by_cases hfamily : IsName c.family.toList
  · by_cases hname : IsName c.name.toList
    · rw [NameRole.fault?_eq_none_iff.mpr hfamily, NameRole.fault?_eq_none_iff.mpr hname,
        Option.none_or, Option.none_or]
      rcases c.rules_cases with ⟨hnone, hrules⟩ | ⟨fault, before, name, rule, after, hsome, h⟩
      · have htyped : c.Typed := ⟨hfamily, hname, hrules⟩
        rw [hnone, Option.none_or]
        rcases c.required_cases with ⟨hnone, hnodup, hrequired⟩ | ⟨before, name, after, hsome, h⟩
        · rw [hnone, Option.none_or]
          rcases c.mapping_cases with ⟨hnone, hmapping⟩ | ⟨h, before, target, after, hsome, hh⟩
          · exact Or.inl ⟨hnone, ⟨htyped, hrequired, hmapping⟩, hnodup⟩
          · exact Or.inr ⟨_, hsome, .mapping htyped hrequired hh.1 hh.2.1 hh.2.2.1 hh.2.2.2⟩
        · rw [hsome, Option.some_or]
          exact Or.inr ⟨_, rfl, .required htyped h.1 h.2.1 h.2.2⟩
      · rw [hsome, Option.some_or]
        exact Or.inr ⟨_, rfl, .rule hfamily hname h.1 h.2.1 h.2.2⟩
    · rw [NameRole.fault?_eq_none_iff.mpr hfamily, Option.none_or,
        NameRole.fault?_eq_some_iff.mpr ⟨hname, rfl⟩, Option.some_or]
      exact Or.inr ⟨_, rfl, .name hfamily hname⟩
  · rw [NameRole.fault?_eq_some_iff.mpr ⟨hfamily, rfl⟩, Option.some_or]
    exact Or.inr ⟨_, rfl, .family hfamily⟩

theorem RuleFault.not_wellFormed {name : String} {rule : ParamRule} {fault : RegistryFault}
    (h : c.RuleFault name rule fault) : ¬(IsName name.toList ∧ rule.WellFormed) := by
  rintro ⟨hname, hrule⟩
  cases h with
  | name hno => exact hno hname
  | default _ hdefault hbad =>
    rw [hrule.default _ hdefault] at hbad
    cases hbad
  | allowed _ _ hallowed _ hbad =>
    rw [hrule.allowed _ hallowed _ (by simp)] at hbad
    cases hbad

/-- A contract that requires nothing twice and has a fault is not well-formed. -/
theorem FirstFault.not_wellFormed {fault : RegistryFault} (h : c.FirstFault fault)
    (hnodup : c.required.Nodup) : ¬c.WellFormed := by
  intro hc
  cases h with
  | family hno => exact hno hc.family
  | name _ hno => exact hno hc.name
  | rule _ _ hes _ hfault =>
    refine hfault.not_wellFormed (hc.parameters (_, _) ?_)
    rw [hes]
    simp
  | required _ hsplit _ hbad =>
    rcases hbad with hmem | hno
    · rw [hsplit] at hnodup
      exact (List.nodup_append.mp hnodup).2.2 _ hmem _ List.mem_cons_self rfl
    · refine hno (hc.required _ ?_)
      rw [hsplit]
      simp
  | mapping _ _ hh hsplit _ hmem =>
    have hvalues := hc.mapping _ hh
    rw [hsplit] at hvalues
    exact (List.nodup_append.mp hvalues).2.2 _ hmem _ List.mem_cons_self rfl

/-! ### Contracts that are put together -/

/-- A contract without parameters, or one to which something has been added. -/
inductive Made : Contract → Prop
  | new (family name : String) : Made { family, name }
  | withDescription {c : Contract} (description : String) : Made c → Made { c with description }
  | withParameter {c : Contract} (name : String) (rule : ParamRule) :
      Made c → Made (c.withParameter name rule)
  | withRequired {c : Contract} (name : String) : Made c → Made (c.withRequired name)
  | withHandler {c : Contract} (h : Handler) : Made c → Made { c with handler := some h }

theorem Made.nodup_required (h : c.Made) : c.required.Nodup := by
  induction h with
  | new family name => exact List.nodup_nil
  | withDescription description _ ih => exact ih
  | withParameter name rule _ ih => exact ih
  | @withRequired c name _ ih =>
    unfold Contract.withRequired
    split_ifs with hmem
    · exact ih
    · rw [List.contains_iff_mem] at hmem
      rw [← List.concat_eq_append, List.nodup_concat]
      exact ⟨hmem, ih⟩
  | withHandler h _ ih => exact ih

end Contract

end Directive
