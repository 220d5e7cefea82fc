import Directive.Proofs.Building
import Directive.Proofs.Draft

/-!
# Commands meet their contracts or have a first violation

`Contract.Met` says what a contract asks of a command, without an order of checks.
`Vocabulary.FirstViolation` says in which order departures from the vocabulary count: the family,
the function, the required parameters in the order of their declaration, and then the parameters of
the command in the order in which they were given, each against its rule.

The check of a command finds no violation exactly if the contract is met, and else the first one
(`violation?_eq_none_iff`, `violation?_eq_some_iff`); both are about the definitions from which the
registry was built, so lookups and custom checks are those that were defined.  What a report says of
a violation is `Violation.Told`: a code, and a message that names what departs.
-/

namespace Directive

open Grammar (Reading IsDirective)

/-! ### One value -/

/-- A rule accepts a value: it has the type, is one of the allowed values if there are any, and
passes the further check if there is one. -/
structure ParamRule.Allows (rule : ParamRule) (x : Value) : Prop where
  typed : rule.tag.accepts x = true
  allowed : ∀ vs, rule.allowed = some vs → ∃ w ∈ vs, w.equals x = true
  passed : ∀ check, rule.validator = some check → check.accepts x = true

theorem ParamRule.permits_iff {rule : ParamRule} {x : Value} : rule.permits x = true ↔
    ∀ vs, rule.allowed = some vs → ∃ w ∈ vs, w.equals x = true := by
  unfold permits
  rw [Option.all_eq_true]
  simp only [List.any_eq_true]

theorem ParamRule.permits_eq_false_iff {rule : ParamRule} {x : Value} : rule.permits x = false ↔
    ∃ vs, rule.allowed = some vs ∧ ∀ w ∈ vs, w.equals x = false := by
  unfold permits
  cases rule.allowed with
  | none => simp
  | some vs =>
    rw [Option.all_some, List.any_eq_false]
    simp

namespace Contract

variable {contract : Contract} {name : String} {x : Value} {c : Command} {violation : Violation}

/-- The first thing that is wrong with the value of a parameter. -/
inductive ValueFault (contract : Contract) (name : String) (x : Value) : Violation → Prop
  | unknown :
      contract.rule? name = none →
        ValueFault contract name x
          (.unknownParameter contract.key name contract.parameters.names)
  | mistyped {rule : ParamRule} :
      contract.rule? name = some rule → rule.tag.accepts x = false →
        ValueFault contract name x (.typeMismatch name rule.tag x)
  | notAllowed {rule : ParamRule} {vs : List Value} :
      contract.rule? name = some rule → rule.tag.accepts x = true → rule.allowed = some vs →
        (∀ w ∈ vs, w.equals x = false) →
          ValueFault contract name x (.valueNotAllowed name x vs)
  | rejected {rule : ParamRule} {check : Validator} :
      contract.rule? name = some rule → rule.tag.accepts x = true →
        (∀ vs, rule.allowed = some vs → ∃ w ∈ vs, w.equals x = true) →
          rule.validator = some check → check.accepts x = false →
            ValueFault contract name x (.valueRejected name x check)

theorem valueViolation?_eq_none_iff : contract.valueViolation? name x = none ↔
    ∃ rule, contract.rule? name = some rule ∧ rule.Allows x := by
  unfold valueViolation?
  cases hrule : contract.rule? name with
  | none => simp
  | some rule =>
    simp only [Option.some.injEq, exists_eq_left']
    constructor
    · intro h
      split_ifs at h with htag hpermits
      rw [Bool.not_eq_true', Bool.not_eq_false] at htag hpermits
      refine ⟨htag, ParamRule.permits_iff.mp hpermits, fun check hcheck => ?_⟩
      rw [hcheck] at h
      by_contra hno
      dsimp only at h
      rw [if_neg hno] at h
      cases h
    · rintro ⟨htag, hallowed, hpassed⟩
      rw [ParamRule.permits_iff.mpr hallowed, htag]
      cases hcheck : rule.validator with
      | none => rfl
      | some check => simp [hpassed check hcheck]

theorem valueViolation?_eq_some_iff :
    contract.valueViolation? name x = some violation ↔ contract.ValueFault name x violation := by
  constructor
  · intro h
    unfold valueViolation? at h
    cases hrule : contract.rule? name with
    | none =>
      rw [hrule] at h
      cases h
      exact .unknown hrule
    | some rule =>
      rw [hrule] at h
      dsimp only at h
      split_ifs at h with htag hpermits
      · cases h
        exact .mistyped hrule (by simpa using htag)
      · cases h
        rw [Bool.not_eq_true', Bool.not_eq_false] at htag
        rw [Bool.not_eq_true'] at hpermits
        obtain ⟨vs, hallowed, hno⟩ := ParamRule.permits_eq_false_iff.mp hpermits
        rw [hallowed]
        exact .notAllowed hrule htag hallowed hno
      · rw [Bool.not_eq_true', Bool.not_eq_false] at htag hpermits
        cases hcheck : rule.validator with
        | none =>
          rw [hcheck] at h
          cases h
        | some check =>
          rw [hcheck] at h
          dsimp only at h
          split_ifs at h with hpassed
          cases h
          exact .rejected hrule htag (ParamRule.permits_iff.mp hpermits) hcheck
            (Bool.eq_false_iff.mpr hpassed)
  · intro h
    unfold valueViolation?
    cases h with
    | unknown hrule => rw [hrule]
    | mistyped hrule htag => simp [hrule, htag]
    | notAllowed hrule htag hallowed hno =>
      have hpermits := ParamRule.permits_eq_false_iff.mpr ⟨_, hallowed, hno⟩
      simp [hrule, htag, hpermits, hallowed]
    | rejected hrule htag hallowed hcheck hno =>
      have hpermits := ParamRule.permits_iff.mpr hallowed
      simp [hrule, htag, hpermits, hcheck, hno]

/-- A command gives what the contract requires, and only values that it allows. -/
structure Met (contract : Contract) (c : Command) : Prop where
  required : ∀ name ∈ contract.required, name ∈ c.parameters.names
  supplied : ∀ e ∈ c.parameters.entries,
    ∃ rule, contract.rule? e.1 = some rule ∧ rule.Allows e.2

theorem missing?_eq_none_iff : contract.missing? c = none ↔
    ∀ name ∈ contract.required, name ∈ c.parameters.names := by
  unfold missing?
  rw [Option.map_eq_none_iff, List.find?_eq_none]
  refine forall₂_congr fun name _ => ?_
  rw [Option.isNone_iff_eq_none]
  exact (not_congr OrderedMap.get?_eq_none_iff).trans not_not

theorem missing?_eq_some_iff : contract.missing? c = some violation ↔
    ∃ before name after, contract.required = before ++ name :: after ∧
      (∀ n ∈ before, n ∈ c.parameters.names) ∧ name ∉ c.parameters.names ∧
        violation = .missingParameter contract.key name := by
  have hnone : ∀ name, (c.get? name).isNone = true ↔ name ∉ c.parameters.names := by
    intro name
    rw [Option.isNone_iff_eq_none]
    exact OrderedMap.get?_eq_none_iff
  have hgiven : ∀ name, (!(c.get? name).isNone) = true ↔ name ∈ c.parameters.names := by
    intro name
    rw [Bool.not_eq_true', ← Bool.not_eq_true, hnone, not_not]
  unfold missing?
  rw [Option.map_eq_some_iff]
  simp only [List.find?_eq_some_iff_append, hnone, hgiven]
  constructor
  · rintro ⟨name, ⟨hno, before, after, hsplit, hbefore⟩, rfl⟩
    exact ⟨before, name, after, hsplit, hbefore, hno, rfl⟩
  · rintro ⟨before, name, after, hsplit, hbefore, hno, rfl⟩
    exact ⟨name, ⟨hno, before, after, hsplit, hbefore⟩, rfl⟩

theorem violation?_eq_none_iff : contract.violation? c = none ↔ contract.Met c := by
  unfold violation?
  rw [Option.or_eq_none_iff, missing?_eq_none_iff, List.findSome?_eq_none_iff]
  simp only [valueViolation?_eq_none_iff]
  exact ⟨fun h => ⟨h.1, h.2⟩, fun h => ⟨h.required, h.supplied⟩⟩

/-- The first thing in which a command departs from a contract. -/
inductive FirstViolation (contract : Contract) (c : Command) : Violation → Prop
  | missing {before after : List String} {name : String} :
      contract.required = before ++ name :: after → (∀ n ∈ before, n ∈ c.parameters.names) →
        name ∉ c.parameters.names →
          FirstViolation contract c (.missingParameter contract.key name)
  | value {before after : List (String × Value)} {name : String} {x : Value}
      {violation : Violation} :
      (∀ n ∈ contract.required, n ∈ c.parameters.names) →
        c.parameters.entries = before ++ (name, x) :: after →
          (∀ e ∈ before, ∃ rule, contract.rule? e.1 = some rule ∧ rule.Allows e.2) →
            contract.ValueFault name x violation → FirstViolation contract c violation

theorem violation?_eq_some_iff :
    contract.violation? c = some violation ↔ contract.FirstViolation c violation := by
  unfold violation?
  rw [Option.or_eq_some_iff, missing?_eq_some_iff, missing?_eq_none_iff, List.findSome?_eq_some_iff]
  simp only [valueViolation?_eq_none_iff, valueViolation?_eq_some_iff]
  constructor
  · rintro (⟨before, name, after, hsplit, hbefore, hno, rfl⟩ |
      ⟨hrequired, before, ⟨name, x⟩, after, hsplit, hfault, hbefore⟩)
    · exact .missing hsplit hbefore hno
    · exact .value hrequired hsplit hbefore hfault
  · intro h
    cases h with
    | missing hsplit hbefore hno => exact Or.inl ⟨_, _, _, hsplit, hbefore, hno, rfl⟩
    | value hrequired hsplit hbefore hfault =>
      exact Or.inr ⟨hrequired, _, _, _, hsplit, hfault, hbefore⟩

end Contract

/-! ### Messages -/

namespace Violation

/-- `violation.Told id message`: a report of the violation has the code `id`, and its message names
the family, the function or the parameter that departs. -/
inductive Told : Violation → String → String → Prop
  | unknownFamily (family : String) (known : List String) :
      Told (.unknownFamily family known) "E200" ("unknown family `" ++ family ++ "`")
  | unknownFunction (family function : String) (known : List String) :
      Told (.unknownFunction family function known) "E201"
        ("unknown function `" ++ function ++ "` in family `" ++ family ++ "`")
  | missingParameter (function parameter : String) :
      Told (.missingParameter function parameter) "E202"
        ("missing required parameter `" ++ parameter ++ "`")
  | unknownParameter (function parameter : String) (declared : List String) :
      Told (.unknownParameter function parameter declared) "E203"
        ("unknown parameter `" ++ parameter ++ "`")
  | typeMismatch (parameter : String) (tag : TypeTag) (value : Value) :
      Told (.typeMismatch parameter tag value) "E300"
        ("parameter `" ++ parameter ++ "` expects " ++ tag.name ++ ", found " ++ value.kindName ++
          " `" ++ value.text ++ "`")
  | valueNotAllowed (parameter : String) (value : Value) (allowed : List Value) :
      Told (.valueNotAllowed parameter value allowed) "E301"
        ("value `" ++ value.text ++ "` is not allowed for parameter `" ++ parameter ++ "`")
  | valueRejected (parameter : String) (value : Value) (check : Validator) :
      Told (.valueRejected parameter value check) "E302"
        ("parameter `" ++ parameter ++ "` rejected value `" ++ value.text ++ "`: expected " ++
          check.expectation)

/-- The code and the message of a violation tell it. -/
theorem told_message (violation : Violation) :
    violation.Told violation.code.id violation.message := by
  cases violation <;> constructor

end Violation

/-! ### Commands of a vocabulary -/

namespace Vocabulary

variable {v : Vocabulary} {r : Registry} {c : Command} {violation : Violation}

/-- The function is defined, and its contract is met. -/
def Permits (v : Vocabulary) (c : Command) : Prop :=
  ∃ contract ∈ v.contracts, contract.family = c.family ∧ contract.name = c.function ∧
    contract.Met c

/-- The first thing in which a command departs from a vocabulary. -/
inductive FirstViolation (v : Vocabulary) (c : Command) : Violation → Prop
  | unknownFamily :
      c.family ∉ v.families.map Family.name →
        FirstViolation v c (.unknownFamily c.family (v.families.map Family.name))
  | unknownFunction :
      c.family ∈ v.families.map Family.name →
        (∀ contract ∈ v.contracts, ¬(contract.family = c.family ∧ contract.name = c.function)) →
          FirstViolation v c
            (.unknownFunction c.family c.function ((v.functionsOf c.family).map Contract.name))
  | contract {contract : Contract} {violation : Violation} :
      contract ∈ v.contracts → contract.family = c.family → contract.name = c.function →
        contract.FirstViolation c violation → FirstViolation v c violation

namespace Makes

theorem violation?_eq_none_iff (h : v.Makes r) : r.violation? c = none ↔ v.Permits c := by
  unfold Registry.violation?
  cases hlookup : r.lookup c.family c.function with
  | unknownFamily =>
    refine iff_of_false (by simp) ?_
    rintro ⟨contract, hmem, hfamily, -⟩
    refine h.lookup_eq_unknownFamily_iff.mp hlookup ?_
    rw [← hfamily]
    exact h.wellFormed.declared contract hmem
  | unknownFunction =>
    refine iff_of_false (by simp) ?_
    rintro ⟨contract, hmem, hfamily, hname, -⟩
    exact (h.lookup_eq_unknownFunction_iff.mp hlookup).2 contract hmem ⟨hfamily, hname⟩
  | found contract =>
    obtain ⟨hmem, hfamily, hname⟩ := h.lookup_eq_found_iff.mp hlookup
    dsimp only
    rw [Contract.violation?_eq_none_iff]
    constructor
    · intro hmet
      exact ⟨contract, hmem, hfamily, hname, hmet⟩
    · rintro ⟨contract', hmem', hfamily', hname', hmet⟩
      -- no other contract has these names, since the lookup has one answer
      rw [h.lookup_eq_found_iff.mpr ⟨hmem', hfamily', hname'⟩] at hlookup
      cases hlookup
      exact hmet

theorem violation?_eq_some_iff (h : v.Makes r) :
    r.violation? c = some violation ↔ v.FirstViolation c violation := by
  unfold Registry.violation?
  constructor
  · intro hv
    cases hlookup : r.lookup c.family c.function with
    | unknownFamily =>
      rw [hlookup, h.families_eq] at hv
      cases hv
      exact .unknownFamily (h.lookup_eq_unknownFamily_iff.mp hlookup)
    | unknownFunction =>
      rw [hlookup, h.contracts_eq] at hv
      cases hv
      obtain ⟨hfamily, hno⟩ := h.lookup_eq_unknownFunction_iff.mp hlookup
      exact .unknownFunction hfamily hno
    | found contract =>
      rw [hlookup] at hv
      obtain ⟨hmem, hfamily, hname⟩ := h.lookup_eq_found_iff.mp hlookup
      exact .contract hmem hfamily hname (Contract.violation?_eq_some_iff.mp hv)
  · intro hv
    cases hv with
    | unknownFamily hno =>
      rw [h.lookup_eq_unknownFamily_iff.mpr hno, h.families_eq]
    | unknownFunction hfamily hno =>
      rw [h.lookup_eq_unknownFunction_iff.mpr ⟨hfamily, hno⟩, h.contracts_eq]
    | contract hmem hfamily hname hfirst =>
      rw [h.lookup_eq_found_iff.mpr ⟨hmem, hfamily, hname⟩]
      exact Contract.violation?_eq_some_iff.mpr hfirst

/-- The further checks of a registry are those of the rules that were defined. -/
theorem validator?_eq (h : v.Makes r) {contract : Contract} (hmem : contract ∈ v.contracts)
    (name : String) : r.validator? contract.family contract.name name =
      (contract.rule? name).bind ParamRule.validator := by
  have hcontract := h.contract?_eq_some_iff.mpr ⟨hmem, rfl, rfl⟩
  rw [Registry.validator?, hcontract, Option.bind_some]

end Makes

end Vocabulary

/-! ### The order of the parameters -/

/-- The parameters of a reading: each name at the place where it stands first, with the value it has
last. -/
def Grammar.Reading.supplied (g : Reading) : List (String × Value) :=
  (g.params.map fun p => String.ofList p.1).eraseDups.filterMap fun n =>
    ((g.params.filter fun p => String.ofList p.1 == n).getLast?).map fun p =>
      (n, Value.coerce (String.ofList p.2))

theorem Grammar.Reading.entries_command (g : Reading) (text : String) :
    (g.command text).parameters.entries = g.supplied := by
  rw [OrderedMap.entries_eq]
  show (OrderedMap.ofList _).names.filterMap (fun n => ((OrderedMap.ofList _).get? n).map _) = _
  rw [OrderedMap.names_ofList, List.map_map]
  refine List.filterMap_congr fun n _ => ?_
  rw [OrderedMap.get?_ofList, List.filter_map, List.getLast?_map, Option.map_map, Option.map_map]
  rfl

namespace Vocabulary

/-- Against a registry that was built from a vocabulary, a text is read exactly if its syntax is
right and the vocabulary permits its command.  If the syntax is wrong, the report is that of the
syntax; else it tells the one violation that comes first, by its code and by a message that names
what departs, where the parameters come in the order in which the text gives them.  The further
checks are those of the rules that were defined. -/
theorem parse_of_build {v : Vocabulary} {r : Registry} (h : v.build = .ok r) (text : String) :
    (∀ c, r.parse text = .ok c ↔ parseSyntax text = .ok c ∧ v.Permits c) ∧
      (∀ report, parseSyntax text = .error report → r.parse text = .error report) ∧
      (∀ c, parseSyntax text = .ok c → ¬v.Permits c →
        ∃ violation report, v.FirstViolation c violation ∧
          (∀ violation', v.FirstViolation c violation' → violation' = violation) ∧
          r.parse text = .error report ∧ report.source = text ∧
          report.diagnostic.code = some violation.code ∧
          report.diagnostic.message = violation.message ∧
          violation.Told violation.code.id report.diagnostic.message) ∧
      (∀ c g, parseSyntax text = .ok c → IsDirective g text.toList →
        c.parameters.entries = g.supplied) ∧
      ∀ contract ∈ v.contracts, ∀ name, r.validator? contract.family contract.name name =
        (contract.rule? name).bind ParamRule.validator := by
  have hmakes := makes_of_build h
  refine ⟨fun c => ?_, fun report => Registry.parse_of_parseSyntax_error, fun c hc hno => ?_,
    fun c g hc hg => ?_, fun contract => hmakes.validator?_eq⟩
  · rw [Registry.parse_eq_ok_iff_parseSyntax, hmakes.violation?_eq_none_iff]
  · rw [← hmakes.violation?_eq_none_iff, ← Ne, Option.ne_none_iff_exists'] at hno
    obtain ⟨violation, hv⟩ := hno
    obtain ⟨report, hreport⟩ := Registry.parse_of_violation hc hv
    obtain ⟨hparse, hsource, hcode, hmessage⟩ := hreport
    refine ⟨violation, report, hmakes.violation?_eq_some_iff.mp hv, fun violation' hv' => ?_,
      hparse, hsource, hcode, hmessage, hmessage ▸ violation.told_message⟩
    rw [← hmakes.violation?_eq_some_iff, hv] at hv'
    exact (Option.some.inj hv').symm
  · obtain ⟨g', hg', rfl⟩ := parseSyntax_eq_ok_iff.mp hc
    rw [hg.unique hg', Reading.entries_command]

/-- A required parameter that is missing counts before a parameter that nobody knows. -/
theorem parse_of_build_missing : ∃ v r, build v = .ok r ∧ ∃ report,
    r.parse ".p/a.b\x7by=1\x7d" = .error report ∧
      report.diagnostic.code = some .missingParameter ∧
      report.diagnostic.message = "missing required parameter `x`" := by
  let contract : Contract :=
    { family := "a", name := "b", parameters := .ofList [("x", { tag := .integer })],
      required := ["x"] }
  let v : Vocabulary := ⟨[⟨"a", ""⟩], [contract]⟩
  let c : Command := ⟨"a", "b", .ofList [("y", .integer 1)], ".p/a.b\x7by=1\x7d"⟩
  obtain ⟨r, hr⟩ : ∃ r, v.build = .ok r := by
    unfold v contract
    exact ⟨_, rfl⟩
  have hc : parseSyntax ".p/a.b\x7by=1\x7d" = .ok c := rfl
  have hno : "x" ∉ c.parameters.names := by decide
  have hmem : contract ∈ v.contracts := List.mem_singleton.mpr rfl
  have hpermits : ¬v.Permits c := by
    rintro ⟨contract', hmem', -, -, hmet⟩
    rw [List.mem_singleton.mp hmem'] at hmet
    exact hno (hmet.required "x" List.mem_cons_self)
  have hfirst : v.FirstViolation c (.missingParameter "a.b" "x") :=
    .contract hmem rfl rfl (.missing (List.nil_append _).symm (List.forall_mem_nil _) hno)
  obtain ⟨violation, report, -, huniq, hreport, -, hcode, -, htold⟩ :=
    (parse_of_build hr ".p/a.b\x7by=1\x7d").2.2.1 c hc hpermits
  obtain rfl := huniq _ hfirst
  generalize hmessage : report.diagnostic.message = message at htold
  cases htold
  exact ⟨v, r, hr, report, hreport, hcode, hmessage⟩

end Vocabulary

end Directive
