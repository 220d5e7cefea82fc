import Directive.Definition.Layer
import Mathlib.Data.List.Forall2
import Mathlib.Data.List.Induction

/-!
# What the entries of a definition file describe

An entry says in words and TOML values what a rule or a contract is to be.  `Toml.Value.Denotes` is
what a value stands for in directives, and `TypeTag.names` and `Validator.name` are the tables of
the words; from these `Definition.ParamEntry.Describes` and `Definition.FunctionEntry.Describes` say
which rule and which contract an entry describes, without the order in which its parts are looked
at.  An entry that describes nothing has a first fault (`Definition.FunctionEntry.FirstFault`), and
there the order counts.

The conversion of an entry succeeds with what the entry describes (`contract_eq_ok_iff`), or it
fails with the first fault (`contract_eq_error_iff`).
-/

namespace Directive

/-! ### Steps and loops that succeed or fail -/

section

variable {α β ε : Type} {f : α → Except ε β} {fault : ε}

theorem exists_of_any_toOption {x : Except ε α} {p : α → Bool} (h : x.toOption.any p = true) :
    ∃ a, x = .ok a ∧ p a = true := by
  cases x with
  | ok a => exact ⟨a, rfl, h⟩
  | error e => cases h

theorem bind_eq_ok_iff {x : Except ε α} {y : β} :
    x >>= f = .ok y ↔ ∃ a, x = .ok a ∧ f a = .ok y := by
  cases x <;> simp [bind, Except.bind]

theorem bind_eq_error_iff {x : Except ε α} :
    x >>= f = .error fault ↔ x = .error fault ∨ ∃ a, x = .ok a ∧ f a = .error fault := by
  cases x <;> simp [bind, Except.bind]

/-- A loop succeeds exactly if it does at every item. -/
theorem mapM_eq_ok_iff {xs : List α} {ys : List β} :
    xs.mapM f = .ok ys ↔ List.Forall₂ (fun x y => f x = .ok y) xs ys := by
  induction xs generalizing ys with
  | nil => cases ys <;> simp [pure, Except.pure]
  | cons x xs ih =>
    simp only [List.mapM_cons, bind_eq_ok_iff, ih, List.forall₂_cons_left_iff]
    constructor
    · rintro ⟨y, hy, ys', hys, h⟩
      cases h
      exact ⟨y, ys', hy, hys, rfl⟩
    · rintro ⟨y, ys', hy, hys, rfl⟩
      exact ⟨y, hy, ys', hys, rfl⟩

/-- A loop fails exactly if it does at an item behind others at which it succeeds. -/
theorem mapM_eq_error_iff {xs : List α} :
    xs.mapM f = .error fault ↔ ∃ before x after, xs = before ++ x :: after ∧
      (∀ y ∈ before, ∃ z, f y = .ok z) ∧ f x = .error fault := by
  induction xs with
  | nil => simp [pure, Except.pure]
  | cons x xs ih =>
    simp only [List.mapM_cons, bind_eq_error_iff, ih]
    constructor
    · rintro (hx | ⟨y, hy, ⟨before, x', after, rfl, hbefore, hx'⟩ | ⟨ys, -, h⟩⟩)
      · exact ⟨[], x, xs, rfl, List.forall_mem_nil _, hx⟩
      · exact ⟨x :: before, x', after, rfl, List.forall_mem_cons.mpr ⟨⟨y, hy⟩, hbefore⟩, hx'⟩
      · cases h
    · rintro ⟨before, x', after, hsplit, hbefore, hx'⟩
      cases before with
      | nil =>
        obtain ⟨rfl, rfl⟩ := List.cons.inj hsplit
        exact Or.inl hx'
      | cons z before =>
        obtain ⟨rfl, rfl⟩ := List.cons.inj hsplit
        obtain ⟨⟨y, hy⟩, hbefore⟩ := List.forall_mem_cons.mp hbefore
        exact Or.inr ⟨y, hy, Or.inl ⟨before, x', after, rfl, hbefore, hx'⟩⟩

theorem option_mapM_eq_ok_iff {x : Option α} {y : Option β} :
    x.mapM f = .ok y ↔ Option.Rel (fun x y => f x = .ok y) x y := by
  cases x with
  | none => cases y <;> simp [pure, Except.pure]
  | some x =>
    rw [Option.mapM_some]
    cases hx : f x <;> cases y <;> simp [Functor.map, Except.map, hx]

theorem option_mapM_eq_error_iff {x : Option α} :
    x.mapM f = .error fault ↔ ∃ a, x = some a ∧ f a = .error fault := by
  cases x with
  | none => simp [pure, Except.pure]
  | some x =>
    rw [Option.mapM_some]
    cases hx : f x <;> simp [Functor.map, Except.map, hx]

end

namespace Definition

section

variable {α : Type} {fault fault' : DefinitionFault} {x : Option α} {a : α}

theorem require_eq_ok_iff : require fault x = .ok a ↔ x = some a := by
  cases x <;> simp [require]

theorem require_eq_error_iff :
    require fault x = .error fault' ↔ (∀ a, ¬x = some a) ∧ fault = fault' := by
  cases x <;> simp [require]

end

end Definition

/-! ### What values and words stand for -/

namespace Toml.Value

/-- What a TOML value stands for in directives.  Dates, times and tables stand for nothing, nor do
integers of more than 64 bits and floats that are too great. -/
inductive Denotes : Toml.Value → Directive.Value → Prop
  | string (s : String) : Denotes (.string s) (.string s)
  | integer (n : Int64) : Denotes (.integer n.toInt) (.integer n)
  | float (x : Binary64) : Denotes (.float x) (.float x)
  | boolean (b : Bool) : Denotes (.boolean b) (.boolean b)
  | array {items : List Toml.Value} {values : List Directive.Value} :
      List.Forall₂ Denotes items values → Denotes (.array items) (.list values)

/-- An integer stands for itself if it has 64 bits, and for nothing else. -/
theorem denotes_integer_iff {i : Int} {v : Directive.Value} :
    Denotes (.integer i) v ↔ isWord i = true ∧ v = .integer (Int64.ofInt i) := by
  rw [isWord, Bool.and_eq_true, decide_eq_true_eq, decide_eq_true_eq]
  constructor
  · intro h
    cases h with
    | integer n =>
      exact ⟨⟨Int64.minValue_le_toInt n, Int64.toInt_le n⟩, by rw [Int64.ofInt_toInt]⟩
  · rintro ⟨⟨hlo, hhi⟩, rfl⟩
    rw [Int64.toInt_minValue] at hlo
    rw [Int64.toInt_maxValue] at hhi
    have hi : (Int64.ofInt i).toInt = i := Int64.toInt_ofInt_of_le hlo (by omega)
    generalize Int64.ofInt i = n at hi ⊢
    rw [← hi]
    exact .integer n

end Toml.Value

namespace Definition

mutual

/-- A value is converted exactly if it stands for something, and then into that. -/
theorem value?_eq_some_iff (t : Toml.Value) (v : Value) : value? t = some v ↔ t.Denotes v := by
  cases t with
  | integer i =>
    rw [Toml.Value.denotes_integer_iff, value?]
    split_ifs with h <;> simp [h, eq_comm]
  | array items =>
    rw [value?, Option.map_eq_map, Option.map_eq_some_iff]
    constructor
    · rintro ⟨values, h, rfl⟩
      exact .array ((values?_eq_some_iff items values).mp h)
    · intro h
      cases h with
      | @array _ values h => exact ⟨values, (values?_eq_some_iff items values).mpr h, rfl⟩
  | overflow | datetime _ | table _ => exact iff_of_false (by simp [value?]) nofun
  | string _ | float _ | boolean _ =>
    rw [value?, Option.some.injEq]
    exact ⟨by rintro rfl; constructor, by rintro ⟨⟩; rfl⟩

theorem values?_eq_some_iff (ts : List Toml.Value) (vs : List Value) :
    values? ts = some vs ↔ List.Forall₂ Toml.Value.Denotes ts vs := by
  cases ts with
  | nil => simp [values?, eq_comm]
  | cons t ts =>
    simp only [values?, Option.bind_eq_bind, Option.bind_eq_some_iff, Option.pure_def,
      Option.some.injEq, value?_eq_some_iff t, values?_eq_some_iff ts, List.forall₂_cons_left_iff]
    constructor
    · rintro ⟨w, hw, ws, hws, rfl⟩
      exact ⟨w, ws, hw, hws, rfl⟩
    · rintro ⟨w, ws, hw, hws, rfl⟩
      exact ⟨w, hw, ws, hws, rfl⟩

end

end Definition

namespace TypeTag

/-- The further name that a type has in definitions, if it has one. -/
def aliases : TypeTag → List String
  | .string => ["str"]
  | .integer => ["int"]
  | .float => ["number"]
  | .boolean => ["bool"]
  | .list => ["sequence"]
  | .stringOrInt | .any | .null | .probabilityThreshold | .recursionDepth => []

/-- The names that a type has in definitions. -/
def names (tag : TypeTag) : List String :=
  tag.name :: tag.aliases

theorem ofName?_eq_some_iff {s : String} {tag : TypeTag} :
    ofName? s = some tag ↔ s ∈ tag.names := by
  constructor
  · intro h
    unfold ofName? at h
    split at h <;> cases h <;> decide
  · intro h
    cases tag <;>
      simp only [names, name, aliases, List.mem_cons, List.not_mem_nil, or_false] at h <;>
        rcases h with rfl | rfl <;> rfl

end TypeTag

theorem Validator.ofName?_eq_some_iff {s : String} {check : Validator} :
    ofName? s = some check ↔ s = check.name := by
  constructor
  · intro h
    unfold ofName? at h
    split at h <;> cases h <;> rfl
  · rintro rfl
    cases check <;> rfl

/-! ### What entries describe -/

namespace Definition

/-- What an entry says of a parameter is what the rule asks. -/
structure ParamEntry.Describes (p : ParamEntry) (rule : ParamRule) : Prop where
  tag : p.type ∈ rule.tag.names
  default : Option.Rel Toml.Value.Denotes p.default rule.default
  allowed : Option.Rel (List.Forall₂ Toml.Value.Denotes) p.allowed rule.allowed
  validator : Option.Rel (fun name check => name = check.name) p.validator rule.validator
  description : rule.description = p.description

/-- What an entry says of a function is what the contract asks; a parameter that is required twice
is required once. -/
structure FunctionEntry.Describes (f : FunctionEntry) (c : Contract) : Prop where
  family : c.family = f.family
  name : c.name = f.name
  description : c.description = f.description
  parameters : ∃ rules,
    List.Forall₂ (fun e rule => rule.1 = e.1 ∧ e.2.Describes rule.2) f.parameters rules ∧
      c.parameters = .ofList rules
  required : c.required = f.required.eraseDups
  handler : c.handler = f.handler.map fun h => ⟨h.module, h.function, .ofList h.mapping⟩

/-- The contracts that entries describe have the names of the entries. -/
theorem FunctionEntry.keys_eq_of_describes {fs : List FunctionEntry} {cs : List Contract}
    (h : List.Forall₂ Describes fs cs) :
    cs.map (fun c => (c.family, c.name)) = fs.map fun e => (e.family, e.name) := by
  induction h with
  | nil => rfl
  | cons hd _ ih => rw [List.map_cons, List.map_cons, ih, hd.family, hd.name]

/-- The only rule is the one that the only parameter describes. -/
theorem FunctionEntry.Describes.exists_rule {f : FunctionEntry} {c : Contract} {name : String}
    {p : ParamEntry} (h : f.Describes c) (hp : f.parameters = [(name, p)]) :
    ∃ rule, p.Describes rule ∧ c.parameters = .ofList [(name, rule)] := by
  obtain ⟨rules, hrules, hof⟩ := h.parameters
  rw [hp, List.forall₂_cons_left_iff] at hrules
  obtain ⟨rule, _, ⟨rfl, hrule⟩, hnil, rfl⟩ := hrules
  rw [List.forall₂_nil_left_iff.mp hnil] at hof
  exact ⟨rule.2, hrule, hof⟩

/-- The first thing that keeps an entry for the parameter `name` of the function `key` from
describing a rule: its type, its default, its allowed values and its further check count in this
order. -/
inductive ParamEntry.FirstFault (key name : String) (p : ParamEntry) : DefinitionFault → Prop
  | type :
      (∀ tag : TypeTag, p.type ∉ tag.names) →
        FirstFault key name p (.vocabulary (.unknownTypeTag p.type))
  | default {tag : TypeTag} {t : Toml.Value} :
      p.type ∈ tag.names → p.default = some t → (∀ v, ¬t.Denotes v) →
        FirstFault key name p (.unusable "default" name key t.typeName)
  | allowed {tag : TypeTag} {default : Option Value} {before after : List Toml.Value}
      {t : Toml.Value} :
      p.type ∈ tag.names → Option.Rel Toml.Value.Denotes p.default default →
        p.allowed = some (before ++ t :: after) → (∀ s ∈ before, ∃ v, s.Denotes v) →
          (∀ v, ¬t.Denotes v) →
            FirstFault key name p (.unusable "allowed value" name key t.typeName)
  | validator {tag : TypeTag} {default : Option Value} {allowed : Option (List Value)}
      {word : String} :
      p.type ∈ tag.names → Option.Rel Toml.Value.Denotes p.default default →
        Option.Rel (List.Forall₂ Toml.Value.Denotes) p.allowed allowed →
          p.validator = some word → (∀ check : Validator, ¬word = check.name) →
            FirstFault key name p (.vocabulary (.unknownValidator word))

/-- The first thing that keeps an entry from describing a contract is what keeps the first of its
parameters that describes no rule from doing so. -/
def FunctionEntry.FirstFault (f : FunctionEntry) (fault : DefinitionFault) : Prop :=
  ∃ before e after, f.parameters = before ++ e :: after ∧
    (∀ d ∈ before, ∃ rule, d.2.Describes rule) ∧ e.2.FirstFault f.key e.1 fault

/-! ### The conversion of entries -/

section

variable {role parameter function : String} {t : Toml.Value} {v : Value} {fault : DefinitionFault}

theorem useValue_eq_ok_iff : useValue role parameter function t = .ok v ↔ t.Denotes v := by
  rw [useValue, require_eq_ok_iff, value?_eq_some_iff]

theorem useValue_eq_error_iff : useValue role parameter function t = .error fault ↔
    (∀ v, ¬t.Denotes v) ∧ .unusable role parameter function t.typeName = fault := by
  simp only [useValue, require_eq_error_iff, value?_eq_some_iff]

end

namespace FunctionEntry

variable {f : FunctionEntry} {fault : DefinitionFault}

theorem rule_eq_ok_iff {name : String} {p : ParamEntry} {rule : ParamRule} :
    f.rule name p = .ok rule ↔ p.Describes rule := by
  simp only [FunctionEntry.rule, bind_eq_ok_iff, option_mapM_eq_ok_iff, mapM_eq_ok_iff,
    useValue_eq_ok_iff, useTypeTag, useValidator, require_eq_ok_iff, TypeTag.ofName?_eq_some_iff,
    Validator.ofName?_eq_some_iff]
  constructor
  · rintro ⟨tag, htag, default, hdefault, allowed, hallowed, validator, hvalidator, h⟩
    cases h
    exact ⟨htag, hdefault, hallowed, hvalidator, rfl⟩
  · rintro ⟨htag, hdefault, hallowed, hvalidator, hdescription⟩
    refine ⟨_, htag, _, hdefault, _, hallowed, _, hvalidator, ?_⟩
    rw [← hdescription]
    rfl

theorem rule_eq_error_iff {name : String} {p : ParamEntry} :
    f.rule name p = .error fault ↔ p.FirstFault f.key name fault := by
  simp only [FunctionEntry.rule, bind_eq_error_iff, option_mapM_eq_error_iff,
    option_mapM_eq_ok_iff, mapM_eq_error_iff, mapM_eq_ok_iff, useValue_eq_ok_iff,
    useValue_eq_error_iff, useTypeTag, useValidator, require_eq_ok_iff, require_eq_error_iff,
    TypeTag.ofName?_eq_some_iff, Validator.ofName?_eq_some_iff]
  constructor
  · -- each step fails, or it succeeds and one of those behind it fails
    rintro (⟨hno, rfl⟩ | ⟨tag, htag, ⟨t, ht, hno, rfl⟩ | ⟨default, hdefault,
      ⟨ts, hts, before, t, after, rfl, hbefore, hno, rfl⟩ | ⟨allowed, hallowed,
        ⟨word, hword, hno, rfl⟩ | ⟨validator, -, h⟩⟩⟩⟩)
    · exact .type hno
    · exact .default htag ht hno
    · exact .allowed htag hdefault hts hbefore hno
    · exact .validator htag hdefault hallowed hword hno
    · cases h
  · intro h
    cases h with
    | type hno => exact Or.inl ⟨hno, rfl⟩
    | default htag ht hno => exact Or.inr ⟨_, htag, Or.inl ⟨_, ht, hno, rfl⟩⟩
    | allowed htag hdefault hts hbefore hno =>
      exact Or.inr ⟨_, htag, Or.inr ⟨_, hdefault, Or.inl ⟨_, hts, _, _, _, rfl, hbefore, hno, rfl⟩⟩⟩
    | validator htag hdefault hallowed hword hno =>
      exact Or.inr ⟨_, htag, Or.inr ⟨_, hdefault, Or.inr ⟨_, hallowed, Or.inl
        ⟨_, hword, hno, rfl⟩⟩⟩⟩

/-- The loop over the parameters keeps the name of each. -/
theorem named_rule_eq_ok_iff {e : String × ParamEntry} {rule : String × ParamRule} :
    (do return (e.1, ← f.rule e.1 e.2) : Except DefinitionFault _) = .ok rule ↔
      rule.1 = e.1 ∧ e.2.Describes rule.2 := by
  rw [bind_eq_ok_iff, ← rule_eq_ok_iff]
  constructor
  · rintro ⟨r, hr, h⟩
    cases h
    exact ⟨rfl, hr⟩
  · rintro ⟨hname, hr⟩
    exact ⟨rule.2, hr, by rw [← hname]; rfl⟩

theorem named_rule_eq_error_iff {e : String × ParamEntry} :
    (do return (e.1, ← f.rule e.1 e.2) : Except DefinitionFault (String × ParamRule)) =
      .error fault ↔ e.2.FirstFault f.key e.1 fault := by
  rw [bind_eq_error_iff, ← rule_eq_error_iff]
  simp [pure, Except.pure]

/-- Parameters that are required one after the other are each required once, where they come
first. -/
theorem foldl_withRequired (c : Contract) (names : List String) (hc : c.required = []) :
    names.foldl Contract.withRequired c = { c with required := names.eraseDups } := by
  induction names using List.reverseRecOn with
  | nil => rw [List.foldl_nil, List.eraseDups_nil, ← hc]
  | append_singleton names name ih =>
    rw [List.foldl_append, ih, List.eraseDups_append, List.foldl_cons, List.foldl_nil]
    unfold Contract.withRequired
    by_cases h : name ∈ names
    · have hmem : name ∈ names.eraseDups := List.mem_eraseDups.mpr h
      simp [hmem, h, List.removeAll]
    · have hno : name ∉ names.eraseDups := fun hmem => h (List.mem_eraseDups.mp hmem)
      simp [hno, h, List.removeAll, List.eraseDups_cons]

/-- An entry is converted into the contract that it describes. -/
theorem contract_eq_ok_iff {c : Contract} : f.contract = .ok c ↔ f.Describes c := by
  rw [FunctionEntry.contract, bind_eq_ok_iff]
  simp only [mapM_eq_ok_iff, named_rule_eq_ok_iff]
  constructor
  · rintro ⟨rules, hrules, h⟩
    rw [foldl_withRequired _ _ rfl] at h
    cases h
    exact ⟨rfl, rfl, rfl, ⟨rules, hrules, rfl⟩, rfl, rfl⟩
  · rintro ⟨hfamily, hname, hdescription, ⟨rules, hrules, hparameters⟩, hrequired, hhandler⟩
    refine ⟨rules, hrules, ?_⟩
    rw [foldl_withRequired _ _ rfl, ← hfamily, ← hname, ← hdescription, ← hparameters, ← hrequired,
      ← hhandler]
    rfl

/-- The conversion of an entry fails exactly with its first fault. -/
theorem contract_eq_error_iff : f.contract = .error fault ↔ f.FirstFault fault := by
  rw [FunctionEntry.contract, bind_eq_error_iff]
  simp only [mapM_eq_error_iff, named_rule_eq_ok_iff, named_rule_eq_error_iff]
  constructor
  · rintro (⟨before, e, after, hsplit, hbefore, he⟩ | ⟨rules, -, h⟩)
    · refine ⟨before, e, after, hsplit, fun d hd => ?_, he⟩
      obtain ⟨rule, -, hrule⟩ := hbefore d hd
      exact ⟨rule.2, hrule⟩
    · cases h
  · rintro ⟨before, e, after, hsplit, hbefore, he⟩
    refine Or.inl ⟨before, e, after, hsplit, fun d hd => ?_, he⟩
    obtain ⟨rule, hrule⟩ := hbefore d hd
    exact ⟨(d.1, rule), rfl, hrule⟩

end FunctionEntry

end Definition

end Directive
