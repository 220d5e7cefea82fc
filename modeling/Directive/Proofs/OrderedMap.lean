import Directive.OrderedMap
import Mathlib.Algebra.GroupWithZero.Nat
import Mathlib.Data.List.Induction
import Mathlib.Data.List.Nodup

/-!
# What a map built from a list contains

Inserting entries one after the other keeps each name at the place of its first occurrence and gives
it the value of its last one.  Entries with distinct names stay as they are.
-/

namespace Directive

/-! ### Lists -/

/-- Lists that match item by item have a partner for every item. -/
theorem exists_left_of_forall₂ {α β : Type} {R : α → β → Prop} {as : List α} {bs : List β}
    (h : List.Forall₂ R as bs) {b : β} (hb : b ∈ bs) : ∃ a ∈ as, R a b := by
  induction h with
  | nil => cases hb
  | @cons a _ as _ hab _ ih =>
    rcases List.mem_cons.mp hb with rfl | hb
    · exact ⟨a, List.mem_cons_self, hab⟩
    · obtain ⟨a', ha', hab'⟩ := ih hb
      exact ⟨a', List.mem_cons_of_mem a ha', hab'⟩

/-- One more item in a list is one more distinct item, unless it is there already. -/
theorem eraseDups_concat {κ : Type} [BEq κ] [LawfulBEq κ] [DecidableEq κ] (xs : List κ) (x : κ) :
    (xs ++ [x]).eraseDups = if x ∈ xs then xs.eraseDups else xs.eraseDups ++ [x] := by
  rw [List.eraseDups_append]
  split_ifs with h
  · have hrem : List.removeAll [x] xs = [] := by simpa [List.removeAll] using h
    rw [hrem, List.eraseDups_nil, List.append_nil]
  · have hrem : List.removeAll [x] xs = [x] := by simpa [List.removeAll] using h
    rw [hrem]
    rfl

section

variable {α κ : Type} [BEq κ] [LawfulBEq κ] {key : α → κ} {xs : List α} {k : κ}

/-- Nothing is found by a key that no item has. -/
theorem find?_key_eq_none_iff : xs.find? (fun x => key x == k) = none ↔ k ∉ xs.map key := by
  rw [List.find?_eq_none, List.mem_map, not_exists]
  refine forall_congr' fun x => ?_
  rw [not_and, beq_iff_eq]

/-- Among items with distinct keys the one with a key is found by it. -/
theorem find?_key_eq_some_iff (h : (xs.map key).Nodup) {x : α} :
    xs.find? (fun y => key y == k) = some x ↔ x ∈ xs ∧ key x = k := by
  constructor
  · intro hfind
    have hkey : (key x == k) = true := List.find?_some (p := fun y => key y == k) hfind
    exact ⟨List.mem_of_find?_eq_some hfind, eq_of_beq hkey⟩
  · rintro ⟨hx, rfl⟩
    cases hfind : xs.find? fun y => key y == key x with
    | none => exact absurd (List.mem_map_of_mem hx) (find?_key_eq_none_iff.mp hfind)
    | some y =>
      have hkey : (key y == key x) = true := List.find?_some (p := fun y => key y == key x) hfind
      rw [List.inj_on_of_nodup_map h (List.mem_of_find?_eq_some hfind) hx (eq_of_beq hkey)]

end

namespace OrderedMap

variable {α : Type}

/-! ### One entry -/

theorem names_place (name : String) (x : α) (es : List (String × α)) :
    (place name x es).map Prod.fst =
      if name ∈ es.map Prod.fst then es.map Prod.fst else es.map Prod.fst ++ [name] := by
  induction es with
  | nil => rfl
  | cons e es ih =>
    by_cases h : e.1 = name
    · simp [place, h]
    · have h' : ¬name = e.1 := fun he => h he.symm
      simp only [place, h, if_false, List.map_cons, List.mem_cons, h', false_or, ih]
      split <;> rfl

theorem place_of_not_mem {name : String} {x : α} {es : List (String × α)}
    (h : name ∉ es.map Prod.fst) : place name x es = es ++ [(name, x)] := by
  induction es with
  | nil => rfl
  | cons e es ih =>
    rw [List.map_cons, List.mem_cons, not_or] at h
    rw [place, if_neg (fun he => h.1 he.symm), ih h.2, List.cons_append]

/-- A name that is there keeps its place. -/
theorem place_of_mem {name : String} {x : α} {es : List (String × α)}
    (hnodup : (es.map Prod.fst).Nodup) (h : name ∈ es.map Prod.fst) :
    place name x es = es.map fun e => if e.1 = name then (name, x) else e := by
  induction es with
  | nil => cases h
  | cons e es ih =>
    rw [List.map_cons, List.nodup_cons] at hnodup
    rw [List.map_cons]
    by_cases he : e.1 = name
    · -- the name does not come again
      have hrest : es.map (fun e => if e.1 = name then (name, x) else e) = es := by
        refine (List.map_congr_left fun e' he' => ?_).trans (List.map_id es)
        have hne : e'.1 ≠ name := by
          intro heq
          refine hnodup.1 ?_
          rw [he, ← heq]
          exact List.mem_map_of_mem he'
        exact if_neg hne
      rw [place, if_pos he, if_pos he, hrest]
    · rw [place, if_neg he, if_neg he, ih hnodup.2]
      exact (List.mem_cons.mp h).resolve_left fun heq => he heq.symm

theorem find?_place (name n : String) (x : α) (es : List (String × α)) :
    ((place name x es).find? fun e => e.1 == n).map Prod.snd =
      if name = n then some x else (es.find? fun e => e.1 == n).map Prod.snd := by
  induction es with
  | nil =>
    by_cases hn : name = n
    · simp [place, hn]
    · simp [place, hn]
  | cons e es ih =>
    by_cases h : e.1 = name
    · by_cases hn : name = n
      · simp [place, h, hn]
      · simp [place, h, hn]
    · by_cases hn : name = n
      · subst hn
        rw [if_pos rfl] at ih ⊢
        rw [place, if_neg h, List.find?_cons_of_neg (by simpa using h), ih]
      · rw [if_neg hn] at ih
        simp only [place, h, if_false, List.find?_cons, if_neg hn]
        split
        · rfl
        · exact ih

theorem names_insert (m : OrderedMap α) (name : String) (x : α) :
    (m.insert name x).names = if name ∈ m.names then m.names else m.names ++ [name] :=
  names_place name x m.entries

theorem get?_insert (m : OrderedMap α) (name n : String) (x : α) :
    (m.insert name x).get? n = if name = n then some x else m.get? n :=
  find?_place name n x m.entries

/-! ### Many entries -/

theorem ofList_concat (es : List (String × α)) (e : String × α) :
    ofList (es ++ [e]) = (ofList es).insert e.1 e.2 := by
  unfold ofList
  rw [List.foldl_append]
  rfl

/-- The names of a map stand at the places of their first occurrences. -/
theorem names_ofList (es : List (String × α)) :
    (ofList es).names = (es.map Prod.fst).eraseDups := by
  induction es using List.reverseRecOn with
  | nil => rfl
  | append_singleton es e ih =>
    rw [ofList_concat, names_insert, ih, List.map_append, List.map_singleton, eraseDups_concat]
    exact if_congr List.mem_eraseDups rfl rfl

/-- The value of a name is that of its last occurrence. -/
theorem get?_ofList (es : List (String × α)) (n : String) :
    (ofList es).get? n = ((es.filter fun e => e.1 == n).getLast?).map Prod.snd := by
  induction es using List.reverseRecOn with
  | nil => rfl
  | append_singleton es e ih =>
    rw [ofList_concat, get?_insert, ih, List.filter_append]
    by_cases h : e.1 = n
    · simp [h]
    · simp [h]

/-- Entries with distinct names stay as they are. -/
theorem entries_ofList {es : List (String × α)} (h : (es.map Prod.fst).Nodup) :
    (ofList es).entries = es := by
  induction es using List.reverseRecOn with
  | nil => rfl
  | append_singleton es e ih =>
    rw [List.map_append, List.nodup_append] at h
    obtain ⟨hes, -, hne⟩ := h
    have hmem : e.1 ∉ (ofList es).entries.map Prod.fst := by
      rw [ih hes]
      intro hm
      exact hne _ hm _ (by simp) rfl
    have hplace : (ofList (es ++ [e])).entries = place e.1 e.2 (ofList es).entries := by
      rw [ofList_concat]
      rfl
    rw [hplace, place_of_not_mem hmem, ih hes]

theorem ofList_entries (m : OrderedMap α) : ofList m.entries = m := by
  have h := entries_ofList m.nodup
  obtain ⟨es, hes⟩ := m
  cases hm : ofList es with
  | mk es' hes' =>
    simp only [hm] at h
    subst h
    rfl

/-! ### Entries and values -/

theorem mem_entries_iff {m : OrderedMap α} {e : String × α} :
    e ∈ m.entries ↔ m.get? e.1 = some e.2 := by
  unfold get?
  rw [Option.map_eq_some_iff]
  constructor
  · intro he
    exact ⟨e, (find?_key_eq_some_iff m.nodup).mpr ⟨he, rfl⟩, rfl⟩
  · rintro ⟨x, hfind, hx⟩
    obtain ⟨hmem, hname⟩ := (find?_key_eq_some_iff m.nodup).mp hfind
    rwa [Prod.ext hname hx] at hmem

/-- A map is told by its names and their values. -/
theorem entries_eq (m : OrderedMap α) :
    m.entries = m.names.filterMap fun n => (m.get? n).map fun x => (n, x) := by
  have hget : ∀ e ∈ m.entries, (m.get? e.1).map (fun x => (e.1, x)) = some e := by
    intro e he
    rw [mem_entries_iff.mp he]
    rfl
  rw [names, List.filterMap_map]
  exact ((List.filterMap_congr hget).trans List.filterMap_some).symm

/-- A name without a value is none of the names. -/
theorem get?_eq_none_iff {m : OrderedMap α} {name : String} :
    m.get? name = none ↔ name ∉ m.names := by
  unfold get? names
  rw [Option.map_eq_none_iff]
  exact find?_key_eq_none_iff

theorem contains_iff {m : OrderedMap α} {name : String} :
    m.contains name = true ↔ name ∈ m.names := by
  unfold contains names
  rw [List.any_eq_true, List.mem_map]
  constructor
  · rintro ⟨e, he, hname⟩
    exact ⟨e, he, eq_of_beq hname⟩
  · rintro ⟨e, he, rfl⟩
    exact ⟨e, he, beq_self_eq_true e.1⟩

/-- Maps with the same values have the same entries, perhaps in another order. -/
theorem perm_of_get?_eq {m m' : OrderedMap α} (h : ∀ n, m.get? n = m'.get? n) :
    m.entries.Perm m'.entries := by
  rw [List.perm_ext_iff_of_nodup (List.Nodup.of_map _ m.nodup) (List.Nodup.of_map _ m'.nodup)]
  intro e
  rw [mem_entries_iff, mem_entries_iff, h]

/-- Every entry comes from the list. -/
theorem mem_of_mem_entries_ofList {es : List (String × α)} {e : String × α}
    (h : e ∈ (ofList es).entries) : e ∈ es := by
  rw [mem_entries_iff, get?_ofList] at h
  obtain ⟨x, hx, hvalue⟩ := Option.map_eq_some_iff.mp h
  have hmem := List.mem_filter.mp (List.mem_of_getLast? hx)
  have hname : x.1 = e.1 := by simpa using hmem.2
  rw [← Prod.ext hname hvalue]
  exact hmem.1

/-! ### Sums over entries -/

section

variable {f : String × α → Nat}

theorem sum_place_le (e : String × α) (es : List (String × α)) :
    ((place e.1 e.2 es).map f).sum ≤ (es.map f).sum + f e := by
  induction es with
  | nil => simp [place]
  | cons x es ih =>
    by_cases h : x.1 = e.1
    · rw [place, if_pos h]
      show f e + (es.map f).sum ≤ f x + (es.map f).sum + f e
      omega
    · simp only [place, h, if_false, List.map_cons, List.sum_cons]
      omega

/-- An entry that gives way to another one is missing in the sum. -/
theorem sum_place_lt (hf : ∀ e, 0 < f e) {e : String × α} {es : List (String × α)}
    (h : e.1 ∈ es.map Prod.fst) : ((place e.1 e.2 es).map f).sum < (es.map f).sum + f e := by
  induction es with
  | nil => cases h
  | cons x es ih =>
    have hpos := hf x
    by_cases hx : x.1 = e.1
    · rw [place, if_pos hx]
      show f e + (es.map f).sum < f x + (es.map f).sum + f e
      omega
    · have hmem : e.1 ∈ es.map Prod.fst := by
        rw [List.map_cons, List.mem_cons] at h
        exact h.resolve_left (Ne.symm hx)
      have ih := ih hmem
      simp only [place, hx, if_false, List.map_cons, List.sum_cons]
      omega

theorem sum_ofList_concat (es : List (String × α)) (e : String × α) :
    ((ofList (es ++ [e])).entries.map f).sum = ((place e.1 e.2 (ofList es).entries).map f).sum := by
  rw [ofList_concat]
  rfl

theorem sum_ofList_le (es : List (String × α)) :
    ((ofList es).entries.map f).sum ≤ (es.map f).sum := by
  induction es using List.reverseRecOn with
  | nil => exact Nat.le_refl 0
  | append_singleton es e ih =>
    have hle := sum_place_le (f := f) e (ofList es).entries
    rw [sum_ofList_concat, List.map_append, List.sum_append, List.map_singleton, List.sum_singleton]
    omega

/-- If nothing is missing in the sum, no name occurs twice. -/
theorem nodup_of_sum_ofList (hf : ∀ e, 0 < f e) {es : List (String × α)}
    (h : ((ofList es).entries.map f).sum = (es.map f).sum) : (es.map Prod.fst).Nodup := by
  induction es using List.reverseRecOn with
  | nil => exact List.nodup_nil
  | append_singleton es e ih =>
    have hle := sum_place_le (f := f) e (ofList es).entries
    have hes := sum_ofList_le (f := f) es
    rw [sum_ofList_concat, List.map_append, List.sum_append, List.map_singleton,
      List.sum_singleton] at h
    have hnodup := ih (by omega)
    have hnew : e.1 ∉ es.map Prod.fst := by
      intro hmem
      rw [← entries_ofList hnodup] at hmem
      have hlt := sum_place_lt hf hmem
      omega
    rw [List.map_append, List.map_singleton, ← List.concat_eq_append, List.nodup_concat]
    exact ⟨hnew, hnodup⟩

end

end OrderedMap

end Directive
