/-!
# Maps that keep the order of insertion

An `OrderedMap` is a list of named entries in which no name occurs twice.  `insert` puts a new name
at the end and gives a name that is already there a new value in its old place.  That names are
distinct is part of the type.
-/

namespace Directive

/-- Named entries in the order of their first insertion, each name once. -/
structure OrderedMap (α : Type) where
  entries : List (String × α)
  nodup : (entries.map Prod.fst).Nodup

namespace OrderedMap

variable {α β : Type}

/-! ### Lists of entries -/

/-- Gives `name` the value `x`: in its place if it is there, at the end if it is not. -/
def place (name : String) (x : α) : List (String × α) → List (String × α)
  | [] => [(name, x)]
  | e :: es => if e.1 = name then (name, x) :: es else e :: place name x es

/-- The names after `place` are those before and the one placed. -/
theorem mem_names_place {name n : String} {x : α} {es : List (String × α)} :
    n ∈ (place name x es).map Prod.fst ↔ n = name ∨ n ∈ es.map Prod.fst := by
  induction es with
  | nil => simp [place]
  | cons e es ih =>
    by_cases h : e.1 = name
    · simp [place, h]
    · simp only [place, h, if_false, List.map_cons, List.mem_cons, ih]
      exact or_left_comm

/-- Names stay distinct under `place`. -/
theorem nodup_place {name : String} {x : α} {es : List (String × α)}
    (h : (es.map Prod.fst).Nodup) : ((place name x es).map Prod.fst).Nodup := by
  induction es with
  | nil => simp [place]
  | cons e es ih =>
    simp only [List.map_cons, List.nodup_cons] at h
    by_cases hn : e.1 = name
    · subst hn
      simp only [place, if_true, List.map_cons, List.nodup_cons]
      exact h
    · simp only [place, hn, if_false, List.map_cons, List.nodup_cons]
      refine ⟨fun hm => ?_, ih h.2⟩
      rcases mem_names_place.1 hm with hm | hm
      · exact hn hm
      · exact h.1 hm

/-! ### Operations -/

/-- The map without entries. -/
def empty : OrderedMap α :=
  ⟨[], List.nodup_nil⟩

instance : Inhabited (OrderedMap α) := ⟨empty⟩

/-- Gives `name` the value `x`. -/
def insert (m : OrderedMap α) (name : String) (x : α) : OrderedMap α :=
  ⟨place name x m.entries, nodup_place m.nodup⟩

/-- The map that results from inserting the entries one after the other. -/
def ofList (es : List (String × α)) : OrderedMap α :=
  es.foldl (fun m e => m.insert e.1 e.2) empty

/-- The value of a name. -/
def get? (m : OrderedMap α) (name : String) : Option α :=
  (m.entries.find? fun e => e.1 == name).map Prod.snd

/-- Whether a name has a value. -/
def contains (m : OrderedMap α) (name : String) : Bool :=
  m.entries.any fun e => e.1 == name

/-- The names, in order. -/
def names (m : OrderedMap α) : List String :=
  m.entries.map Prod.fst

/-- The values, in order. -/
def values (m : OrderedMap α) : List α :=
  m.entries.map Prod.snd

/-- The number of entries. -/
def size (m : OrderedMap α) : Nat :=
  m.entries.length

/-- Whether there are no entries. -/
def isEmpty (m : OrderedMap α) : Bool :=
  m.entries.isEmpty

/-- Whether two maps give the same names equal values; the order of the entries does not count. -/
def agree (equals : α → α → Bool) (m n : OrderedMap α) : Bool :=
  m.size == n.size && m.entries.all fun e =>
    match n.get? e.1 with
    | some y => equals e.2 y
    | none => false

end OrderedMap

end Directive
