import Reification.OrderedSet

/-!
# Tables

A table assigns values to names.  It is kept as the list of its entries in increasing order of the
names, each of which occurs once.
-/

namespace Reification

/-- A finite assignment of values to names. -/
structure Table (α : Type) where
  /-- The entries in increasing order of their names. -/
  entries : List (String × α)
  /-- Every name is less than all later ones. -/
  increasing : entries.Pairwise (fun left right => compare left.1 right.1 = .lt)

namespace Table

variable {α β : Type}

instance : EmptyCollection (Table α) := ⟨⟨[], .nil⟩⟩

instance : Inhabited (Table α) := ⟨∅⟩

theorem entries_inj {left right : Table α} : left.entries = right.entries ↔ left = right := by
  cases left
  cases right
  simp

instance [DecidableEq α] : DecidableEq (Table α) := fun left right =>
  decidable_of_iff (left.entries = right.entries) entries_inj

@[simp]
theorem entries_empty : (∅ : Table α).entries = [] := rfl

/-- The value which is assigned to a name. -/
def get? (table : Table α) (name : String) : Option α := table.entries.lookup name

/-- Whether a name has a value. -/
def contains (table : Table α) (name : String) : Bool := (table.get? name).isSome

/-- The names in increasing order. -/
def names (table : Table α) : List String := table.entries.map (·.1)

/-- The values in the order of their names. -/
def values (table : Table α) : List α := table.entries.map (·.2)

/-- The number of names. -/
def size (table : Table α) : Nat := table.entries.length

/-- Whether no name has a value. -/
def isEmpty (table : Table α) : Bool := table.entries.isEmpty

/-- Places an entry before the first greater name, replacing the entry of the same name. -/
def insertInto (name : String) (value : α) : List (String × α) → List (String × α)
  | [] => [(name, value)]
  | head :: tail =>
    match compare name head.1 with
    | .lt => (name, value) :: head :: tail
    | .eq => (name, value) :: tail
    | .gt => head :: insertInto name value tail

theorem name_of_mem_insertInto {name : String} {value : α} {entry : String × α}
    {list : List (String × α)} (mem : entry ∈ insertInto name value list) :
    entry.1 = name ∨ entry ∈ list := by
  induction list with
  | nil => exact .inl (by rw [List.mem_singleton.mp mem])
  | cons head tail ih =>
    simp only [insertInto] at mem
    split at mem
    · rcases List.mem_cons.mp mem with rfl | mem
      · exact .inl rfl
      · exact .inr mem
    · rcases List.mem_cons.mp mem with rfl | mem
      · exact .inl rfl
      · exact .inr (List.mem_cons_of_mem _ mem)
    · rcases List.mem_cons.mp mem with rfl | mem
      · exact .inr (by simp)
      · exact (ih mem).imp_right (List.mem_cons_of_mem _)

theorem insertInto_increasing (name : String) (value : α) {list : List (String × α)}
    (increasing : list.Pairwise (fun left right => compare left.1 right.1 = .lt)) :
    (insertInto name value list).Pairwise (fun left right => compare left.1 right.1 = .lt) := by
  induction list with
  | nil => simp [insertInto]
  | cons head tail ih =>
    obtain ⟨head_lt, tail_increasing⟩ := List.pairwise_cons.mp increasing
    simp only [insertInto]
    split
    · next name_lt =>
      refine List.pairwise_cons.mpr ⟨fun other mem => ?_, increasing⟩
      rcases List.mem_cons.mp mem with rfl | mem
      · exact name_lt
      · exact Std.TransCmp.lt_trans name_lt (head_lt other mem)
    · next name_eq =>
      refine List.pairwise_cons.mpr ⟨fun other mem => ?_, tail_increasing⟩
      rw [Std.LawfulEqCmp.eq_of_compare name_eq]
      exact head_lt other mem
    · next name_gt =>
      refine List.pairwise_cons.mpr ⟨fun other mem => ?_, ih tail_increasing⟩
      rcases name_of_mem_insertInto mem with other_eq | mem
      · rw [other_eq]
        exact Std.OrientedCmp.gt_iff_lt.mp name_gt
      · exact head_lt other mem

/-- The table with a value assigned to a name, instead of the value which it had. -/
def insert (table : Table α) (name : String) (value : α) : Table α :=
  ⟨insertInto name value table.entries, insertInto_increasing name value table.increasing⟩

/-- The table of a list of entries, of which the last one of a name counts. -/
def ofList (list : List (String × α)) : Table α :=
  list.foldl (fun table entry => table.insert entry.1 entry.2) ∅

/-- The entries whose names pass a test. -/
def filter (table : Table α) (keep : String → Bool) : Table α :=
  ⟨table.entries.filter (keep ·.1), table.increasing.filter _⟩

@[simp]
theorem get?_empty (name : String) : (∅ : Table α).get? name = none := rfl

theorem lookup_cons (entry : String × α) (list : List (String × α)) (other : String) :
    (entry :: list).lookup other = if other = entry.1 then some entry.2 else list.lookup other := by
  obtain ⟨key, value⟩ := entry
  by_cases same : other = key
  · simp [same]
  · simp [List.lookup_cons, beq_false_of_ne same, same]

theorem lookup_insertInto (name other : String) (value : α) (list : List (String × α)) :
    (insertInto name value list).lookup other =
      if other = name then some value else list.lookup other := by
  induction list with
  | nil => simp [insertInto, lookup_cons]
  | cons head tail ih =>
    simp only [insertInto]
    split
    · simp [lookup_cons]
    · next name_eq =>
      have head_eq : name = head.1 := Std.LawfulEqCmp.eq_of_compare name_eq
      by_cases same : other = name
      · simp [same]
      · simp [lookup_cons, same, head_eq ▸ same]
    · next name_gt =>
      rw [lookup_cons, ih, lookup_cons]
      by_cases same : other = name
      · subst same
        have distinct : other ≠ head.1 := by
          rintro rfl
          simp at name_gt
        simp [distinct]
      · simp [same]

@[simp]
theorem get?_insert (table : Table α) (name other : String) (value : α) :
    (table.insert name value).get? other = if other = name then some value else table.get? other :=
  lookup_insertInto name other value table.entries

theorem get?_eq_some_iff {table : Table α} {name : String} {value : α} :
    table.get? name = some value ↔ (name, value) ∈ table.entries := by
  obtain ⟨entries, increasing⟩ := table
  simp only [get?]
  induction entries with
  | nil => simp
  | cons head tail ih =>
    obtain ⟨head_lt, tail_increasing⟩ := List.pairwise_cons.mp increasing
    rw [lookup_cons, List.mem_cons]
    by_cases same : name = head.1
    · subst same
      have not_mem : (head.1, value) ∉ tail := fun mem => by simpa using head_lt _ mem
      simp [not_mem, Prod.ext_iff, eq_comm]
    · simp [same, ih tail_increasing, Prod.ext_iff]

theorem mem_names_iff {table : Table α} {name : String} :
    name ∈ table.names ↔ table.get? name ≠ none := by
  rw [names, List.mem_map, Option.ne_none_iff_exists']
  constructor
  · rintro ⟨⟨_, value⟩, mem, rfl⟩
    exact ⟨value, get?_eq_some_iff.mpr mem⟩
  · rintro ⟨value, get?_eq⟩
    exact ⟨(name, value), get?_eq_some_iff.mp get?_eq, rfl⟩

theorem mem_values_iff {table : Table α} {value : α} :
    value ∈ table.values ↔ ∃ name, table.get? name = some value := by
  simp [values, get?_eq_some_iff]

/-- Tables which assign the same values are equal. -/
theorem ext {left right : Table α} (get?_eq : ∀ name, left.get? name = right.get? name) :
    left = right := by
  apply entries_inj.mp
  refine eq_of_mem_iff_of_pairwise (fun one other less => ?_) left.increasing right.increasing
    fun entry => ?_
  · rw [Std.OrientedCmp.gt_iff_lt.mpr less]
    simp
  · rw [← get?_eq_some_iff, ← get?_eq_some_iff, get?_eq]

/-- A name which is less than all names of a list has no value in it. -/
theorem lookup_eq_none_of_lt {name : String} {list : List (String × α)}
    (less : ∀ entry ∈ list, compare name entry.1 = .lt) : list.lookup name = none := by
  rw [List.lookup_eq_none_iff]
  intro entry mem
  rw [bne_iff_ne]
  intro same
  simpa [same] using less entry mem

theorem get?_foldl_insert {list : List (String × α)} (table : Table α) (name : String)
    (increasing : list.Pairwise (fun left right => compare left.1 right.1 = .lt)) :
    (list.foldl (fun table entry => table.insert entry.1 entry.2) table).get? name =
      (list.lookup name).or (table.get? name) := by
  induction list generalizing table with
  | nil => simp
  | cons head tail ih =>
    obtain ⟨head_lt, tail_increasing⟩ := List.pairwise_cons.mp increasing
    rw [List.foldl_cons, ih _ tail_increasing, get?_insert, lookup_cons]
    by_cases same : name = head.1
    · simp [same, lookup_eq_none_of_lt head_lt]
    · simp [same]

theorem ofList_entries (table : Table α) : ofList table.entries = table :=
  ext fun name => by
    rw [ofList, get?_foldl_insert ∅ name table.increasing, get?_empty, Option.or_none]
    rfl

end Table

end Reification
