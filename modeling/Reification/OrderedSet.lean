/-!
# Ordered sets

A finite set is kept as the strictly increasing list of its elements, so that equal sets are the
same list and the least element comes first.
-/

namespace Reification

/-- Two lists which are ordered by the same asymmetric relation are equal if they have the same
elements. -/
theorem eq_of_mem_iff_of_pairwise {α : Type} {R : α → α → Prop}
    (asymm : ∀ left right, R left right → ¬R right left) {left right : List α}
    (left_ordered : left.Pairwise R) (right_ordered : right.Pairwise R)
    (mem_iff : ∀ element, element ∈ left ↔ element ∈ right) : left = right := by
  induction left generalizing right with
  | nil =>
    cases right with
    | nil => rfl
    | cons head tail => simpa using mem_iff head
  | cons head tail ih =>
    cases right with
    | nil => simpa using mem_iff head
    | cons other others =>
      obtain ⟨before_tail, tail_ordered⟩ := List.pairwise_cons.mp left_ordered
      obtain ⟨before_others, others_ordered⟩ := List.pairwise_cons.mp right_ordered
      have heads_eq : head = other := by
        rcases List.mem_cons.mp ((mem_iff head).mp (by simp)) with equal | head_later
        · exact equal
        · rcases List.mem_cons.mp ((mem_iff other).mpr (by simp)) with equal | other_later
          · exact equal.symm
          · exact absurd (before_others head head_later) (asymm _ _ (before_tail other other_later))
      subst heads_eq
      have not_self : ¬R head head := fun related => asymm _ _ related related
      have tails_eq : tail = others := by
        refine ih tail_ordered others_ordered fun element => ?_
        constructor
        · intro mem
          rcases List.mem_cons.mp ((mem_iff element).mp (by simp [mem])) with rfl | found
          · exact absurd (before_tail _ mem) not_self
          · exact found
        · intro mem
          rcases List.mem_cons.mp ((mem_iff element).mpr (by simp [mem])) with rfl | found
          · exact absurd (before_others _ mem) not_self
          · exact found
      rw [tails_eq]

/-- The finite set of the elements of a strictly increasing list. -/
structure OrderedSet (α : Type) [Ord α] where
  /-- The elements in increasing order. -/
  toList : List α
  /-- Every element is less than all later ones. -/
  increasing : toList.Pairwise (fun left right => compare left right = .lt)

namespace OrderedSet

variable {α : Type} [Ord α]

instance : EmptyCollection (OrderedSet α) := ⟨⟨[], .nil⟩⟩

instance : Inhabited (OrderedSet α) := ⟨∅⟩

instance : Membership α (OrderedSet α) := ⟨fun elements element => element ∈ elements.toList⟩

@[simp]
theorem mem_toList {elements : OrderedSet α} {element : α} :
    element ∈ elements.toList ↔ element ∈ elements := Iff.rfl

@[simp]
theorem toList_empty : (∅ : OrderedSet α).toList = [] := rfl

theorem toList_inj {left right : OrderedSet α} : left.toList = right.toList ↔ left = right := by
  cases left
  cases right
  simp

instance [DecidableEq α] : DecidableEq (OrderedSet α) := fun left right =>
  decidable_of_iff (left.toList = right.toList) toList_inj

/-- Whether the set has no elements. -/
def isEmpty (elements : OrderedSet α) : Bool := elements.toList.isEmpty

/-- The least element. -/
def first? (elements : OrderedSet α) : Option α := elements.toList.head?

/-- Places an element before the first greater one, unless it is there already. -/
def insertInto (element : α) : List α → List α
  | [] => [element]
  | head :: tail =>
    match compare element head with
    | .lt => element :: head :: tail
    | .eq => head :: tail
    | .gt => head :: insertInto element tail

theorem mem_of_mem_insertInto {element other : α} {list : List α}
    (mem : other ∈ insertInto element list) : other = element ∨ other ∈ list := by
  induction list with
  | nil => simpa [insertInto] using mem
  | cons head tail ih =>
    simp only [insertInto] at mem
    split at mem
    · simpa using mem
    · exact .inr mem
    · rcases List.mem_cons.mp mem with rfl | mem_tail
      · exact .inr (by simp)
      · rcases ih mem_tail with rfl | mem_tail
        · exact .inl rfl
        · exact .inr (by simp [mem_tail])

theorem mem_insertInto [Std.LawfulEqOrd α] {element other : α} {list : List α} :
    other ∈ insertInto element list ↔ other = element ∨ other ∈ list := by
  refine ⟨mem_of_mem_insertInto, fun mem => ?_⟩
  induction list with
  | nil => simpa [insertInto] using mem
  | cons head tail ih =>
    simp only [insertInto]
    split
    · simpa using mem
    · next equal =>
      rcases mem with rfl | mem
      · simp [Std.LawfulEqCmp.eq_of_compare equal]
      · exact mem
    · rcases mem with rfl | mem
      · exact List.mem_cons_of_mem _ (ih (.inl rfl))
      · rcases List.mem_cons.mp mem with rfl | mem_tail
        · simp
        · exact List.mem_cons_of_mem _ (ih (.inr mem_tail))

variable [Std.TransOrd α]

theorem insertInto_increasing (element : α) {list : List α}
    (increasing : list.Pairwise (fun left right => compare left right = .lt)) :
    (insertInto element list).Pairwise (fun left right => compare left right = .lt) := by
  induction list with
  | nil => simp [insertInto]
  | cons head tail ih =>
    obtain ⟨head_lt, tail_increasing⟩ := List.pairwise_cons.mp increasing
    simp only [insertInto]
    split
    · next element_lt =>
      refine List.pairwise_cons.mpr ⟨fun other mem => ?_, increasing⟩
      rcases List.mem_cons.mp mem with rfl | mem_tail
      · exact element_lt
      · exact Std.TransCmp.lt_trans element_lt (head_lt other mem_tail)
    · exact increasing
    · next element_gt =>
      refine List.pairwise_cons.mpr ⟨fun other mem => ?_, ih tail_increasing⟩
      rcases mem_of_mem_insertInto mem with rfl | mem_tail
      · exact Std.OrientedCmp.gt_iff_lt.mp element_gt
      · exact head_lt other mem_tail

/-- The set with one more element. -/
def insert (elements : OrderedSet α) (element : α) : OrderedSet α :=
  ⟨insertInto element elements.toList, insertInto_increasing element elements.increasing⟩

/-- The set with all elements of a list added. -/
def insertAll (elements : OrderedSet α) (list : List α) : OrderedSet α :=
  list.foldl insert elements

/-- The set of the elements of a list. -/
def ofList (list : List α) : OrderedSet α := insertAll ∅ list

/-- The elements of both sets. -/
def union (left right : OrderedSet α) : OrderedSet α := left.insertAll right.toList

instance : Union (OrderedSet α) := ⟨union⟩

/-- Sets with the same elements are equal. -/
theorem ext {left right : OrderedSet α} (mem_iff : ∀ element, element ∈ left ↔ element ∈ right) :
    left = right := by
  apply toList_inj.mp
  refine eq_of_mem_iff_of_pairwise (fun one other less => ?_) left.increasing right.increasing
    mem_iff
  rw [Std.OrientedCmp.gt_iff_lt.mpr less]
  simp

variable [Std.LawfulEqOrd α]

@[simp]
theorem mem_insert {elements : OrderedSet α} {element other : α} :
    other ∈ elements.insert element ↔ other = element ∨ other ∈ elements :=
  mem_insertInto

@[simp]
theorem mem_insertAll {elements : OrderedSet α} {list : List α} {other : α} :
    other ∈ elements.insertAll list ↔ other ∈ elements ∨ other ∈ list := by
  induction list generalizing elements with
  | nil => simp [insertAll]
  | cons head tail ih =>
    have step : elements.insertAll (head :: tail) = (elements.insert head).insertAll tail := rfl
    rw [step, ih, mem_insert, List.mem_cons, or_comm (a := other = head), or_assoc]

@[simp]
theorem mem_ofList {list : List α} {other : α} : other ∈ ofList list ↔ other ∈ list := by
  have not_mem : other ∉ (∅ : OrderedSet α) := List.not_mem_nil
  simp [ofList, not_mem]

@[simp]
theorem mem_union {left right : OrderedSet α} {other : α} :
    other ∈ left ∪ right ↔ other ∈ left ∨ other ∈ right :=
  mem_insertAll

@[simp]
theorem ofList_toList (elements : OrderedSet α) : ofList elements.toList = elements :=
  ext fun _ => mem_ofList

end OrderedSet

end Reification
