import Reification.Proofs.HeapGrowth
import Reification.Proofs.Tree

/-!
# Equal types of a heap

Whether types of a heap are equal does not depend on what is made later.  Equal types are of one
kind and have equal parts, and comparing them with other types gives the same answer.
-/

namespace Reification

namespace Heap

variable {heap wider : Heap} {after : Store}

theorem Holds.allAliases {type : Ty} (holds : heap.Holds type) :
    type.AllAliases fun reference => heap.Known (.aliasRef reference) :=
  Ty.AllReferences.imp holds fun
    | _, known, _, rfl => known

/-- Making references does not change how the types of a heap compare. -/
theorem sameWithin_grows (grows : heap.store.Grows after) (depth : Nat) {left right : Ty}
    (left_holds : heap.Holds left) (right_holds : heap.Holds right) {answer : Bool} :
    after.sameWithin depth left right = some answer ↔
      heap.store.sameWithin depth left right = some answer := by
  induction depth generalizing left right answer with
  | zero => rfl
  | succ depth ih =>
    have body_iff {left right : AliasRef Ty} (left_known : heap.Known (.aliasRef left))
        (right_known : heap.Known (.aliasRef right)) {answer : Bool} :
        after.sameBody (after.sameWithin depth) left right = some answer ↔
          heap.store.sameBody (heap.store.sameWithin depth) left right = some answer := by
      rw [Store.sameBody, Store.sameBody, grows.body?_eq (heap.made left_known),
        grows.body?_eq (heap.made right_known)]
      split
      · next left_eq right_eq =>
        exact ih (holds_body left_known left_eq) (holds_body right_known right_eq)
      · rfl
      · rfl
    exact ⟨Ty.sameWith_mono (fun _ _ _ left_known right_known =>
        (body_iff left_known right_known).mp) left_holds.allAliases right_holds.allAliases,
      Ty.sameWith_mono (fun _ _ _ left_known right_known =>
        (body_iff left_known right_known).mpr) left_holds.allAliases right_holds.allAliases⟩

theorem same_grows (grows : heap.store.Grows after) {left right : Ty}
    (left_holds : heap.Holds left) (right_holds : heap.Holds right) {answer : Bool} :
    after.same left right = some answer ↔ heap.store.same left right = some answer :=
  ⟨fun found => Store.same_of_sameWithin
      ((sameWithin_grows grows _ left_holds right_holds).mp found),
    fun found => Store.same_of_sameWithin
      ((sameWithin_grows grows _ left_holds right_holds).mpr found)⟩

/-- Later, constructors compare as they did. -/
theorem sameConstructor_eq (grows : heap.store.Grows after) {left right : Constructor Ty}
    (left_known : heap.Known (.constructor left)) (right_known : heap.Known (.constructor right)) :
    after.sameConstructor left right = heap.store.sameConstructor left right :=
  Option.ext fun _ => same_grows grows ((holds_constructor left).mpr left_known)
    ((holds_constructor right).mpr right_known)

theorem same_dataRef {left right : DataRef Ty} (left_known : heap.Known (.dataRef left))
    (right_known : heap.Known (.dataRef right))
    (equal : heap.store.same (.dataRef left) (.dataRef right) = some true) :
    left.name = right.name ∧ List.Forall₂
      (fun left right => heap.store.same left right = some true) left.parameters
        right.parameters := by
  rw [Store.same_eq] at equal
  obtain ⟨_, ⟨⟩, same | content⟩ := Ty.dataRef_sameWith_iff.mp equal
  · obtain rfl := Ty.dataRef.inj
      (heap.unique left_known right_known (by simpa [Ty.isSameObject] using same))
    exact ⟨rfl, List.forall₂_same.mpr fun _ _ => Store.same_self _⟩
  · simpa only [← Store.same_eq] using content

theorem same_aliasRef {left right : AliasRef Ty} (left_known : heap.Known (.aliasRef left))
    (right_known : heap.Known (.aliasRef right))
    (equal : heap.store.same (.aliasRef left) (.aliasRef right) = some true) :
    left.name = right.name ∧ List.Forall₂
      (fun left right => heap.store.same left right = some true) left.parameters
        right.parameters ∧
      heap.store.sameBody heap.store.same left right = some true := by
  rw [Store.same_eq] at equal
  obtain ⟨_, ⟨⟩, same | content⟩ := Ty.aliasRef_sameWith_iff.mp equal
  · obtain rfl := Ty.aliasRef.inj
      (heap.unique left_known right_known (by simpa [Ty.isSameObject] using same))
    refine ⟨rfl, List.forall₂_same.mpr fun _ _ => Store.same_self _, ?_⟩
    rw [Store.sameBody]
    cases heap.store.body? left with
    | none => rfl
    | some body => exact Store.same_self body
  · simpa only [← Store.same_eq] using content

theorem same_constructor {left right : Constructor Ty} (left_known : heap.Known (.constructor left))
    (right_known : heap.Known (.constructor right))
    (equal : heap.store.same (.constructor left) (.constructor right) = some true) :
    heap.store.same (.dataRef left.owner) (.dataRef right.owner) = some true ∧
      left.name = right.name ∧ List.Forall₂ (fun left right => left.label = right.label ∧
        heap.store.same left.type right.type = some true) left.fields right.fields := by
  rw [Store.same_eq] at equal
  obtain ⟨_, ⟨⟩, same | content⟩ := Ty.constructor_sameWith_iff.mp equal
  · obtain rfl := Ty.constructor.inj
      (heap.unique left_known right_known (by simpa [Ty.isSameObject] using same))
    exact ⟨Store.same_self _, rfl, List.forall₂_same.mpr fun _ _ => ⟨rfl, Store.same_self _⟩⟩
  · simpa only [← Store.same_eq] using content

/-- Whether two types of a heap are equal. -/
structure Alike (heap : Heap) (left right : Ty) : Prop where
  left_holds : heap.Holds left
  right_holds : heap.Holds right
  equal : heap.store.same left right = some true

namespace Alike

variable {left right : Ty}

theorem refl {type : Ty} (holds : heap.Holds type) : heap.Alike type type :=
  ⟨holds, holds, Store.same_self type⟩

theorem symm (alike : heap.Alike left right) : heap.Alike right left :=
  ⟨alike.right_holds, alike.left_holds, Store.same_symm alike.equal⟩

theorem trans {middle : Ty} (first : heap.Alike left middle) (second : heap.Alike middle right) :
    heap.Alike left right :=
  ⟨first.left_holds, second.right_holds, same_trans first.left_holds first.right_holds
    second.right_holds first.equal second.equal⟩

theorem mono (alike : heap.Alike left right) (growsTo : heap.GrowsTo wider) :
    wider.Alike left right :=
  ⟨alike.left_holds.mono growsTo, alike.right_holds.mono growsTo,
    (same_grows growsTo.grows alike.left_holds alike.right_holds).mpr alike.equal⟩

end Alike

section Parts

variable {right : Ty}

theorem alike_prim_iff {primitive : Primitive} :
    heap.Alike (.prim primitive) right ↔ right = .prim primitive := by
  refine ⟨fun alike => Ty.prim_sameWith_iff.mp alike.equal, ?_⟩
  rintro rfl
  exact .refl (holds_prim primitive)

theorem alike_sort_iff {name : String} : heap.Alike (.sort name) right ↔ right = .sort name := by
  refine ⟨fun alike => Ty.sort_sameWith_iff.mp alike.equal, ?_⟩
  rintro rfl
  exact .refl (holds_sort name)

theorem alike_list_iff {element : Ty} :
    heap.Alike (.list element) right ↔ ∃ other, right = .list other ∧ heap.Alike element other := by
  constructor
  · rintro ⟨left_holds, right_holds, equal⟩
    obtain ⟨other, rfl, equal⟩ := Ty.list_sameWith_iff.mp equal
    exact ⟨other, rfl, left_holds, right_holds, equal⟩
  · rintro ⟨other, rfl, left_holds, right_holds, equal⟩
    exact ⟨left_holds, right_holds, equal⟩

theorem alike_set_iff {element : Ty} :
    heap.Alike (.set element) right ↔ ∃ other, right = .set other ∧ heap.Alike element other := by
  constructor
  · rintro ⟨left_holds, right_holds, equal⟩
    obtain ⟨other, rfl, equal⟩ := Ty.set_sameWith_iff.mp equal
    exact ⟨other, rfl, left_holds, right_holds, equal⟩
  · rintro ⟨other, rfl, left_holds, right_holds, equal⟩
    exact ⟨left_holds, right_holds, equal⟩

theorem alike_reified_iff {inner : Ty} : heap.Alike (.reified inner) right ↔
    ∃ other, right = .reified other ∧ heap.Alike inner other := by
  constructor
  · rintro ⟨left_holds, right_holds, equal⟩
    obtain ⟨other, rfl, equal⟩ := Ty.reified_sameWith_iff.mp equal
    exact ⟨other, rfl, left_holds, right_holds, equal⟩
  · rintro ⟨other, rfl, left_holds, right_holds, equal⟩
    exact ⟨left_holds, right_holds, equal⟩

theorem alike_parameter_iff {name : String} {bound : Ty} : heap.Alike (.parameter name bound) right ↔
    ∃ other, right = .parameter name other ∧ heap.Alike bound other := by
  constructor
  · rintro ⟨left_holds, right_holds, equal⟩
    obtain ⟨other, rfl, bounds⟩ := Ty.parameter_sameWith_iff.mp equal
    exact ⟨other, rfl, left_holds, right_holds, bounds⟩
  · rintro ⟨other, rfl, left_holds, right_holds, equal⟩
    exact ⟨left_holds, right_holds, Ty.parameter_sameWith_iff.mpr ⟨other, rfl, equal⟩⟩

theorem alike_map_iff {key value : Ty} : heap.Alike (.map key value) right ↔
    ∃ otherKey otherValue, right = .map otherKey otherValue ∧ heap.Alike key otherKey ∧
      heap.Alike value otherValue := by
  constructor
  · rintro ⟨left_holds, right_holds, equal⟩
    obtain ⟨otherKey, otherValue, rfl, key_equal, value_equal⟩ := Ty.map_sameWith_iff.mp equal
    rw [holds_map] at left_holds right_holds
    exact ⟨otherKey, otherValue, rfl, ⟨left_holds.1, right_holds.1, key_equal⟩,
      left_holds.2, right_holds.2, value_equal⟩
  · rintro ⟨otherKey, otherValue, rfl, keys, values⟩
    exact ⟨(holds_map _ _).mpr ⟨keys.left_holds, values.left_holds⟩,
      (holds_map _ _).mpr ⟨keys.right_holds, values.right_holds⟩,
      Ty.map_sameWith_iff.mpr ⟨_, _, rfl, keys.equal, values.equal⟩⟩

/-- Equal types, as far as they are there. -/
def AlikeOption (heap : Heap) : Option Ty → Option Ty → Prop := Option.Rel heap.Alike

/-- Lists of types whose elements are equal. -/
def AlikeAll (heap : Heap) : List Ty → List Ty → Prop := List.Forall₂ heap.Alike

/-- Lists of fields with the same labels whose types are equal. -/
def AlikeFields (heap : Heap) : List (Field Ty) → List (Field Ty) → Prop :=
  List.Forall₂ (Field.Rel heap.Alike)

theorem alikeAll_iff {lefts rights : List Ty} : heap.AlikeAll lefts rights ↔
    (∀ type ∈ lefts, heap.Holds type) ∧ (∀ type ∈ rights, heap.Holds type) ∧
      List.Forall₂ (fun left right => heap.store.same left right = some true) lefts rights := by
  constructor
  · intro alike
    induction alike with
    | nil => simp
    | cons head _ ih =>
      obtain ⟨lefts_hold, rights_hold, equal⟩ := ih
      exact ⟨List.forall_mem_cons.mpr ⟨head.left_holds, lefts_hold⟩,
        List.forall_mem_cons.mpr ⟨head.right_holds, rights_hold⟩, .cons head.equal equal⟩
  · rintro ⟨lefts_hold, rights_hold, equal⟩
    induction equal with
    | nil => exact .nil
    | cons head _ ih =>
      obtain ⟨left_holds, lefts_hold⟩ := List.forall_mem_cons.mp lefts_hold
      obtain ⟨right_holds, rights_hold⟩ := List.forall_mem_cons.mp rights_hold
      exact .cons ⟨left_holds, right_holds, head⟩ (ih lefts_hold rights_hold)

theorem alikeFields_iff {lefts rights : List (Field Ty)} : heap.AlikeFields lefts rights ↔
    (∀ field ∈ lefts, heap.Holds field.type) ∧ (∀ field ∈ rights, heap.Holds field.type) ∧
      List.Forall₂ (fun left right => left.label = right.label ∧
        heap.store.same left.type right.type = some true) lefts rights := by
  constructor
  · intro alike
    induction alike with
    | nil => simp
    | cons head _ ih =>
      obtain ⟨lefts_hold, rights_hold, equal⟩ := ih
      exact ⟨List.forall_mem_cons.mpr ⟨head.2.left_holds, lefts_hold⟩,
        List.forall_mem_cons.mpr ⟨head.2.right_holds, rights_hold⟩,
        .cons ⟨head.1, head.2.equal⟩ equal⟩
  · rintro ⟨lefts_hold, rights_hold, equal⟩
    induction equal with
    | nil => exact .nil
    | cons head _ ih =>
      obtain ⟨left_holds, lefts_hold⟩ := List.forall_mem_cons.mp lefts_hold
      obtain ⟨right_holds, rights_hold⟩ := List.forall_mem_cons.mp rights_hold
      exact .cons ⟨head.1, left_holds, right_holds, head.2⟩ (ih lefts_hold rights_hold)

theorem AlikeOption.refl {known : Option Ty} (holds : ∀ type, known = some type → heap.Holds type) :
    heap.AlikeOption known known := by
  cases known with
  | none => exact .none
  | some type => exact .some (.refl (holds type rfl))

theorem AlikeOption.mono {left right : Option Ty} (alike : heap.AlikeOption left right)
    (growsTo : heap.GrowsTo wider) : wider.AlikeOption left right := by
  cases alike with
  | none => exact .none
  | some alike => exact .some (alike.mono growsTo)

theorem AlikeOption.right_holds {left right : Option Ty} (alike : heap.AlikeOption left right) :
    ∀ type, right = some type → heap.Holds type := by
  rintro type rfl
  cases alike with
  | some alike => exact alike.right_holds

theorem AlikeAll.refl {types : List Ty} (hold : ∀ type ∈ types, heap.Holds type) :
    heap.AlikeAll types types :=
  List.forall₂_same.mpr fun type mem => .refl (hold type mem)

theorem AlikeAll.mono {lefts rights : List Ty} (alike : heap.AlikeAll lefts rights)
    (growsTo : heap.GrowsTo wider) : wider.AlikeAll lefts rights :=
  alike.imp fun _ _ alike => alike.mono growsTo

theorem AlikeAll.isEmpty_eq {lefts rights : List Ty} (alike : heap.AlikeAll lefts rights) :
    lefts.isEmpty = rights.isEmpty := by
  cases alike <;> rfl

theorem AlikeFields.refl {fields : List (Field Ty)} (hold : ∀ field ∈ fields, heap.Holds field.type) :
    heap.AlikeFields fields fields :=
  List.forall₂_same.mpr fun field mem => ⟨rfl, .refl (hold field mem)⟩

theorem AlikeFields.mono {lefts rights : List (Field Ty)} (alike : heap.AlikeFields lefts rights)
    (growsTo : heap.GrowsTo wider) : wider.AlikeFields lefts rights :=
  alike.imp fun _ _ alike => ⟨alike.1, alike.2.mono growsTo⟩

theorem alike_tuple_iff {fields : List (Field Ty)} : heap.Alike (.tuple fields) right ↔
    ∃ others, right = .tuple others ∧ heap.AlikeFields fields others := by
  constructor
  · rintro ⟨left_holds, right_holds, equal⟩
    obtain ⟨others, rfl, fields⟩ := Ty.tuple_sameWith_iff.mp equal
    exact ⟨others, rfl, alikeFields_iff.mpr
      ⟨(holds_tuple _).mp left_holds, (holds_tuple _).mp right_holds, fields⟩⟩
  · rintro ⟨others, rfl, alike⟩
    obtain ⟨left_hold, right_hold, equal⟩ := alikeFields_iff.mp alike
    exact ⟨(holds_tuple _).mpr left_hold, (holds_tuple _).mpr right_hold,
      Ty.tuple_sameWith_iff.mpr ⟨others, rfl, equal⟩⟩

theorem alike_func_iff {result : Ty} {arguments : List (Field Ty)} :
    heap.Alike (.func result arguments) right ↔ ∃ other others, right = .func other others ∧
      heap.Alike result other ∧ heap.AlikeFields arguments others := by
  constructor
  · rintro ⟨left_holds, right_holds, equal⟩
    obtain ⟨other, others, rfl, results, arguments⟩ := Ty.func_sameWith_iff.mp equal
    rw [holds_func] at left_holds right_holds
    exact ⟨other, others, rfl, ⟨left_holds.1, right_holds.1, results⟩,
      alikeFields_iff.mpr ⟨left_holds.2, right_holds.2, arguments⟩⟩
  · rintro ⟨other, others, rfl, results, arguments⟩
    obtain ⟨left_hold, right_hold, equal⟩ := alikeFields_iff.mp arguments
    exact ⟨(holds_func _ _).mpr ⟨results.left_holds, left_hold⟩,
      (holds_func _ _).mpr ⟨results.right_holds, right_hold⟩,
      Ty.func_sameWith_iff.mpr ⟨other, others, rfl, results.equal, equal⟩⟩

end Parts

section References

theorem Alike.dataRef {left right : DataRef Ty} (left_known : heap.Known (.dataRef left))
    (right_known : heap.Known (.dataRef right)) (name_eq : left.name = right.name)
    (parameters : heap.AlikeAll left.parameters right.parameters) :
    heap.Alike (.dataRef left) (.dataRef right) :=
  ⟨(holds_dataRef _).mpr left_known, (holds_dataRef _).mpr right_known,
    Ty.dataRef_sameWith_iff.mpr ⟨right, rfl, .inr ⟨name_eq, (alikeAll_iff.mp parameters).2.2⟩⟩⟩

theorem Alike.dataRef_inv {left : DataRef Ty} {other : Ty} (alike : heap.Alike (.dataRef left) other) :
    ∃ right, other = .dataRef right ∧ left.name = right.name ∧
      heap.AlikeAll left.parameters right.parameters := by
  obtain ⟨left_holds, right_holds, equal⟩ := alike
  obtain ⟨right, rfl, -⟩ := Ty.dataRef_sameWith_iff.mp equal
  rw [holds_dataRef] at left_holds right_holds
  obtain ⟨name_eq, parameters⟩ := same_dataRef left_holds right_holds equal
  exact ⟨right, rfl, name_eq, alikeAll_iff.mpr ⟨fun _ => holds_of_mem_parameters left_holds,
    fun _ => holds_of_mem_parameters right_holds, parameters⟩⟩

theorem Alike.aliasRef {left right : AliasRef Ty} (left_known : heap.Known (.aliasRef left))
    (right_known : heap.Known (.aliasRef right)) (name_eq : left.name = right.name)
    (parameters : heap.AlikeAll left.parameters right.parameters)
    (bodies : heap.AlikeOption (heap.store.body? left) (heap.store.body? right)) :
    heap.Alike (.aliasRef left) (.aliasRef right) := by
  refine ⟨(holds_aliasRef _).mpr left_known, (holds_aliasRef _).mpr right_known, ?_⟩
  rw [Store.same_eq]
  refine Ty.aliasRef_sameWith_iff.mpr ⟨right, rfl, .inr ⟨name_eq, ?_, ?_⟩⟩
  · simpa only [← Store.same_eq] using (alikeAll_iff.mp parameters).2.2
  · rw [Store.sameBody]
    revert bodies
    rcases heap.store.body? left with _ | leftBody <;>
      rcases heap.store.body? right with _ | rightBody <;> intro bodies <;> cases bodies
    · rfl
    · next alike => exact alike.equal

theorem Alike.aliasRef_inv {left : AliasRef Ty} {other : Ty}
    (alike : heap.Alike (.aliasRef left) other) :
    ∃ right, other = .aliasRef right ∧ left.name = right.name ∧
      heap.AlikeAll left.parameters right.parameters ∧
        heap.AlikeOption (heap.store.body? left) (heap.store.body? right) := by
  obtain ⟨left_holds, right_holds, equal⟩ := alike
  obtain ⟨right, rfl, -⟩ := Ty.aliasRef_sameWith_iff.mp equal
  rw [holds_aliasRef] at left_holds right_holds
  obtain ⟨name_eq, parameters, bodies⟩ := same_aliasRef left_holds right_holds equal
  refine ⟨right, rfl, name_eq, alikeAll_iff.mpr ⟨fun _ => holds_of_mem_parameters_alias left_holds,
    fun _ => holds_of_mem_parameters_alias right_holds, parameters⟩, ?_⟩
  rw [Store.sameBody] at bodies
  rcases left_eq : heap.store.body? left with _ | leftBody <;>
    rcases right_eq : heap.store.body? right with _ | rightBody <;>
    rw [left_eq, right_eq] at bodies
  · exact .none
  · cases bodies
  · cases bodies
  · exact .some ⟨holds_body left_holds left_eq, holds_body right_holds right_eq, bodies⟩

theorem Alike.constructor {left right : Constructor Ty} (left_known : heap.Known (.constructor left))
    (right_known : heap.Known (.constructor right)) (name_eq : left.name = right.name)
    (owners : heap.Alike (.dataRef left.owner) (.dataRef right.owner))
    (fields : heap.AlikeFields left.fields right.fields) :
    heap.Alike (.constructor left) (.constructor right) :=
  ⟨(holds_constructor _).mpr left_known, (holds_constructor _).mpr right_known,
    Ty.constructor_sameWith_iff.mpr ⟨right, rfl, .inr ⟨owners.equal, name_eq,
      (alikeFields_iff.mp fields).2.2⟩⟩⟩

theorem Alike.constructor_inv {left : Constructor Ty} {other : Ty}
    (alike : heap.Alike (.constructor left) other) :
    ∃ right, other = .constructor right ∧ left.name = right.name ∧
      heap.Alike (.dataRef left.owner) (.dataRef right.owner) ∧
        heap.AlikeFields left.fields right.fields := by
  obtain ⟨left_holds, right_holds, equal⟩ := alike
  obtain ⟨right, rfl, -⟩ := Ty.constructor_sameWith_iff.mp equal
  rw [holds_constructor] at left_holds right_holds
  obtain ⟨owners, name_eq, fields⟩ := same_constructor left_holds right_holds equal
  exact ⟨right, rfl, name_eq, ⟨(holds_dataRef _).mpr (known_owner left_holds),
    (holds_dataRef _).mpr (known_owner right_holds), owners⟩, alikeFields_iff.mpr
      ⟨fun _ => holds_of_mem_fields left_holds, fun _ => holds_of_mem_fields right_holds, fields⟩⟩

theorem Alike.parameters {left right : Ty} (alike : heap.Alike left right) :
    heap.AlikeAll left.parameters right.parameters := by
  cases left with
  | dataRef =>
    obtain ⟨_, rfl, -, parameters⟩ := alike.dataRef_inv
    exact parameters
  | aliasRef =>
    obtain ⟨_, rfl, -, parameters, -⟩ := alike.aliasRef_inv
    exact parameters
  | _ =>
    cases right <;> first | exact .nil | cases alike.equal

end References

section Comparison

variable {left left' right right' : Ty} {answer : Bool}

/-- Comparing equal types gives the same answer. -/
theorem Alike.same_congr (lefts : heap.Alike left left') (rights : heap.Alike right right')
    (found : heap.store.same left right = some answer) :
    heap.store.same left' right' = some answer := by
  have swapped := Heap.same_congr lefts.right_holds lefts.left_holds rights.left_holds
    (Store.same_symm lefts.equal) found
  rw [Store.same_comm] at swapped ⊢
  exact Heap.same_congr rights.right_holds rights.left_holds lefts.right_holds
    (Store.same_symm rights.equal) swapped

/-- Comparing lists of equal fields gives the same answer, also later. -/
theorem AlikeFields.sameFields_congr {lefts lefts' rights rights' : List (Field Ty)}
    (growsTo : heap.GrowsTo wider) (lefts_hold : ∀ field ∈ lefts, heap.Holds field.type)
    (rights_hold : ∀ field ∈ rights, heap.Holds field.type)
    (alike_lefts : wider.AlikeFields lefts lefts') (alike_rights : wider.AlikeFields rights rights')
    (found : heap.store.sameFields lefts rights = some answer) :
    wider.store.sameFields lefts' rights' = some answer := by
  have grown : wider.store.same (.tuple lefts) (.tuple rights) = some answer :=
    (same_grows growsTo.grows ((holds_tuple lefts).mpr lefts_hold)
      ((holds_tuple rights).mpr rights_hold)).mpr found
  exact (alike_tuple_iff.mpr ⟨_, rfl, alike_lefts⟩).same_congr
    (alike_tuple_iff.mpr ⟨_, rfl, alike_rights⟩) grown

/-- Comparing lists of equal types gives the same answer, also later. -/
theorem AlikeAll.sameAll_congr {lefts lefts' rights rights' : List Ty}
    (growsTo : heap.GrowsTo wider) (lefts_hold : ∀ type ∈ lefts, heap.Holds type)
    (rights_hold : ∀ type ∈ rights, heap.Holds type)
    (alike_lefts : wider.AlikeAll lefts lefts') (alike_rights : wider.AlikeAll rights rights')
    (found : heap.store.sameAll lefts rights = some answer) :
    wider.store.sameAll lefts' rights' = some answer := by
  have unlabelled {lefts rights : List Ty} (alike : wider.AlikeAll lefts rights) :
      wider.AlikeFields (lefts.map (⟨none, ·⟩)) (rights.map (⟨none, ·⟩)) :=
    List.forall₂_map_left_iff.mpr (List.forall₂_map_right_iff.mpr
      (alike.imp fun _ _ alike => ⟨rfl, alike⟩))
  rw [Store.sameAll_eq] at found ⊢
  exact AlikeFields.sameFields_congr growsTo (List.forall_mem_map.mpr lefts_hold)
    (List.forall_mem_map.mpr rights_hold) (unlabelled alike_lefts) (unlabelled alike_rights) found

end Comparison

end Heap

end Reification
