import Reification.Proofs.Instances

/-!
# Instantiating twice

Instantiating a type and then its instance gives what instantiating the type once gives for the
composed bindings: each name of the first ones is bound to an instance of its actual parameter for the
second ones, and the other names are bound as in these.
-/

namespace Reification

/-- The bindings which instantiate a type at once as two bindings do one after the other. -/
def Bindings.andThen (first second : Bindings) : Making Bindings :=
  first.entries.foldlM (fun composed (name, actual) =>
    return composed.insert name (← actual.instantiate second)) second

/-- Instantiates a type for two bindings one after the other, and once for the composed ones. -/
def Ty.instantiateBothWays (first second : Bindings) (type : Ty) : Making (Ty × Ty) := do
  let twice ← (← type.instantiate first).instantiate second
  let once ← type.instantiate (← first.andThen second)
  return (twice, once)

namespace Heap

variable {heap wider : Heap} {bindings first second composed : Bindings} {type part : Ty}

/-- Whether bindings are composed of two others. -/
def Composes (heap : Heap) (first second composed : Bindings) : Prop :=
  ∀ name, match first.get? name with
    | some actual =>
      ∃ result, composed.get? name = some result ∧ heap.Instantiates second actual result
    | none => composed.get? name = second.get? name

theorem Composes.mono (composes : heap.Composes first second composed)
    (growsTo : heap.GrowsTo wider) : wider.Composes first second composed := by
  intro name
  have bound := composes name
  rcases get?_eq : first.get? name with _ | actual <;> simp only [get?_eq] at bound ⊢
  · exact bound
  · obtain ⟨result, result_eq, instance_⟩ := bound
    exact ⟨result, result_eq, instance_.mono growsTo⟩

theorem Composes.binds (composes : heap.Composes first second composed)
    (binds : heap.Binds second) : heap.Binds composed := by
  intro name actual get?_eq
  have bound := composes name
  split at bound
  · obtain ⟨result, result_eq, instance_⟩ := bound
    obtain rfl := Option.some.inj (result_eq.symm.trans get?_eq)
    exact instance_.result_holds
  · exact binds (bound ▸ get?_eq)

/-- All instances of a type are equal. -/
theorem Instantiates.unique {left right : Ty} (one : heap.Instantiates bindings type left)
    (other : heap.Instantiates bindings type right) : heap.Alike left right := by
  obtain ⟨holds, left_holds, instantiates⟩ := one
  induction instantiates generalizing right with
  | bound get?_eq =>
    rw [other.eq_of_parameter, get?_eq]
    exact .refl left_holds
  | free bound get?_eq =>
    rw [other.eq_of_parameter, get?_eq]
    exact .refl left_holds
  | kept isCopied_eq no_parameter =>
    rw [other.eq_of_kept isCopied_eq no_parameter]
    exact .refl left_holds
  | @copied type left isCopied_eq outline_eq length_eq parts ih =>
    obtain ⟨outline_eq', rights⟩ := other.of_copied isCopied_eq
    have lefts : List.Forall₂ (fun copy part => ∀ right, heap.Instantiates bindings part right →
        heap.Alike copy right) (heap.store.parts left) (heap.store.parts type) := by
      refine .flip (List.forall₂_iff_zip.mpr ⟨length_eq, fun mem right other => ?_⟩)
      exact ih mem other (holds_of_mem_parts holds (List.of_mem_zip mem).1)
        (holds_of_mem_parts left_holds (List.of_mem_zip mem).2)
    exact alike_of_parts left_holds other.result_holds (outline_eq.symm.trans outline_eq')
      (forall₂_trans (fun _ _ _ _ _ _ alike other => alike _ other) lefts rights)

/-- An instance of an instance equals the instance for the composed bindings. -/
theorem Instantiates.comp {twice once : Ty} (composes : heap.Composes first second composed)
    (inner : heap.Instantiates first type part) (outer : heap.Instantiates second part twice)
    (other : heap.Instantiates composed type once) : heap.Alike twice once := by
  obtain ⟨holds, part_holds, instantiates⟩ := inner
  induction instantiates generalizing twice once with
  | @bound name _ actual get?_eq =>
    have bound := composes name
    simp only [get?_eq] at bound
    obtain ⟨result, result_eq, instance_⟩ := bound
    obtain rfl : once = result := by rw [other.eq_of_parameter, result_eq]; rfl
    exact outer.unique instance_
  | @free name bound get?_eq =>
    have same := composes name
    simp only [get?_eq] at same
    rw [other.eq_of_parameter, same, ← outer.eq_of_parameter]
    exact .refl outer.result_holds
  | kept isCopied_eq no_parameter =>
    rw [other.eq_of_kept isCopied_eq no_parameter, outer.eq_of_kept isCopied_eq no_parameter]
    exact .refl holds
  | @copied type part isCopied_eq outline_eq length_eq parts ih =>
    obtain ⟨twice_eq, twices⟩ :=
      outer.of_copied (Ty.isCopied_eq_of_outline_eq outline_eq ▸ isCopied_eq)
    obtain ⟨once_eq, onces⟩ := other.of_copied isCopied_eq
    have parts : List.Forall₂ (fun copy part => ∀ twice once, heap.Instantiates second copy twice →
        heap.Instantiates composed part once → heap.Alike twice once) (heap.store.parts part)
          (heap.store.parts type) := by
      refine .flip (List.forall₂_iff_zip.mpr ⟨length_eq, fun mem twice once outer other => ?_⟩)
      exact ih mem outer other (holds_of_mem_parts holds (List.of_mem_zip mem).1)
        (holds_of_mem_parts part_holds (List.of_mem_zip mem).2)
    have lefts : List.Forall₂ (fun twice part => ∀ once, heap.Instantiates composed part once →
        heap.Alike twice once) (heap.store.parts twice) (heap.store.parts type) :=
      forall₂_trans (fun _ _ _ _ _ _ outer alike once => alike _ once outer) twices.flip parts
    exact alike_of_parts outer.result_holds other.result_holds
      (twice_eq.symm.trans (outline_eq.symm.trans once_eq))
      (forall₂_trans (fun _ _ _ _ _ _ alike other => alike _ other) lefts onces)

/-- Entering an instance comes to an end if entering the actual parameters does. -/
theorem Instantiates.grounded {result : Ty} (instance_ : heap.Instantiates bindings type result)
    (actuals : ∀ ⦃name actual⦄, bindings.get? name = some actual → heap.store.Grounded actual) :
    heap.store.Grounded result := by
  obtain ⟨-, -, instantiates⟩ := instance_
  induction instantiates with
  | bound get?_eq => exact actuals get?_eq
  | free => exact Store.grounded_of_isCopied_eq rfl
  | kept isCopied_eq => exact Store.grounded_of_isCopied_eq isCopied_eq
  | copied _ _ length_eq _ ih =>
    refine .intro _ fun part enters => ?_
    exact forall_mem_of_forall₂ (List.forall₂_iff_zip.mpr ⟨length_eq, ih⟩) id part enters.2

/-- The composed bindings map each name of the first ones to an instance of its actual parameter for
the second ones, and every other name as these do. -/
theorem makes_andThen (first_binds : heap.Binds first) (second_binds : heap.Binds second)
    (actuals : ∀ ⦃name actual⦄, first.get? name = some actual → heap.store.Grounded actual) :
    heap.Makes (first.andThen second) fun last composed => last.Composes first second composed := by
  -- The names which are still to come are not bound again, as those of a table increase.
  have step {entries : List (String × Ty)} {composed : Bindings} {wider : Heap}
      (known : ∀ entry ∈ entries, heap.Holds entry.2 ∧ heap.store.Grounded entry.2)
      (increasing : entries.Pairwise fun left right => compare left.1 right.1 = .lt)
      (growsTo : heap.GrowsTo wider) :
      wider.Makes (entries.foldlM (fun composed (name, actual) =>
          return composed.insert name (← actual.instantiate second)) composed)
        fun last result => ∀ name, match entries.lookup name with
          | some actual =>
            ∃ copy, result.get? name = some copy ∧ last.Instantiates second actual copy
          | none => result.get? name = composed.get? name := by
    induction entries generalizing composed wider with
    | nil => exact makes_pure fun _ => rfl
    | cons entry entries ih =>
      obtain ⟨⟨holds, grounded⟩, tail_known⟩ := List.forall_mem_cons.mp known
      obtain ⟨head_lt, tail_increasing⟩ := List.pairwise_cons.mp increasing
      rw [List.foldlM_cons, bind_assoc]
      refine (makes_instantiate (second_binds.mono growsTo) (holds.mono growsTo)
        (growsTo.grounded holds grounded)).bind fun middle copy later instance_ => ?_
      rw [pure_bind]
      obtain ⟨result, store, run_eq, last, last_growsTo, store_eq, composes⟩ :=
        ih tail_known tail_increasing (growsTo.trans later)
      refine ⟨result, store, run_eq, last, last_growsTo, store_eq, fun name => ?_⟩
      have bound := composes name
      rw [Table.lookup_cons]
      by_cases same : name = entry.1
      · rw [same, Table.lookup_eq_none_of_lt head_lt] at bound
        rw [if_pos same, same]
        exact ⟨copy, by simpa using bound, instance_.mono last_growsTo⟩
      · rw [if_neg same]
        simpa [same] using bound
  refine step (fun entry mem => ?_) first.increasing (.refl heap)
  have get?_eq := Table.get?_eq_some_iff.mpr mem
  exact ⟨first_binds get?_eq, actuals get?_eq⟩

/-- Instantiating a type twice gives what instantiating it once does for the composed bindings. -/
theorem instantiateBothWays_same (holds : heap.Holds type) (first_binds : heap.Binds first)
    (second_binds : heap.Binds second) (acyclic : heap.store.Acyclic type)
    (actuals_acyclic : ∀ ⦃name actual⦄, first.get? name = some actual →
      heap.store.Acyclic actual) :
    (type.instantiateBothWays first second).Gives heap.store fun (twice, once) store =>
      store.same twice once = some true := by
  have grounded := grounded_of_acyclic holds acyclic
  have actuals ⦃name : String⦄ ⦃actual : Ty⦄ (get?_eq : first.get? name = some actual) :
      heap.store.Grounded actual :=
    grounded_of_acyclic (first_binds get?_eq) (actuals_acyclic get?_eq)
  have both : heap.Makes (type.instantiateBothWays first second) fun last results =>
      last.Alike results.1 results.2 := by
    refine (makes_instantiate first_binds holds grounded).bind fun one part later inner => ?_
    have actuals_later {wider : Heap} (growsTo : heap.GrowsTo wider) ⦃name : String⦄ ⦃actual : Ty⦄
        (get?_eq : first.get? name = some actual) : wider.store.Grounded actual :=
      growsTo.grounded (first_binds get?_eq) (actuals get?_eq)
    refine (makes_instantiate (second_binds.mono later) inner.result_holds
      (inner.grounded (actuals_later later))).bind fun two twice next outer => ?_
    have until_two := later.trans next
    refine (makes_andThen (first_binds.mono until_two) (second_binds.mono until_two)
      (actuals_later until_two)).bind fun three composed next' composes => ?_
    have until_three := until_two.trans next'
    refine (makes_instantiate (composes.binds (second_binds.mono until_three))
      (holds.mono until_three) (until_three.grounded holds grounded)).bind
        fun four once last other => makes_pure ?_
    exact (inner.mono ((next.trans next').trans last)).comp (composes.mono last)
      (outer.mono (next'.trans last)) other
  obtain ⟨results, store, run_eq, last, -, rfl, alike⟩ := both
  exact ⟨results, _, run_eq, alike.equal⟩

end Heap

/-! Entries of a table which keeps sets under its keys. -/

namespace Multimap

def key : Ty := .parameter "K" (.prim .value)

def value : Ty := .parameter "V" (.prim .value)

def entry : AliasRef Ty := ⟨0, "Entry", [key, value]⟩

def store : Store := ⟨0, #[some (.tuple [⟨some "key", key⟩, ⟨some "values", .list value⟩])]⟩

def heap : Heap :=
  .of store [.aliasRef entry] (by simp) (by simp [Store.HasMade, store, entry])
    (by simp [Ty.references, Ty.referencesOfAll, Ty.referencesOfFields, Store.behind, Store.body?,
      store, entry, key, value])

/-- The values are sets of elements which are not known yet. -/
def sets : Bindings := ⟨[("V", .set (.parameter "W" (.prim .value)))], by decide⟩

/-- The keys are strings, and the elements of the sets are numbers. -/
def numbers : Bindings := ⟨[("K", .prim .str), ("W", .prim .int)], by decide⟩

theorem binds : heap.Binds sets ∧ heap.Binds numbers := by
  constructor
  · intro name actual get?_eq
    cases List.mem_singleton.mp (Table.get?_eq_some_iff.mp get?_eq)
    simp
  · intro name actual get?_eq
    rcases List.mem_pair.mp (Table.get?_eq_some_iff.mp get?_eq) with pair_eq | pair_eq <;>
      cases pair_eq <;> simp

theorem acyclic : store.Acyclic (.aliasRef entry) := by
  have leaf (name : String) : store.Grounded (.parameter name (.prim .value)) :=
    Store.grounded_of_isCopied_eq rfl
  have values : store.Grounded (.list value) :=
    Store.grounded_of_parts (List.forall_mem_singleton.mpr (leaf "V"))
  refine Store.Grounded.acyclic (Store.grounded_of_parts (List.forall_mem_cons.mpr ⟨?_, ?_⟩))
  · exact Store.grounded_of_parts
      (List.forall_mem_cons.mpr ⟨leaf "K", List.forall_mem_singleton.mpr values⟩)
  · exact List.forall_mem_cons.mpr ⟨leaf "K", List.forall_mem_singleton.mpr (leaf "V")⟩

theorem sets_acyclic ⦃name : String⦄ ⦃actual : Ty⦄ (get?_eq : sets.get? name = some actual) :
    store.Acyclic actual := by
  cases List.mem_singleton.mp (Table.get?_eq_some_iff.mp get?_eq)
  have leaf : store.Grounded (.parameter "W" (.prim .value)) := Store.grounded_of_isCopied_eq rfl
  have elements : store.Grounded (.set (.parameter "W" (.prim .value))) :=
    Store.grounded_of_parts (List.forall_mem_singleton.mpr leaf)
  exact elements.acyclic

theorem entry_instantiateBothWays_same :
    heap.Holds (.aliasRef entry) ∧ heap.Binds sets ∧ heap.Binds numbers ∧
      store.Acyclic (.aliasRef entry) ∧
      (∀ ⦃name actual⦄, sets.get? name = some actual → store.Acyclic actual) ∧
      ((Ty.aliasRef entry).instantiateBothWays sets numbers).Gives store fun (twice, once) store =>
        store.same twice once = some true := by
  have holds : heap.Holds (.aliasRef entry) := (Heap.holds_aliasRef _).mpr (.head _)
  exact ⟨holds, binds.1, binds.2, acyclic, sets_acyclic,
    Heap.instantiateBothWays_same holds binds.1 binds.2 acyclic sets_acyclic⟩

/-- The composed bindings keep the names of both. -/
example : ((sets.andThen numbers).run store).map (·.1.entries) =
    some [("K", .prim .str), ("V", .set (.prim .int)), ("W", .prim .int)] := rfl

end Multimap

end Reification
