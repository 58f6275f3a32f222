import Reification.Proofs.Outline
import Reification.Proofs.Saturation
import Reification.Ty.Instantiate

/-!
# Entering a type

Instantiating a type enters its parts, unless it keeps the type as it is, and the parts of those in
turn.  If no alias which is entered reaches itself, this comes to an end, and no more aliases are
entered on the way than there are.
-/

namespace Reification

open Relation (ReflTransGen TransGen)

/-- Whether the parts of a type are instantiated with it. -/
def Ty.isCopied : Ty → Bool
  | .prim _ | .sort _ | .parameter .. => false
  | .list _ | .set _ | .map .. | .tuple _ | .func .. | .reified _ => true
  | .dataRef reference => !reference.parameters.isEmpty
  | .aliasRef reference => !reference.parameters.isEmpty
  | .constructor reference => !reference.owner.parameters.isEmpty

/-- The outline of a type tells whether its parts are instantiated with it. -/
theorem Ty.isCopied_eq_of_outline_eq {left right : Ty} (outline_eq : left.outline = right.outline) :
    left.isCopied = right.isCopied := by
  have isCopied_outline (type : Ty) : type.outline.isCopied = type.isCopied := by
    cases type <;> simp only [outline, isCopied, List.isEmpty_map]
  rw [← isCopied_outline, outline_eq, isCopied_outline]

namespace Store

/-- Whether instantiating a type enters one of its parts. -/
def Enters (store : Store) (whole part : Ty) : Prop :=
  whole.isCopied = true ∧ part ∈ store.parts whole

/-- Whether no alias into which instantiating a type enters reaches itself. -/
def Acyclic (store : Store) (type : Ty) : Prop :=
  ∀ reference, ReflTransGen store.Enters type (.aliasRef reference) →
    ¬TransGen store.Enters (.aliasRef reference) (.aliasRef reference)

/-- Whether entering part after part of a type comes to an end. -/
def Grounded (store : Store) (type : Ty) : Prop :=
  Acc (fun part whole => store.Enters whole part) type

variable {store : Store} {type part : Ty}

theorem Grounded.irrefl (grounded : store.Grounded type) : ¬TransGen store.Enters type type := by
  induction grounded with
  | intro type _ ih =>
    intro cycle
    obtain ⟨part, enters, path⟩ := TransGen.head'_iff.mp cycle
    exact ih part enters (.tail' path enters)

theorem Grounded.of_enters (grounded : store.Grounded type)
    (path : ReflTransGen store.Enters type part) : store.Grounded part := by
  induction path with
  | refl => exact grounded
  | tail _ enters ih => exact ih.inv enters

theorem Grounded.acyclic (grounded : store.Grounded type) : store.Acyclic type :=
  fun _ path => (grounded.of_enters path).irrefl

theorem grounded_of_parts (grounded : ∀ part ∈ store.parts type, store.Grounded part) :
    store.Grounded type := .intro _ fun part enters => grounded part enters.2

/-- A type which is not copied is not entered. -/
theorem grounded_of_isCopied_eq (isCopied_eq : type.isCopied = false) : store.Grounded type := by
  refine .intro _ fun part enters => ?_
  rw [Store.Enters, isCopied_eq] at enters
  cases enters.1

/-- A type is grounded if the aliases into which one enters are. -/
theorem grounded_of_aliases
    (grounded : ∀ reference, ReflTransGen store.Enters type (.aliasRef reference) →
      store.Grounded (.aliasRef reference)) : store.Grounded type := by
  induction type using Ty.children_induction with
  | step type ih =>
    cases type with
    | aliasRef reference => exact grounded reference .refl
    | _ =>
      exact .intro _ fun part enters => ih part enters.2 fun reference path =>
        grounded reference (.head enters path)

open Classical in
/-- The slots of the aliases into which instantiating a type enters. -/
noncomputable def enteredSlots (store : Store) (type : Ty) : Finset Nat :=
  (Finset.range store.slots.size).filter fun slot => ∃ reference : AliasRef Ty,
    reference.object = slot ∧ ReflTransGen store.Enters type (.aliasRef reference)

theorem mem_enteredSlots {slot : Nat} : slot ∈ store.enteredSlots type ↔
    slot < store.slots.size ∧ ∃ reference : AliasRef Ty, reference.object = slot ∧
      ReflTransGen store.Enters type (.aliasRef reference) := by
  classical
  rw [enteredSlots, Finset.mem_filter, Finset.mem_range]

theorem card_enteredSlots_le (type : Ty) : (store.enteredSlots type).card ≤ store.slots.size := by
  classical
  exact (Finset.card_filter_le _ _).trans (Finset.card_range _).le

end Store

namespace Heap

variable {heap wider : Heap} {type part : Ty}

theorem Holds.of_enters (holds : heap.Holds type)
    (path : ReflTransGen heap.store.Enters type part) : heap.Holds part := by
  induction path with
  | refl => exact holds
  | tail _ enters ih => exact holds_of_mem_parts ih enters.2

/-- As there are finitely many aliases, entering part after part comes to an end if none of them
reaches itself. -/
theorem grounded_of_acyclic (holds : heap.Holds type) (acyclic : heap.store.Acyclic type) :
    heap.store.Grounded type := by
  have known {reference : AliasRef Ty}
      (path : ReflTransGen heap.store.Enters type (.aliasRef reference)) :
      heap.Known (.aliasRef reference) := (holds_aliasRef _).mp (holds.of_enters path)
  have unique {reference other : AliasRef Ty}
      (path : ReflTransGen heap.store.Enters type (.aliasRef reference))
      (path' : ReflTransGen heap.store.Enters type (.aliasRef other))
      (object_eq : reference.object = other.object) : reference = other :=
    Ty.aliasRef.inj (heap.unique (known path) (known path')
      (by simpa [Ty.isSameObject] using object_eq))
  -- Aliases which are reached are determined by their slots, of which there are finitely many.
  let Leads (slot other : Nat) : Prop := ∃ reference next : AliasRef Ty,
    reference.object = slot ∧ next.object = other ∧
      ReflTransGen heap.store.Enters type (.aliasRef reference) ∧
        TransGen heap.store.Enters (.aliasRef reference) (.aliasRef next)
  have leads_trans : IsTrans Nat Leads := by
    refine ⟨?_⟩
    rintro _ _ _ ⟨reference, next, rfl, object_eq, path, leads⟩
      ⟨_, last, rfl, rfl, path', leads'⟩
    obtain rfl := unique (path.trans leads.to_reflTransGen) path' object_eq
    exact ⟨reference, last, rfl, rfl, path, leads.trans leads'⟩
  refine Store.grounded_of_aliases fun reference path => ?_
  refine induction_of_acyclic (R := Leads) (Finset.range heap.store.slots.size)
    (P := fun slot => ∀ reference : AliasRef Ty, reference.object = slot →
      ReflTransGen heap.store.Enters type (.aliasRef reference) →
        heap.store.Grounded (.aliasRef reference)) ?_ ?_ ?_ reference.object reference rfl path
  · rintro _ _ ⟨_, next, _, rfl, path, leads⟩
    exact Finset.mem_range.mpr (heap.made (known (path.trans leads.to_reflTransGen)))
  · intro slot cycle
    rw [Relation.transGen_eq_self] at cycle
    obtain ⟨reference, next, object_eq, next_eq, path, leads⟩ := cycle
    obtain rfl := unique path (path.trans leads.to_reflTransGen) (object_eq.trans next_eq.symm)
    exact acyclic reference path leads
  · rintro _ ih reference rfl path
    refine .intro _ fun part enters => Store.grounded_of_aliases fun next rest => ?_
    exact ih next.object ⟨reference, next, rfl, rfl, path, .head' enters rest⟩ next rfl
      (path.trans (.head enters rest))

/-- Entering a type leads to the same types later. -/
theorem GrowsTo.grounded (growsTo : heap.GrowsTo wider) (holds : heap.Holds type)
    (grounded : heap.store.Grounded type) : wider.store.Grounded type := by
  induction grounded with
  | intro type _ ih =>
    refine .intro _ fun part enters => ?_
    have mem := enters.2
    rw [growsTo.parts_eq holds] at mem
    exact ih part ⟨enters.1, mem⟩ (holds_of_mem_parts holds mem)

/-- Entering the body of an alias leaves its slot behind. -/
theorem card_enteredSlots_lt {reference : AliasRef Ty} (holds : heap.Holds type)
    (grounded : heap.store.Grounded type)
    (path : ReflTransGen heap.store.Enters type (.aliasRef reference))
    (enters : heap.store.Enters (.aliasRef reference) part) :
    (heap.store.enteredSlots part).card < (heap.store.enteredSlots type).card := by
  have known := (holds_aliasRef _).mp (holds.of_enters path)
  refine Finset.card_lt_card ((Finset.ssubset_iff_of_subset fun slot mem => ?_).mpr
    ⟨reference.object, Store.mem_enteredSlots.mpr ⟨heap.made known, reference, rfl, path⟩, ?_⟩)
  · obtain ⟨slot_lt, other, object_eq, rest⟩ := Store.mem_enteredSlots.mp mem
    exact Store.mem_enteredSlots.mpr
      ⟨slot_lt, other, object_eq, path.trans (.head enters rest)⟩
  · intro mem
    obtain ⟨-, other, object_eq, rest⟩ := Store.mem_enteredSlots.mp mem
    have other_known := (holds_aliasRef _).mp (holds.of_enters (path.trans (.head enters rest)))
    obtain rfl := Ty.aliasRef.inj
      (heap.unique other_known known (by simpa [Ty.isSameObject] using object_eq))
    exact (grounded.of_enters path).irrefl (.head' enters rest)

end Heap

end Reification
