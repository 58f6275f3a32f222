import Mathlib.Data.Finset.Prod
import Mathlib.Data.List.Forall2
import Reification.Proofs.References
import Reification.Proofs.Saturation
import Reification.Ty.Same

/-!
# Structural equality

An answer which is found with some nesting of bodies is found with every deeper one, so structural
equality is the relation which some depth confirms.
-/

namespace Reification

attribute [grind =] Ty.sameWith

@[simp]
theorem andThenSame_eq_true_iff {first second : Option Bool} :
    andThenSame first second = some true ↔ first = some true ∧ second = some true := by
  rcases first with _ | _ | _ <;> simp [andThenSame]

/-- A comparison which goes on is decided by its first difference. -/
theorem andThenSame_eq_some {first second first' second' : Option Bool} {answer : Bool}
    (found : andThenSame first second = some answer)
    (first_le : ∀ answer, first = some answer → first' = some answer)
    (second_le : ∀ answer, second = some answer → second' = some answer) :
    andThenSame first' second' = some answer := by
  rcases first with _ | _ | _
  · simp [andThenSame] at found
  · rw [first_le false rfl]
    exact found
  · rw [first_le true rfl]
    exact second_le answer found

namespace Ty

variable {f g : AliasRef Ty → AliasRef Ty → Option Bool}

theorem sameAllWith_eq_true_iff {lefts rights : List Ty} :
    sameAllWith f lefts rights = some true ↔
      List.Forall₂ (fun left right => left.sameWith f right = some true) lefts rights := by
  induction lefts generalizing rights with
  | nil => cases rights <;> simp [sameAllWith]
  | cons left lefts ih =>
    cases rights with
    | nil => simp [sameAllWith]
    | cons right rights =>
      simp only [sameAllWith, andThenSame_eq_true_iff, Option.some.injEq, beq_iff_eq,
        List.forall₂_cons, ih]
      exact ⟨fun equal => equal.2, fun equal => ⟨equal.2.length_eq, equal⟩⟩

theorem sameFieldsWith_eq_true_iff {lefts rights : List (Field Ty)} :
    sameFieldsWith f lefts rights = some true ↔
      List.Forall₂ (fun left right => left.label = right.label ∧
        left.type.sameWith f right.type = some true) lefts rights := by
  induction lefts generalizing rights with
  | nil => cases rights <;> simp [sameFieldsWith]
  | cons left lefts ih =>
    cases rights with
    | nil => simp [sameFieldsWith]
    | cons right rights =>
      simp only [sameFieldsWith, andThenSame_eq_true_iff, Option.some.injEq, beq_iff_eq,
        List.forall₂_cons, ih]
      exact ⟨fun equal => ⟨⟨equal.2.1, equal.2.2.1⟩, equal.2.2.2⟩,
        fun equal => ⟨equal.2.length_eq, equal.1.1, equal.1.2, equal.2⟩⟩

/-- Two types are found equal only if they are of one kind. -/
theorem sameWith_self (type : Ty) : type.sameWith f type = some true := by
  induction type using Ty.induction with
  | tuple fields ih =>
    simpa [sameWith, sameFieldsWith_eq_true_iff, List.forall₂_same] using ih
  | func result arguments ih ih_arguments =>
    simpa [sameWith, sameFieldsWith_eq_true_iff, List.forall₂_same, ih] using ih_arguments
  | _ => simp_all [sameWith]

section Inversion

variable {right : Ty}

theorem prim_sameWith_iff {primitive : Primitive} :
    (prim primitive).sameWith f right = some true ↔ right = prim primitive := by
  cases right <;> grind

theorem sort_sameWith_iff {name : String} :
    (sort name).sameWith f right = some true ↔ right = sort name := by
  cases right <;> grind

theorem list_sameWith_iff {element : Ty} :
    (list element).sameWith f right = some true ↔
      ∃ other, right = list other ∧ element.sameWith f other = some true := by
  cases right <;> grind

theorem set_sameWith_iff {element : Ty} :
    (set element).sameWith f right = some true ↔
      ∃ other, right = set other ∧ element.sameWith f other = some true := by
  cases right <;> grind

theorem reified_sameWith_iff {inner : Ty} :
    (reified inner).sameWith f right = some true ↔
      ∃ other, right = reified other ∧ inner.sameWith f other = some true := by
  cases right <;> grind

theorem map_sameWith_iff {key value : Ty} :
    (map key value).sameWith f right = some true ↔ ∃ otherKey otherValue,
      right = map otherKey otherValue ∧ key.sameWith f otherKey = some true ∧
        value.sameWith f otherValue = some true := by
  cases right <;> simp [sameWith]

theorem tuple_sameWith_iff {fields : List (Field Ty)} :
    (tuple fields).sameWith f right = some true ↔ ∃ others, right = tuple others ∧
      List.Forall₂ (fun left right => left.label = right.label ∧
        left.type.sameWith f right.type = some true) fields others := by
  cases right <;> simp [sameWith, sameFieldsWith_eq_true_iff]

theorem func_sameWith_iff {result : Ty} {arguments : List (Field Ty)} :
    (func result arguments).sameWith f right = some true ↔ ∃ otherResult others,
      right = func otherResult others ∧ result.sameWith f otherResult = some true ∧
        List.Forall₂ (fun left right => left.label = right.label ∧
          left.type.sameWith f right.type = some true) arguments others := by
  cases right <;> simp [sameWith, sameFieldsWith_eq_true_iff]

theorem parameter_sameWith_iff {name : String} {bound : Ty} :
    (parameter name bound).sameWith f right = some true ↔
      ∃ other, right = parameter name other ∧ bound.sameWith f other = some true := by
  cases right with
  | parameter otherName other =>
    simp only [sameWith, andThenSame_eq_true_iff, Option.some.injEq, beq_iff_eq, parameter.injEq]
    exact ⟨fun equal => ⟨other, ⟨equal.1.symm, rfl⟩, equal.2⟩,
      fun ⟨_, ⟨name_eq, rfl⟩, equal⟩ => ⟨name_eq.symm, equal⟩⟩
  | _ => simp [sameWith]

theorem dataRef_sameWith_iff {reference : DataRef Ty} :
    (dataRef reference).sameWith f right = some true ↔ ∃ other, right = dataRef other ∧
      (reference.object = other.object ∨ reference.name = other.name ∧
        List.Forall₂ (fun left right => left.sameWith f right = some true)
          reference.parameters other.parameters) := by
  obtain ⟨object, name, parameters⟩ := reference
  cases right <;> simp [sameWith, sameAllWith_eq_true_iff, or_iff_not_imp_left]

theorem aliasRef_sameWith_iff {reference : AliasRef Ty} :
    (aliasRef reference).sameWith f right = some true ↔ ∃ other, right = aliasRef other ∧
      (reference.object = other.object ∨ reference.name = other.name ∧
        List.Forall₂ (fun left right => left.sameWith f right = some true)
          reference.parameters other.parameters ∧ f reference other = some true) := by
  obtain ⟨object, name, parameters⟩ := reference
  rcases right with _ | _ | _ | _ | _ | _ | _ | _ | _ | ⟨_, _, _⟩ | _ | _ <;>
    simp [sameWith, sameAllWith_eq_true_iff, or_iff_not_imp_left]

theorem constructor_sameWith_iff {reference : Constructor Ty} :
    (constructor reference).sameWith f right = some true ↔ ∃ other, right = constructor other ∧
      (reference.object = other.object ∨
        (dataRef reference.owner).sameWith f (dataRef other.owner) = some true ∧
          reference.name = other.name ∧
          List.Forall₂ (fun left right => left.label = right.label ∧
            left.type.sameWith f right.type = some true) reference.fields other.fields) := by
  obtain ⟨object, ⟨owner, ownerName, parameters⟩, name, fields, attributes⟩ := reference
  cases right <;> simp [sameWith, sameAllWith_eq_true_iff, sameFieldsWith_eq_true_iff,
    or_iff_not_imp_left]

end Inversion

theorem sameAllWith_comm {lefts rights : List Ty}
    (comm : ∀ left ∈ lefts, ∀ right, left.sameWith f right = right.sameWith g left) :
    sameAllWith f lefts rights = sameAllWith g rights lefts := by
  induction lefts generalizing rights with
  | nil => cases rights <;> rfl
  | cons left lefts ih =>
    cases rights with
    | nil => rfl
    | cons right rights =>
      obtain ⟨head_comm, tail_comm⟩ := List.forall_mem_cons.mp comm
      simp only [sameAllWith, head_comm right, ih tail_comm, BEq.comm]

theorem sameFieldsWith_comm {lefts rights : List (Field Ty)}
    (comm : ∀ left ∈ lefts, ∀ right, left.type.sameWith f right = right.sameWith g left.type) :
    sameFieldsWith f lefts rights = sameFieldsWith g rights lefts := by
  induction lefts generalizing rights with
  | nil => cases rights <;> rfl
  | cons left lefts ih =>
    cases rights with
    | nil => rfl
    | cons right rights =>
      obtain ⟨head_comm, tail_comm⟩ := List.forall_mem_cons.mp comm
      simp only [sameFieldsWith, head_comm right.type, ih tail_comm, BEq.comm]

/-- Comparing two types the other way around gives the same answer. -/
theorem sameWith_comm (comm : ∀ left right, f left right = g right left) (left right : Ty) :
    left.sameWith f right = right.sameWith g left := by
  induction left using Ty.induction generalizing right with
  | prim | sort => cases right <;> simp only [sameWith, BEq.comm]
  | list _ ih | set _ ih | reified _ ih => cases right <;> simp only [sameWith, ih]
  | map _ _ ih_key ih_value => cases right <;> simp only [sameWith, ih_key, ih_value]
  | tuple _ ih =>
    cases right <;> simp only [sameWith]
    exact sameFieldsWith_comm ih
  | func _ _ ih ih_arguments =>
    cases right <;> simp only [sameWith]
    rw [ih, sameFieldsWith_comm ih_arguments]
  | parameter _ _ ih => cases right <;> simp only [sameWith, ih, BEq.comm]
  | dataRef _ _ _ ih =>
    cases right <;> simp only [sameWith]
    rw [sameAllWith_comm ih, BEq.comm]
    exact if_congr eq_comm rfl rfl
  | aliasRef _ _ _ ih =>
    cases right <;> simp only [sameWith]
    rw [sameAllWith_comm ih, comm, BEq.comm]
    exact if_congr eq_comm rfl rfl
  | constructor _ _ _ _ _ _ _ ih ih_fields =>
    cases right <;> simp only [sameWith]
    rw [sameAllWith_comm ih, sameFieldsWith_comm ih_fields]
    refine if_congr eq_comm rfl (congrArg₂ _ ?_ ?_)
    · exact if_congr eq_comm rfl (by rw [BEq.comm])
    · rw [BEq.comm]

theorem sameAllWith_mono {P : AliasRef Ty → Prop} {lefts rights : List Ty} {answer : Bool}
    (le : ∀ left ∈ lefts, ∀ right answer, right.AllAliases P →
      left.sameWith f right = some answer → left.sameWith g right = some answer)
    (all : ∀ right ∈ rights, right.AllAliases P)
    (found : sameAllWith f lefts rights = some answer) :
    sameAllWith g lefts rights = some answer := by
  induction lefts generalizing rights answer with
  | nil => cases rights <;> simpa [sameAllWith] using found
  | cons left lefts ih =>
    cases rights with
    | nil => simpa [sameAllWith] using found
    | cons right rights =>
      obtain ⟨head_le, tail_le⟩ := List.forall_mem_cons.mp le
      obtain ⟨head_all, tail_all⟩ := List.forall_mem_cons.mp all
      exact andThenSame_eq_some found (fun _ => id) fun _ found =>
        andThenSame_eq_some found (fun _ => head_le right _ head_all) fun _ found =>
          ih tail_le tail_all found

theorem sameFieldsWith_mono {P : AliasRef Ty → Prop} {lefts rights : List (Field Ty)} {answer : Bool}
    (le : ∀ left ∈ lefts, ∀ right answer, right.AllAliases P →
      left.type.sameWith f right = some answer → left.type.sameWith g right = some answer)
    (all : ∀ right ∈ rights, right.type.AllAliases P)
    (found : sameFieldsWith f lefts rights = some answer) :
    sameFieldsWith g lefts rights = some answer := by
  induction lefts generalizing rights answer with
  | nil => cases rights <;> simpa [sameFieldsWith] using found
  | cons left lefts ih =>
    cases rights with
    | nil => simpa [sameFieldsWith] using found
    | cons right rights =>
      obtain ⟨head_le, tail_le⟩ := List.forall_mem_cons.mp le
      obtain ⟨head_all, tail_all⟩ := List.forall_mem_cons.mp all
      exact andThenSame_eq_some found (fun _ => id) fun _ found =>
        andThenSame_eq_some found (fun _ => id) fun _ found =>
          andThenSame_eq_some found (fun _ => head_le right.type _ head_all) fun _ found =>
            ih tail_le tail_all found

/-- An answer stays the same if more bodies of the aliases in the types can be compared. -/
theorem sameWith_mono {P : AliasRef Ty → Prop}
    (le : ∀ left right answer, P left → P right → f left right = some answer →
      g left right = some answer) {left right : Ty} {answer : Bool} (all : left.AllAliases P)
    (all' : right.AllAliases P) (found : left.sameWith f right = some answer) :
    left.sameWith g right = some answer := by
  induction left using Ty.induction generalizing right answer with
  | prim | sort => cases right <;> simpa [sameWith] using found
  | list _ ih | set _ ih | reified _ ih =>
    cases right <;> simp only [sameWith] at found ⊢ <;> first | exact ih all all' found | exact found
  | map key value ih_key ih_value =>
    cases right <;> simp only [sameWith] at found ⊢ <;> try exact found
    rw [allAliases_map] at all all'
    exact andThenSame_eq_some found (fun _ => ih_key all.1 all'.1) fun _ => ih_value all.2 all'.2
  | tuple fields ih =>
    cases right <;> simp only [sameWith] at found ⊢ <;> try exact found
    rw [allAliases_tuple] at all all'
    exact sameFieldsWith_mono (fun field mem _ _ => ih field mem (all field mem)) all' found
  | func result arguments ih ih_arguments =>
    cases right <;> simp only [sameWith] at found ⊢ <;> try exact found
    rw [allAliases_func] at all all'
    exact andThenSame_eq_some found (fun _ => ih all.1 all'.1) fun _ => sameFieldsWith_mono
      (fun field mem _ _ => ih_arguments field mem (all.2 field mem)) all'.2
  | parameter name bound ih =>
    cases right <;> simp only [sameWith] at found ⊢ <;> try exact found
    exact andThenSame_eq_some found (fun _ => id) fun _ => ih all all'
  | dataRef object name parameters ih =>
    cases right <;> simp only [sameWith] at found ⊢ <;> try exact found
    rw [allAliases_dataRef] at all all'
    split at found
    · next same => simpa [same] using found
    · next other =>
      rw [if_neg other]
      exact andThenSame_eq_some found (fun _ => id) fun _ =>
        sameAllWith_mono (fun type mem _ _ => ih type mem (all type mem)) all'
  | aliasRef object name parameters ih =>
    cases right <;> simp only [sameWith] at found ⊢ <;> try exact found
    rw [allAliases_aliasRef] at all all'
    split at found
    · next same => simpa [same] using found
    · next other =>
      rw [if_neg other]
      exact andThenSame_eq_some found (fun _ => id) fun _ found =>
        andThenSame_eq_some found
          (fun _ => sameAllWith_mono (fun type mem _ _ => ih type mem (all.2 type mem)) all'.2)
          fun _ => le _ _ _ all.1 all'.1
  | constructor object owner ownerName parameters name fields attributes ih ih_fields =>
    cases right <;> simp only [sameWith] at found ⊢ <;> try exact found
    rw [allAliases_constructor] at all all'
    split at found
    · next same => simpa [same] using found
    · next other =>
      rw [if_neg other]
      refine andThenSame_eq_some found (fun _ found => ?_) fun _ found =>
        andThenSame_eq_some found (fun _ => id) fun _ => sameFieldsWith_mono
          (fun field mem _ _ => ih_fields field mem (all.2 field mem)) all'.2
      split at found
      · next same => simpa [same] using found
      · next other =>
        rw [if_neg other]
        exact andThenSame_eq_some found (fun _ => id) fun _ =>
          sameAllWith_mono (fun type mem _ _ => ih type mem (all.1 type mem)) all'.1

end Ty

namespace Store

variable {store : Store}

theorem sameBody_mono {same same' : Ty → Ty → Option Bool}
    (le : ∀ left right answer, same left right = some answer → same' left right = some answer)
    (left right : AliasRef Ty) (answer : Bool)
    (found : store.sameBody same left right = some answer) :
    store.sameBody same' left right = some answer := by
  simp only [sameBody] at found ⊢
  split at found
  · exact le _ _ _ found
  · exact found
  · exact found

theorem sameWithin_succ {depth : Nat} {left right : Ty} {answer : Bool}
    (found : store.sameWithin depth left right = some answer) :
    store.sameWithin (depth + 1) left right = some answer := by
  induction depth generalizing left right answer with
  | zero =>
    exact Ty.sameWith_mono (fun _ _ _ _ _ found => absurd found (by simp)) left.allAliases_true
      right.allAliases_true found
  | succ depth ih =>
    exact Ty.sameWith_mono (fun _ _ _ _ _ => sameBody_mono (fun _ _ _ => ih) _ _ _)
      left.allAliases_true right.allAliases_true found

theorem sameWithin_mono {depth deeper : Nat} (le : depth ≤ deeper) {left right : Ty}
    {answer : Bool} (found : store.sameWithin depth left right = some answer) :
    store.sameWithin deeper left right = some answer := by
  induction le with
  | refl => exact found
  | step _ ih => exact sameWithin_succ ih

/-- The pairs of slots which are compared with bodies nested up to some depth. -/
def decided (store : Store) (depth : Nat) : Finset (Nat × Nat) :=
  (Finset.range store.slots.size ×ˢ Finset.range store.slots.size).filter fun pair =>
    (store.sameBody (store.sameWithin depth) ⟨pair.1, "", []⟩ ⟨pair.2, "", []⟩).isSome

theorem lt_size_of_body? {reference : AliasRef Ty} {body : Ty}
    (body_eq : store.body? reference = some body) : reference.object < store.slots.size := by
  by_contra outside
  simp [body?, Array.getElem?_eq_none (Nat.le_of_not_lt outside)] at body_eq

/-- If no further pair is decided at one depth, none is at any greater depth. -/
theorem sameBody_stable {depth : Nat} (stable : store.decided depth = store.decided (depth + 1)) :
    store.sameBody (store.sameWithin depth) = store.sameBody (store.sameWithin (depth + 1)) := by
  funext left right
  have mono (left right : AliasRef Ty) (answer : Bool)
      (found : store.sameBody (store.sameWithin depth) left right = some answer) :
      store.sameBody (store.sameWithin (depth + 1)) left right = some answer :=
    sameBody_mono (fun _ _ _ => sameWithin_succ) left right answer found
  cases deeper : store.sameBody (store.sameWithin (depth + 1)) left right with
  | none =>
    cases shallow : store.sameBody (store.sameWithin depth) left right with
    | none => rfl
    | some answer => rw [mono left right answer shallow] at deeper; exact deeper
  | some answer =>
    by_cases filled : ∃ leftBody rightBody,
        store.body? left = some leftBody ∧ store.body? right = some rightBody
    · obtain ⟨_, _, left_eq, right_eq⟩ := filled
      have mem : (left.object, right.object) ∈ store.decided (depth + 1) := by
        refine Finset.mem_filter.mpr ⟨?_, Option.isSome_iff_exists.mpr ⟨answer, deeper⟩⟩
        exact Finset.mk_mem_product (Finset.mem_range.mpr (lt_size_of_body? left_eq))
          (Finset.mem_range.mpr (lt_size_of_body? right_eq))
      rw [← stable] at mem
      obtain ⟨other, shallow⟩ := Option.isSome_iff_exists.mp (Finset.mem_filter.mp mem).2
      have shallow : store.sameBody (store.sameWithin depth) left right = some other := shallow
      rw [shallow, ← deeper, mono left right other shallow]
    · rw [← deeper]
      simp only [sameBody]
      split
      · next left_eq right_eq => exact absurd ⟨_, _, left_eq, right_eq⟩ filled
      · rfl
      · rfl

/-- Deeper comparisons than those which are made find no more answers. -/
theorem sameWithin_constant (more : Nat) :
    store.sameWithin (store.pairCount + 1 + more) = store.sameWithin (store.pairCount + 1) := by
  obtain ⟨bound, bound_le, stable⟩ := exists_eq_succ_of_growing store.decided
    (Finset.range store.slots.size ×ˢ Finset.range store.slots.size)
    (fun depth pair mem => by
      obtain ⟨inside, decided⟩ := Finset.mem_filter.mp mem
      obtain ⟨answer, found⟩ := Option.isSome_iff_exists.mp decided
      refine Finset.mem_filter.mpr ⟨inside, Option.isSome_iff_exists.mpr ⟨answer, ?_⟩⟩
      exact sameBody_mono (fun _ _ _ => sameWithin_succ) _ _ _ found)
    (fun depth => Finset.filter_subset _ _)
  have constant : ∀ more, store.sameWithin (bound + 1 + more) = store.sameWithin (bound + 1) := by
    intro more
    induction more with
    | zero => rfl
    | succ more ih =>
      rw [← Nat.add_assoc, sameWithin, ih, ← sameBody_stable stable]
      rfl
  have bound_le : bound ≤ store.pairCount := by simpa [Finset.card_product, pairCount] using bound_le
  obtain ⟨rest, pairs_eq⟩ := Nat.exists_eq_add_of_le bound_le
  rw [pairs_eq, show bound + rest + 1 + more = bound + 1 + (rest + more) by omega, constant,
    show bound + rest + 1 = bound + 1 + rest by omega, constant]

/-- An answer is found within the depth to which types are compared, or not at all. -/
theorem same_of_sameWithin {depth : Nat} {left right : Ty} {answer : Bool}
    (found : store.sameWithin depth left right = some answer) :
    store.same left right = some answer := by
  have deeper := sameWithin_mono (Nat.le_add_left depth (store.pairCount + 1)) found
  rwa [sameWithin_constant] at deeper

/-- Comparing two aliases goes on with their bodies. -/
theorem same_eq (left right : Ty) :
    store.same left right = left.sameWith (store.sameBody store.same) right :=
  (congrFun (congrFun (sameWithin_constant 1) left) right).symm

theorem sameBody_comm {same : Ty → Ty → Option Bool}
    (comm : ∀ left right, same left right = same right left) (left right : AliasRef Ty) :
    store.sameBody same left right = store.sameBody same right left := by
  simp only [sameBody]
  rcases store.body? left with _ | leftBody <;> rcases store.body? right with _ | rightBody
  · rfl
  · rfl
  · rfl
  · exact comm leftBody rightBody

theorem sameWithin_comm (depth : Nat) (left right : Ty) :
    store.sameWithin depth left right = store.sameWithin depth right left := by
  induction depth generalizing left right with
  | zero => exact Ty.sameWith_comm (fun _ _ => rfl) left right
  | succ depth ih => exact Ty.sameWith_comm (sameBody_comm ih) left right

theorem same_comm (left right : Ty) : store.same left right = store.same right left :=
  sameWithin_comm _ left right

theorem same_symm {left right : Ty} (equal : store.same left right = some true) :
    store.same right left = some true := same_comm left right ▸ equal

@[simp]
theorem same_self (type : Ty) : store.same type type = some true := Ty.sameWith_self type

/-- Lists of types compare as lists of fields without labels do. -/
theorem sameAll_eq (lefts rights : List Ty) : store.sameAll lefts rights =
    store.sameFields (lefts.map (⟨none, ·⟩)) (rights.map (⟨none, ·⟩)) := by
  unfold sameAll sameFields
  induction lefts generalizing rights with
  | nil => cases rights <;> rfl
  | cons left lefts ih =>
    cases rights with
    | nil => rfl
    | cons right rights =>
      simp only [Ty.sameAllWith, Ty.sameFieldsWith, List.map_cons, List.length_map, ih rights]
      rfl

end Store

end Reification
