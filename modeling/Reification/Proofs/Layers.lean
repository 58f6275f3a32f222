import Reification.Proofs.Heap
import Reification.Proofs.Undeclared

/-!
# Registries with the same content

Which layer of a registry an entry is kept in matters only for the order in which the constructors
of a data type are read.  Registries which agree about the declared types, the rules and, up to
order, the constructors give the same value when a type is reified, unless a name is reached in two
uses: then it would depend on the order which of them is met first.
-/

namespace Reification

namespace Registry

/-- Whether two registries tell the same about every name, up to the order of constructors. -/
structure Agrees (store : Store) (left right : Registry) : Prop where
  lookup?_eq : ∀ name, left.lookup? name = right.lookup? name
  constructorsOf_perm : ∀ name, ∃ lefts rights, left.constructorsOf store name = some lefts ∧
    right.constructorsOf store name = some rights ∧ lefts.Perm rights
  rulesOf_eq : ∀ name, left.rulesOf name = right.rulesOf name

theorem Agrees.symm {store : Store} {left right : Registry} (agrees : left.Agrees store right) :
    right.Agrees store left where
  lookup?_eq name := (agrees.lookup?_eq name).symm
  constructorsOf_perm name := by
    obtain ⟨lefts, rights, left_eq, right_eq, perm⟩ := agrees.constructorsOf_perm name
    exact ⟨rights, lefts, right_eq, left_eq, perm.symm⟩
  rulesOf_eq name := (agrees.rulesOf_eq name).symm

theorem Agrees.lookupData?_eq {store : Store} {left right : Registry}
    (agrees : left.Agrees store right) (name : String) :
    left.lookupData? name = right.lookupData? name := by
  rw [lookupData?, lookupData?, agrees.lookup?_eq]

theorem Agrees.lookupAlias?_eq {store : Store} {left right : Registry}
    (agrees : left.Agrees store right) (name : String) :
    left.lookupAlias? name = right.lookupAlias? name := by
  rw [lookupAlias?, lookupAlias?, agrees.lookup?_eq]

end Registry

/-- Whether a store tells two constructors apart. -/
def Store.TellsApart (store : Store) (left right : Constructor Ty) : Prop :=
  store.sameConstructor left right = some false

instance (store : Store) (left right : Constructor Ty) : Decidable (store.TellsApart left right) :=
  inferInstanceAs (Decidable (_ = _))

theorem Store.TellsApart.symm {store : Store} {left right : Constructor Ty}
    (apart : store.TellsApart left right) : store.TellsApart right left :=
  (store.same_comm _ _).trans apart

instance (store : Store) : Std.Symm store.TellsApart := ⟨fun _ _ => .symm⟩

namespace Registry

section Known

variable {store : Store} {known : List (Constructor Ty)} {constructor : Constructor Ty}

theorem isKnown_eq_false_iff : isKnown store known constructor = some false ↔
    ∀ other ∈ known, store.TellsApart other constructor := by
  induction known with
  | nil => simp [isKnown]
  | cons first known ih =>
    rw [List.forall_mem_cons, ← ih]
    rcases answer_eq : store.sameConstructor first constructor with _ | _ | _ <;>
      simp [isKnown, Store.TellsApart, answer_eq]

/-- If a constructor equals one of some others only if it can be compared with all of them, it does
not matter in which order they are. -/
theorem isKnown_eq_true_iff (ends : ∀ other ∈ known,
      store.sameConstructor other constructor = some true →
        ∀ another ∈ known, store.sameConstructor another constructor ≠ none) :
    isKnown store known constructor = some true ↔
      ∃ other ∈ known, store.sameConstructor other constructor = some true := by
  induction known with
  | nil => simp [isKnown]
  | cons first known ih =>
    have rest_iff := ih fun other mem equal another another_mem =>
      ends other (List.mem_cons_of_mem _ mem) equal another (List.mem_cons_of_mem _ another_mem)
    rcases answer_eq : store.sameConstructor first constructor with _ | _ | _
    · have none_equal : ¬∃ other ∈ known, store.sameConstructor other constructor = some true := by
        rintro ⟨other, mem, equal⟩
        exact ends other (List.mem_cons_of_mem _ mem) equal first (List.mem_cons_self ..) answer_eq
      simp [isKnown, answer_eq, none_equal]
    · simpa [isKnown, answer_eq] using rest_iff
    · simp [isKnown, answer_eq]

/-- Constructors which can be told apart from all known ones and from each other are all added. -/
theorem foldlM_addUnknown_of_pairwise {others : List (Constructor Ty)}
    (apart : (known ++ others).Pairwise store.TellsApart) :
    others.foldlM (addUnknown store) known = some (known ++ others) := by
  induction others generalizing known with
  | nil => simp
  | cons first others ih =>
    have first_unknown : isKnown store known first = some false :=
      isKnown_eq_false_iff.mpr fun other mem =>
        (List.pairwise_append.mp apart).2.2 other mem first (List.mem_cons_self ..)
    have added_eq : addUnknown store known first = some (known ++ [first]) := by
      simp [addUnknown, first_unknown]
    rw [List.append_cons] at apart ⊢
    simpa [added_eq] using ih apart

/-- If the constructors of a name in all layers can be told apart, reading them drops none. -/
theorem constructorsOf_of_pairwise {registry : Registry} {name : String}
    (apart : (registry.layers.flatMap (·.constructorsOf name)).Pairwise store.TellsApart) :
    registry.constructorsOf store name =
      some (registry.layers.flatMap (·.constructorsOf name)) :=
  foldlM_addUnknown_of_pairwise apart

end Known

end Registry

/-- Whether a constructor is known does not depend on the order of the known ones if these can be
told apart. -/
theorem Heap.isKnown_congr {heap : Heap} {known others : List (Constructor Ty)}
    {constructor : Constructor Ty} (perm : known.Perm others)
    (apart : known.Pairwise heap.store.TellsApart)
    (all_known : ∀ other ∈ known, heap.Known (.constructor other))
    (constructor_known : heap.Known (.constructor constructor)) :
    Registry.isKnown heap.store known constructor =
      Registry.isKnown heap.store others constructor := by
  have ends (other : Constructor Ty) (mem : other ∈ known)
      (equal : heap.store.sameConstructor other constructor = some true)
      (another : Constructor Ty) (another_mem : another ∈ known) :
      heap.store.sameConstructor another constructor ≠ none := by
    by_cases same : another = other
    · simp [same, equal]
    · have others_apart : heap.store.TellsApart other another :=
        apart.forall mem another_mem (Ne.symm same)
      have constructor_apart : heap.store.TellsApart constructor another :=
        Heap.same_congr ((holds_constructor _).mpr constructor_known)
          ((holds_constructor _).mpr (all_known other mem))
          ((holds_constructor _).mpr (all_known another another_mem)) (Store.same_symm equal)
          others_apart
      rw [constructor_apart.symm]
      exact nofun
  refine Option.ext fun answer => ?_
  cases answer with
  | false => simp only [Registry.isKnown_eq_false_iff, perm.mem_iff]
  | true =>
    rw [Registry.isKnown_eq_true_iff ends, Registry.isKnown_eq_true_iff]
    · simp only [perm.mem_iff]
    · simpa only [perm.mem_iff] using ends

namespace Reify

variable {store : Store} {left right : Registry} {grammar : Definitions} {type part : Ty}
  {mention : Mention} {reified : Reified}

section Agrees

variable (agrees : left.Agrees store right)

include agrees

theorem mem_expansionOf_of_agrees
    (mem : part ∈ Context.expansionOf ⟨store, left, grammar⟩ mention) :
    part ∈ Context.expansionOf ⟨store, right, grammar⟩ mention := by
  cases mention with
  | dataRef name =>
    obtain ⟨lefts, rights, left_eq, right_eq, perm⟩ := agrees.constructorsOf_perm name
    simp only [Context.expansionOf, agrees.lookupData?_eq, left_eq, right_eq,
      Option.getD_some] at mem ⊢
    split at mem
    · next declared _ =>
      exact (List.Perm.append_left _ (perm.flatMap_right _)).subset mem
    · cases mem
  | aliasRef name => simpa only [Context.expansionOf, agrees.lookupAlias?_eq] using mem
  | sort => cases mem

/-- The same names are reached in registries which agree. -/
theorem Context.Reached.of_agrees (reached : Context.Reached ⟨store, left, grammar⟩ type mention) :
    Context.Reached ⟨store, right, grammar⟩ type mention := by
  induction reached with
  | named mem => exact .named mem
  | expanded _ part_mem mem ih => exact ih.expanded (mem_expansionOf_of_agrees agrees part_mem) mem

theorem Context.Unambiguous.of_agrees
    (unambiguous : Context.Unambiguous ⟨store, left, grammar⟩ type) :
    Context.Unambiguous ⟨store, right, grammar⟩ type := fun _ _ reached other_reached =>
  unambiguous (reached.of_agrees agrees.symm) (other_reached.of_agrees agrees.symm)

/-- A name is recorded as the same choice in registries which agree. -/
theorem exists_entryOf?_of_agrees {entry : Entry}
    (entry_eq : Context.entryOf? ⟨store, left, grammar⟩ mention = some entry) :
    ∃ other, Context.entryOf? ⟨store, right, grammar⟩ mention = some other ∧
      other.choice = entry.choice := by
  cases mention with
  | dataRef name =>
    obtain ⟨lefts, rights, left_eq, right_eq, perm⟩ := agrees.constructorsOf_perm name
    obtain ⟨declared, declared_eq, rest⟩ := Option.bind_eq_some_iff.mp entry_eq
    simp only [left_eq] at rest
    obtain rfl := Option.some.inj rest
    refine ⟨_, Context.entryOf?_dataRef ((agrees.lookupData?_eq name).symm.trans declared_eq)
      right_eq, ?_⟩
    simp only [Entry.choice, Choice.mk.injEq, true_and]
    exact OrderedSet.ext fun production => by
      simp only [OrderedSet.mem_ofList, (perm.map _).mem_iff]
  | aliasRef name =>
    simp only [Context.entryOf?, agrees.lookupAlias?_eq] at entry_eq
    exact ⟨entry, entry_eq, rfl⟩
  | sort name =>
    simp only [Context.entryOf?, rulesOf, agrees.rulesOf_eq] at entry_eq
    exact ⟨entry, entry_eq, rfl⟩

/-- A type which is reified with a registry is reified with another one which agrees with it, to the
same value. -/
theorem reify_of_agrees (unambiguous : Context.Unambiguous ⟨store, left, grammar⟩ type)
    (reify_eq : type.reify ⟨store, left, grammar⟩ = .ok reified) :
    type.reify ⟨store, right, grammar⟩ = .ok reified := by
  obtain ⟨symbol_eq, found, others⟩ := get?_of_reify reify_eq unambiguous
  have entries (mention : Mention)
      (reached : Context.Reached ⟨store, right, grammar⟩ type mention) :
      Context.entryOf? ⟨store, right, grammar⟩ mention ≠ none := by
    obtain ⟨entry, entry_eq, -⟩ := found (reached.of_agrees agrees.symm)
    obtain ⟨other, other_eq, -⟩ := exists_entryOf?_of_agrees agrees entry_eq
    rw [other_eq]
    exact nofun
  obtain ⟨again, again_eq⟩ := exists_reify_of_entries entries
  obtain ⟨again_symbol_eq, again_found, again_others⟩ :=
    get?_of_reify again_eq (unambiguous.of_agrees agrees)
  have get?_eq (name : String) : again.definitions.get? name = reified.definitions.get? name := by
    by_cases reached : ∃ mention,
        Context.Reached ⟨store, left, grammar⟩ type mention ∧ mention.name = name
    · obtain ⟨mention, reached, rfl⟩ := reached
      obtain ⟨entry, entry_eq, get?_eq⟩ := found reached
      obtain ⟨other, other_eq, choice_eq⟩ := exists_entryOf?_of_agrees agrees entry_eq
      obtain ⟨same, same_eq, again_get?_eq⟩ := again_found (reached.of_agrees agrees)
      obtain rfl := Option.some.inj (other_eq.symm.trans same_eq)
      rw [again_get?_eq, get?_eq, choice_eq]
    · rw [others fun mention mention_reached name_eq => reached ⟨mention, mention_reached, name_eq⟩,
        again_others fun mention mention_reached name_eq =>
          reached ⟨mention, mention_reached.of_agrees agrees.symm, name_eq⟩]
  have same : again = reified := by
    obtain ⟨symbol, definitions⟩ := again
    obtain ⟨otherSymbol, otherDefinitions⟩ := reified
    obtain rfl : symbol = otherSymbol := again_symbol_eq.trans symbol_eq.symm
    obtain rfl : definitions = otherDefinitions := Table.ext get?_eq
    rfl
  rw [again_eq, same]

/-- Reifying a type which reaches no name in two uses succeeds alike in registries which agree, and
gives the same value. -/
theorem reify_iff_of_agrees (unambiguous : Context.Unambiguous ⟨store, left, grammar⟩ type) :
    type.reify ⟨store, left, grammar⟩ = .ok reified ↔
      type.reify ⟨store, right, grammar⟩ = .ok reified :=
  ⟨reify_of_agrees agrees unambiguous,
    reify_of_agrees agrees.symm (unambiguous.of_agrees agrees)⟩

end Agrees

end Reify

end Reification
