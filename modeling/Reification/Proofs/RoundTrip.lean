import Reification.Proofs.Leaves
import Reification.Proofs.Rebuilt

/-!
# Round trips

A described type is reified, and its value is reconstructed into a fresh registry.  If no alias
unfolds to itself, the result equals the type, and its data types have the constructors which they
had.  Aliases without parameters are compared along the order in which they unfold.
-/

namespace Reification.Reify

namespace Context

variable {context : Context} {heap : Heap} {type part : Ty} {reified : Reified}
  {name other leaf : String}

/-- Whether the body of an alias mentions another alias. -/
def Unfolds (context : Context) (name other : String) : Prop :=
  ∃ declared body, context.registry.lookupAlias? name = some declared ∧
    context.store.body? declared = some body ∧ .aliasRef other ∈ body.symbol.mentions

/-- Whether no alias which is reached unfolds to itself. -/
def Grounded (context : Context) (type : Ty) : Prop :=
  ∀ ⦃name⦄, context.Reaches type (.aliasRef name) → ¬Relation.TransGen context.Unfolds name name

/-- Whether a data type has the same constructors in a world, of which equal ones have the same
attributes. -/
def SameConstructors (context : Context) (after : World) (name : String) : Prop :=
  ∃ originals agains, context.registry.constructorsOf context.store name = some originals ∧
    after.registry.constructorsOf after.store name = some agains ∧
    (∀ original ∈ originals, ∃ again ∈ agains,
      after.store.sameConstructor original again = some true ∧
        original.attributes = again.attributes) ∧
    ∀ again ∈ agains, ∃ original ∈ originals,
      after.store.sameConstructor original again = some true ∧
        original.attributes = again.attributes

theorem Unfolds.uses (unfolds : context.Unfolds name other) :
    context.Uses (.aliasRef name) (.aliasRef other) := by
  obtain ⟨declared, body, declared_eq, body_eq, mem⟩ := unfolds
  exact ⟨body, (mem_partsOf_alias declared_eq).mpr (.inr body_eq), mem⟩

theorem Reaches.unfolds (reaches : context.Reaches type (.aliasRef name))
    (path : Relation.TransGen context.Unfolds name other) :
    context.Reaches type (.aliasRef other) := by
  induction path with
  | single unfolds => exact reaches.uses unfolds.uses
  | tail _ unfolds ih => exact ih.uses unfolds.uses

theorem not_mem_leaves_plainTrees {types : List Ty} {tree : Tree} (mem : tree ∈ Ty.plainTrees types) :
    leaf ∉ tree.leaves := by
  intro leaf_mem
  obtain ⟨type, -, rfl⟩ := List.mem_map.mp mem
  obtain ⟨_, _, -, none_eq, -⟩ := Symbol.exists_of_mem_leaves leaf_mem
  cases none_eq

namespace Describes

/-- The leaves of what a type shows are aliases in it, or those in their bodies. -/
theorem exists_alias_of_mem_leaves (describes : context.Describes heap type)
    (within : context.Within type part)
    (mem : leaf ∈ (part.symbol.tree (context.meaning (context.declaredBody heap))).leaves) :
    ∃ other, .aliasRef other ∈ part.symbol.mentions ∧
      (leaf = other ∨ leaf ∈ (context.declaredBody heap other).leaves) := by
  obtain ⟨other, tree, ⟨mention, mention_mem, mention_eq⟩, meaning_eq, mem⟩ :=
    Symbol.exists_of_mem_leaves mem
  have reaches := within.reaches mention_mem
  have no_leaf {types : List Ty} : leaf ∉ Tree.leavesOfAll (Ty.plainTrees types) := by
    rw [Tree.leavesOfAll_eq, List.mem_flatMap]
    rintro ⟨formal, formal_mem, mem⟩
    exact not_mem_leaves_plainTrees formal_mem mem
  cases mention with
  | dataRef name =>
    obtain rfl := Option.some.inj mention_eq
    obtain ⟨declared, declared_eq, -⟩ := describes.data reaches
    rw [meaning_of_data declared_eq] at meaning_eq
    split at meaning_eq
    · cases meaning_eq
    · obtain rfl := Option.some.inj meaning_eq
      exact absurd mem no_leaf
  | aliasRef name =>
    obtain rfl := Option.some.inj mention_eq
    obtain ⟨declared, body, declared_eq, -⟩ := describes.alias_ reaches
    rw [meaning_of_alias declared_eq] at meaning_eq
    obtain rfl := Option.some.inj meaning_eq
    have body_mem := (List.mem_append.mp mem).resolve_left no_leaf
    refine ⟨name, mention_mem, ?_⟩
    split at body_mem
    · exact .inl (List.mem_singleton.mp body_mem)
    · exact .inr body_mem
  | sort name => cases mention_eq

/-- The leaves of the body of an alias are met when the alias is unfolded. -/
theorem unfolds_of_mem_leaves (describes : context.Describes heap type)
    (grounded : context.Grounded type) (reaches : context.Reaches type (.aliasRef name))
    (mem : leaf ∈ (context.declaredBody heap name).leaves) :
    Relation.TransGen context.Unfolds name leaf := by
  let leads (one other : String) : Prop :=
    context.Reaches type (.aliasRef one) ∧ context.Unfolds one other
  have bounded {one other : String} (related : leads one other) : other ∈ context.names := by
    obtain ⟨declared, _, declared_eq, -⟩ := describes.alias_ (related.1.uses related.2.uses)
    exact mem_names (Registry.lookupAlias?_eq_some_iff.mp declared_eq)
  have acyclic (one : String) : ¬Relation.TransGen leads one one := fun cycle => by
    obtain ⟨_, ⟨reaches, -⟩, -⟩ := Relation.TransGen.head'_iff.mp cycle
    exact grounded reaches (cycle.lift id fun _ _ related => related.2)
  refine induction_of_acyclic (P := fun name => context.Reaches type (.aliasRef name) →
    leaf ∈ (context.declaredBody heap name).leaves → Relation.TransGen context.Unfolds name leaf)
    context.names bounded acyclic (fun name ih reaches mem => ?_) name reaches mem
  obtain ⟨declared, body, declared_eq, -, -, -, body_eq⟩ := describes.alias_ reaches
  rw [describes.declaredBody_eq reaches declared_eq body_eq] at mem
  obtain ⟨other, other_mem, rfl | mem⟩ := describes.exists_alias_of_mem_leaves
    (.inr ⟨_, reaches, (mem_partsOf_alias declared_eq).mpr (.inr body_eq)⟩) mem
  · exact .single ⟨declared, body, declared_eq, body_eq, other_mem⟩
  · have unfolds : context.Unfolds name other := ⟨declared, body, declared_eq, body_eq, other_mem⟩
    exact .head unfolds (ih other ⟨reaches, unfolds⟩ (reaches.uses unfolds.uses) mem)

/-- The leaves of what is reached are reached as aliases. -/
theorem reaches_of_mem_leaves (describes : context.Describes heap type)
    (grounded : context.Grounded type) (within : context.Within type part)
    (mem : leaf ∈ (part.symbol.tree (context.meaning (context.declaredBody heap))).leaves) :
    context.Reaches type (.aliasRef leaf) := by
  obtain ⟨other, other_mem, rfl | mem⟩ := describes.exists_alias_of_mem_leaves within mem
  · exact within.reaches other_mem
  · exact (within.reaches other_mem).unfolds
      (describes.unfolds_of_mem_leaves grounded (within.reaches other_mem) mem)

end Describes

/-- The scope of a rebuilt type together with the original aliases, as far as their names are
allowed. -/
def merged (context : Context) (heap : Heap) (wider : Scope) (allowed : String → Prop) : Scope :=
  { wider with
    Leaf := fun reference =>
      allowed reference.name ∧ (wider.Leaf reference ∨ (context.scope heap).Leaf reference) }

/-- Whether a name is declared again as an alias which equals the original one, if it has no
parameters. -/
def Agree (context : Context) (after : World) (name : String) : Prop :=
  ∀ declared again, context.registry.lookupAlias? name = some declared →
    after.registry.lookupAlias? name = some again → declared.parameters = [] →
    again.parameters = [] →
    after.store.same (.aliasRef declared) (.aliasRef again) = some true

section Merged

variable {stage : Reconstruct.Stage} {after : World} {wider : Scope} {allowed : String → Prop}

theorem merged_of_rebuilt {type : Ty} {tree : Tree} (denotes : wider.Denotes type tree)
    (allowed_leaves : ∀ leaf ∈ tree.leaves, allowed leaf) :
    (context.merged heap wider allowed).Denotes type tree :=
  denotes.of_leaves id (fun _ => id) fun _ leaf mem => ⟨allowed_leaves _ mem, .inl leaf⟩

theorem merged_of_original (le : Scope.bare heap ≤ wider) {part : Ty} {tree : Tree}
    (denotes : (context.scope heap).Denotes part tree)
    (allowed_leaves : ∀ leaf ∈ tree.leaves, allowed leaf) :
    (context.merged heap wider allowed).Denotes part tree :=
  denotes.of_leaves le.known le.body?_eq fun _ leaf mem => ⟨allowed_leaves _ mem, .inr leaf⟩

section Sound

variable (sound : stage.Sound after wider) (le : Scope.bare heap ≤ wider)
  (grows : heap.store.Grows after.store)

include sound le grows

/-- Aliases agree in the merged scope if those with allowed names are declared as equal ones. -/
theorem merged_leavesAgree (agree : ∀ name, allowed name → Agree context after name) :
    (context.merged heap wider allowed).LeavesAgree := by
  have store_eq : (context.merged heap wider allowed).store = after.store := sound.store_eq
  -- A leaf is the alias which has been declared again, or it equals the original one.
  have original {reference : AliasRef Ty} (leaf : (context.scope heap).Leaf reference)
      (none : reference.parameters = []) : ∃ declared,
        context.registry.lookupAlias? reference.name = some declared ∧
          declared.parameters = [] ∧ heap.Known (.aliasRef declared) ∧
          after.store.same (.aliasRef declared) (.aliasRef reference) = some true := by
    obtain ⟨known, declared, declared_eq, declared_known, same⟩ := leaf
    have declared_none : declared.parameters = [] := by
      simpa [none] using (Heap.same_aliasRef declared_known known same).2.1
    exact ⟨declared, declared_eq, declared_none, declared_known,
      (Heap.same_grows grows ((Heap.holds_aliasRef _).mpr declared_known)
        ((Heap.holds_aliasRef _).mpr known)).mpr same⟩
  have trans {left middle right : AliasRef Ty} (left_known : wider.Known (.aliasRef left))
      (middle_known : wider.Known (.aliasRef middle)) (right_known : wider.Known (.aliasRef right))
      (first : after.store.same (.aliasRef left) (.aliasRef middle) = some true)
      (second : after.store.same (.aliasRef middle) (.aliasRef right) = some true) :
      after.store.same (.aliasRef left) (.aliasRef right) = some true := by
    rw [← sound.store_eq] at first second ⊢
    exact Heap.same_trans ((Heap.holds_aliasRef _).mpr left_known)
      ((Heap.holds_aliasRef _).mpr middle_known) ((Heap.holds_aliasRef _).mpr right_known) first
      second
  have mixed {left right : AliasRef Ty} (left_known : wider.Known (.aliasRef left))
      (right_known : wider.Known (.aliasRef right)) (left_leaf : (context.scope heap).Leaf left)
      (right_leaf : wider.Leaf right) (left_allowed : allowed left.name)
      (left_none : left.parameters = []) (right_none : right.parameters = [])
      (name_eq : left.name = right.name) :
      after.store.same (.aliasRef left) (.aliasRef right) = some true := by
    obtain ⟨declared, declared_eq, declared_none, known, same⟩ := original left_leaf left_none
    have again_eq : after.registry.lookupAlias? left.name = some right := by
      rw [name_eq]
      exact Registry.lookupAlias?_eq_some_iff.mpr (sound.leaf_iff.mp right_leaf)
    exact trans left_known (le.known known) right_known (Store.same_symm same)
      (agree left.name left_allowed declared right declared_eq again_eq declared_none right_none)
  rintro left right left_known right_known ⟨left_allowed, left_leaf⟩ ⟨right_allowed, right_leaf⟩
    left_none right_none name_eq
  rw [store_eq]
  rcases left_leaf with left_leaf | left_leaf <;> rcases right_leaf with right_leaf | right_leaf
  · have left_eq := sound.leaf_iff.mp left_leaf
    rw [name_eq, sound.leaf_iff.mp right_leaf] at left_eq
    obtain rfl := Ty.aliasRef.inj (Option.some.inj left_eq)
    exact Store.same_self _
  · exact Store.same_symm (mixed right_known left_known right_leaf left_leaf right_allowed right_none
      left_none name_eq.symm)
  · exact mixed left_known right_known left_leaf right_leaf left_allowed left_none right_none name_eq
  · obtain ⟨declared, declared_eq, -, known, left_same⟩ := original left_leaf left_none
    obtain ⟨_, other_eq, -, -, right_same⟩ := original right_leaf right_none
    rw [name_eq] at declared_eq
    obtain rfl := Option.some.inj (declared_eq.symm.trans other_eq)
    exact trans left_known (le.known known) right_known (Store.same_symm left_same) right_same

/-- What shows the same originally and after a reconstruction is equal if its leaves agree. -/
theorem same_of_agree (agree : ∀ name, allowed name → Agree context after name)
    {original again : Ty} {tree : Tree} (denotes : (context.scope heap).Denotes original tree)
    (denotes' : wider.Denotes again tree) (allowed_leaves : ∀ leaf ∈ tree.leaves, allowed leaf) :
    after.store.same original again = some true := by
  have decides := (merged_of_original le denotes allowed_leaves).same_decides
    (merged_leavesAgree sound le grows agree) (merged_of_rebuilt denotes' allowed_leaves)
  have store_eq : (context.merged heap wider allowed).store = after.store := sound.store_eq
  exact store_eq ▸ decides.eq_true_iff.mpr rfl

/-- Two aliases of a name without parameters are equal if their bodies show the same and the leaves of
these agree. -/
theorem same_aliasRef_of_agree (agree : ∀ name, allowed name → Agree context after name)
    {declared again : AliasRef Ty} {body body' : Ty} {tree : Tree}
    (known : heap.Known (.aliasRef declared)) (name_eq : declared.name = again.name)
    (declared_none : declared.parameters = []) (again_none : again.parameters = [])
    (body_eq : heap.store.body? declared = some body)
    (body_eq' : after.store.body? again = some body')
    (denotes : (context.scope heap).Denotes body tree) (denotes' : wider.Denotes body' tree)
    (allowed_leaves : ∀ leaf ∈ tree.leaves, allowed leaf) :
    after.store.same (.aliasRef declared) (.aliasRef again) = some true := by
  have bodies_same := same_of_agree sound le grows agree denotes denotes' allowed_leaves
  have body_after : after.store.body? declared = some body := by
    rw [grows.body?_eq (heap.made known)]
    exact body_eq
  rw [Store.same_eq]
  refine Ty.aliasRef_sameWith_iff.mpr ⟨again, rfl, .inr ⟨name_eq, ?_, ?_⟩⟩
  · rw [declared_none, again_none]
    exact .nil
  · rw [Store.sameBody, body_after, body_eq']
    exact bodies_same

end Sound

end Merged

namespace Rebuilds

variable {rebuilt : Ty} {after : World} {wider : Scope} {allowed : String → Prop}

theorem heap_grows (rebuilds : context.Rebuilds heap type reified rebuilt after wider)
    (describes : context.Describes heap type) : heap.store.Grows after.store :=
  describes.store_eq ▸ rebuilds.grows

/-- Every alias without parameters is declared again as an equal one. -/
theorem agree (rebuilds : context.Rebuilds heap type reified rebuilt after wider)
    (describes : context.Describes heap type) (captures : context.Captures type reified)
    (grounded : context.Grounded type) (reaches : context.Reaches type (.aliasRef name)) :
    Agree context after name := by
  let leads (one other : String) : Prop :=
    context.Reaches type (.aliasRef one) ∧ Relation.TransGen context.Unfolds one other
  have bounded {one other : String} (related : leads one other) : other ∈ context.names := by
    obtain ⟨declared, _, declared_eq, -⟩ := describes.alias_ (related.1.unfolds related.2)
    exact mem_names (Registry.lookupAlias?_eq_some_iff.mp declared_eq)
  have acyclic (one : String) : ¬Relation.TransGen leads one one := fun cycle => by
    obtain ⟨_, ⟨reaches, -⟩, -⟩ := Relation.TransGen.head'_iff.mp cycle
    exact grounded reaches (cycle.lift' id fun _ _ related => related.2)
  refine induction_of_acyclic (P := fun name => context.Reaches type (.aliasRef name) →
    Agree context after name) context.names bounded acyclic (fun name ih reaches => ?_) name reaches
  intro declared again declared_eq again_eq declared_none again_none
  obtain ⟨_, body, other_eq, name_eq, known, -, body_eq⟩ := describes.alias_ reaches
  obtain rfl := Option.some.inj (declared_eq.symm.trans other_eq)
  obtain ⟨_, body', other_eq, again_name, again_known, body_eq', denotes, -⟩ :=
    rebuilds.exists_alias describes captures reaches declared_eq body_eq
  obtain rfl := Option.some.inj (again_eq.symm.trans other_eq)
  have body_denotes := describes.denotes
    (.inr ⟨_, reaches, (mem_partsOf_alias declared_eq).mpr (.inr body_eq)⟩)
  rw [← describes.declaredBody_eq reaches declared_eq body_eq] at body_denotes
  -- Both bodies show the same tree, whose leaves come earlier.
  exact same_aliasRef_of_agree rebuilds.sound rebuilds.le (rebuilds.heap_grows describes)
    (fun other path => ih other ⟨reaches, path⟩ (reaches.unfolds path)) known
    (name_eq.trans again_name.symm) declared_none again_none (describes.store_eq ▸ body_eq) body_eq'
    body_denotes denotes fun leaf mem => describes.unfolds_of_mem_leaves grounded reaches mem

/-- What shows the same in the original and in the rebuilt scope is equal. -/
theorem same_of_denotes (rebuilds : context.Rebuilds heap type reified rebuilt after wider)
    (describes : context.Describes heap type) (captures : context.Captures type reified)
    (grounded : context.Grounded type) {original again : Ty} {tree : Tree}
    (denotes : (context.scope heap).Denotes original tree) (denotes' : wider.Denotes again tree)
    (reached : ∀ leaf ∈ tree.leaves, context.Reaches type (.aliasRef leaf)) :
    after.store.same original again = some true :=
  same_of_agree rebuilds.sound rebuilds.le (rebuilds.heap_grows describes)
    (fun _ => rebuilds.agree describes captures grounded) denotes denotes' reached

/-- The rebuilt type equals the original one. -/
theorem same (rebuilds : context.Rebuilds heap type reified rebuilt after wider)
    (describes : context.Describes heap type) (captures : context.Captures type reified)
    (grounded : context.Grounded type) : after.store.same type rebuilt = some true :=
  rebuilds.same_of_denotes describes captures grounded (describes.denotes (.inl rfl))
    rebuilds.denotes fun _ mem => describes.reaches_of_mem_leaves grounded (.inl rfl) mem

/-- A constructor which has been declared again equals each original one with its production. -/
theorem sameConstructor (rebuilds : context.Rebuilds heap type reified rebuilt after wider)
    (describes : context.Describes heap type) (captures : context.Captures type reified)
    (grounded : context.Grounded type) (reaches : context.Reaches type (.dataRef name))
    {declared : DataRef Ty} {constructors : List (Constructor Ty)}
    (declared_eq : context.registry.lookupData? name = some declared)
    (constructors_eq : context.registry.constructorsOf context.store name = some constructors)
    {original again : Constructor Ty} (original_mem : original ∈ constructors)
    (again_mem : again ∈ after.registry.own.constructorsOf name)
    (production_eq : original.production (.dataRef name (Ty.symbols declared.parameters)) =
      again.production (.dataRef name (Ty.symbols declared.parameters))) :
    after.store.sameConstructor original again = some true ∧
      original.attributes = again.attributes := by
  obtain ⟨_, other_eq, le, -⟩ := describes.exists_constructors reaches
  obtain rfl := Option.some.inj (constructors_eq.symm.trans other_eq)
  obtain ⟨-, names_eq, symbols_eq, attributes_eq⟩ := Production.mk.inj production_eq
  obtain ⟨lookup_eq, known, production, production_mem, matches_, -⟩ :=
    rebuilds.sound.constructs again_mem
  obtain ⟨source, -, -, -, denote, source_symbols⟩ := captures.exists_original describes reaches
    declared_eq constructors_eq production_mem matches_
  have content_eq : (context.content heap source).2 = (context.content heap original).2 := by
    rw [content, content, ← source_symbols, symbols_eq]
  rw [content_eq] at denote
  obtain ⟨reference, reference_eq, owner_name, -, owner_denote⟩ := rebuilds.exists_data describes
    captures reaches declared_eq fun none =>
      OrderedSet.not_mem_of_first?_eq_none none _ production_mem
  obtain rfl : again.owner = reference := Ty.dataRef.inj (Option.some.inj
    (lookup_eq.symm.trans (Registry.lookupData?_eq_some_iff.mp reference_eq)))
  have again_denotes := Scope.Denotes.constructor known owner_denote denote
  rw [owner_name, ← Option.some.inj names_eq] at again_denotes
  refine ⟨rebuilds.same_of_denotes describes captures grounded
    (describes.constructor_denotes reaches declared_eq (le original_mem)) again_denotes
    fun leaf mem => ?_, attributes_eq⟩
  rcases List.mem_append.mp mem with mem | mem
  · rw [Tree.leavesOfAll_eq] at mem
    obtain ⟨formal, formal_mem, mem⟩ := List.mem_flatMap.mp mem
    exact absurd mem (not_mem_leaves_plainTrees formal_mem)
  · rw [content, Ty.fieldTrees_symbolsOfFields, Tree.leavesOfFields_eq, List.flatMap_map] at mem
    obtain ⟨field, field_mem, mem⟩ := List.mem_flatMap.mp mem
    exact describes.reaches_of_mem_leaves grounded (.inr ⟨_, reaches, (mem_partsOf_data
      declared_eq).mpr (.inr ⟨original, le original_mem, field, field_mem, rfl⟩)⟩) mem

/-- A data type has again the constructors which it had. -/
theorem sameConstructors (rebuilds : context.Rebuilds heap type reified rebuilt after wider)
    (describes : context.Describes heap type) (captures : context.Captures type reified)
    (grounded : context.Grounded type) (consistent : context.Consistent type)
    (reaches : context.Reaches type (.dataRef name)) : context.SameConstructors after name := by
  obtain ⟨declared, declared_eq, -⟩ := describes.data reaches
  obtain ⟨constructors, constructors_eq, -⟩ := describes.exists_constructors reaches
  have again_eq : after.registry.constructorsOf after.store name =
      some (after.registry.own.constructorsOf name) :=
    Registry.constructorsOf_of_inherited_eq rebuilds.sound.inherited_eq _ _
  refine ⟨constructors, _, constructors_eq, again_eq, fun original original_mem => ?_,
    fun again again_mem => ?_⟩
  · obtain ⟨again, again_mem, production_eq⟩ := List.mem_map.mp
      ((rebuilds.mem_production_iff describes captures reaches declared_eq constructors_eq
        consistent).mpr (List.mem_map_of_mem original_mem))
    exact ⟨again, again_mem, rebuilds.sameConstructor describes captures grounded reaches declared_eq
      constructors_eq original_mem again_mem production_eq.symm⟩
  · obtain ⟨original, original_mem, production_eq⟩ := List.mem_map.mp
      ((rebuilds.mem_production_iff describes captures reaches declared_eq constructors_eq
        consistent).mp (List.mem_map_of_mem again_mem))
    exact ⟨original, original_mem, rebuilds.sameConstructor describes captures grounded reaches
      declared_eq constructors_eq original_mem again_mem production_eq⟩

end Rebuilds

/-- Whether a type is reified and its value is reconstructed, into a fresh registry, to an equal type
whose data types have the same constructors. -/
def RoundTrips (context : Context) (type : Ty) : Prop :=
  ∃ reified, type.reify context = .ok reified ∧
    reified.reconstruct.Meets { store := context.store }
      (fun rebuilt after => after.store.same type rebuilt = some true ∧
        ∀ name, context.Reaches type (.dataRef name) → context.SameConstructors after name)
      fun _ _ => False

/-- A described type is reified, and its value is reconstructed into a fresh registry to an equal
type whose data types have the same constructors, attributes included, if no alias unfolds to itself
and equal constructors in the own layer of its registry have the same attributes. -/
theorem Describes.roundTrips (describes : context.Describes heap type)
    (grounded : context.Grounded type) (consistent : context.Consistent type) :
    context.RoundTrips type := by
  obtain ⟨reified, reify_eq, captures⟩ := describes.reify_eq
  refine ⟨reified, reify_eq, (describes.reconstruct_meets captures).mono ?_ fun _ _ => id⟩
  rintro rebuilt after ⟨wider, rebuilds⟩
  exact ⟨rebuilds.same describes captures grounded, fun _ =>
    rebuilds.sameConstructors describes captures grounded consistent⟩

end Context

namespace Listing

theorem grounded : context.Grounded listOfPairs := by
  intro name reaches cycle
  obtain data | alias_ := reaches_iff.mp reaches
  case inl => cases data
  cases alias_
  obtain ⟨_, unfolds, -⟩ := Relation.TransGen.head'_iff.mp cycle
  exact uses_pair _ unfolds.uses

theorem listOfPairs_roundTrips : context.Describes heap listOfPairs ∧
    context.Grounded listOfPairs ∧ context.Consistent listOfPairs ∧
    context.RoundTrips listOfPairs :=
  ⟨describes, grounded, consistent, describes.roundTrips grounded consistent⟩

end Listing

namespace Merging

theorem grounded : context.Grounded (.dataRef owner) := by
  intro name reaches cycle
  obtain data | alias_ := reaches_iff.mp reaches
  case inl => cases data
  cases alias_
  obtain ⟨_, unfolds, -⟩ := Relation.TransGen.head'_iff.mp cycle
  exact uses_alias _ unfolds.uses

/-- Only one of the two constructors is declared again, so that the attributes of the other one are
lost. -/
theorem owner_not_roundTrips : context.Describes heap (.dataRef owner) ∧
    context.Grounded (.dataRef owner) ∧ ¬context.RoundTrips (.dataRef owner) := by
  refine ⟨describes, grounded, ?_⟩
  rintro ⟨reified, reify_eq, meets⟩
  obtain rfl := Except.ok.inj ((rfl : Ty.reify context (.dataRef owner) = .ok _).symm.trans reify_eq)
  obtain ⟨-, same⟩ := meets
  obtain ⟨originals, agains, originals_eq, agains_eq, again, -⟩ :=
    same "D" (reaches_iff.mpr (.inl rfl))
  cases originals_eq
  cases agains_eq
  obtain ⟨_, one_mem, -, one_attributes⟩ := again first (List.mem_cons_self ..)
  obtain ⟨_, other_mem, -, other_attributes⟩ :=
    again second (List.mem_cons_of_mem _ (List.mem_cons_self ..))
  obtain rfl := List.mem_singleton.mp one_mem
  obtain rfl := List.mem_singleton.mp other_mem
  exact absurd (one_attributes.trans other_attributes.symm) (by decide)

end Merging

end Reification.Reify
