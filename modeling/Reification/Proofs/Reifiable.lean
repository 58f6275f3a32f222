import Reification.Proofs.Conflict
import Reification.Proofs.Confinement
import Reification.Proofs.Occurrences
import Reification.Proofs.Reconstructed
import Reification.Proofs.SelfContained
import Reification.Proofs.Undeclared

/-!
# Reifying what has been reconstructed

A reconstruction into a fresh registry fills the bodies of all aliases which it declares, so that
reifying its result fails at most because of a name which is not declared.  Such names come from
those without alternatives and from owners which are made up for constructors; without these the
result is reified, and nothing has an entry that has none in the given definitions, except for
nonterminals.
-/

namespace Reification

open Reify (Context)

namespace Symbol

variable {symbol child owner : Symbol} {name : String} {fields : List Symbol}

theorem owners_of_child (mem : child ∈ symbol.children) : child.owners ⊆ symbol.owners := by
  have all {symbols : List Symbol} (mem : child ∈ symbols) : child.owners ⊆ ownersOfAll symbols :=
    fun _ owner_mem => by
      rw [ownersOfAll_eq]
      exact List.mem_flatMap.mpr ⟨child, mem, owner_mem⟩
  intro owner owner_mem
  cases symbol with
  | prim | sort => cases mem
  | label | list | set | reified | parameter => exact List.mem_singleton.mp mem ▸ owner_mem
  | map key value =>
    obtain rfl | rfl : child = key ∨ child = value := by simpa [children] using mem
    · exact List.mem_append_left _ owner_mem
    · exact List.mem_append_right _ owner_mem
  | tuple | dataRef | aliasRef => exact all mem owner_mem
  | func result arguments =>
    rcases List.mem_cons.mp mem with rfl | mem
    · exact List.mem_append_left _ owner_mem
    · exact List.mem_append_right _ (all mem owner_mem)
  | constructor owner name fields =>
    refine List.mem_cons_of_mem _ ?_
    rcases List.mem_cons.mp mem with rfl | mem
    · exact List.mem_append_left _ owner_mem
    · exact List.mem_append_right _ (all mem owner_mem)

theorem Contains.owner_mem (contains : symbol.Contains (.constructor owner name fields)) :
    owner ∈ symbol.owners := by
  induction contains using Relation.ReflTransGen.head_induction_on with
  | refl => exact List.mem_cons_self ..
  | head mem _ ih => exact owners_of_child mem ih

end Symbol

namespace Reconstruct

variable {definitions : Definitions} {resolve : Resolver} {allowed : Mention → Prop}
  {symbol visited : Symbol} {type : Ty} {world : World} {mention : Mention}

/-- What is mentioned where a reconstruction goes through: the names which are reached, as what their
alternatives tell, and the nonterminals which are met. -/
def Justifies (resolve : Resolver) (symbol : Symbol) : Mention → Prop
  | .dataRef name => Reaches resolve symbol name ∧ ¬IsAlias resolve name
  | .aliasRef name => Reaches resolve symbol name ∧ IsAlias resolve name
  | .sort name => MeetsSort resolve symbol name

/-- If no owner has to be made up, a reconstruction mentions nothing but what is justified. -/
theorem sanctions_justified
    (owned : ∀ visited, GoesThrough resolve symbol visited → ∀ owner ∈ visited.owners,
      IsData resolve owner)
    (goes : GoesThrough resolve symbol visited) :
    Sanctions resolve (Justifies resolve symbol) visited where
  names _ names := ⟨fun not_alias => ⟨goes.reaches names, not_alias⟩,
    fun is_alias => ⟨goes.reaches names, is_alias⟩⟩
  sorts _ mem := ⟨visited, goes, mem⟩
  owners owner _ _ contains := .inl (owned visited goes owner contains.owner_mem)

/-- What is reached from a type in a confined world is allowed if what the type mentions is. -/
theorem Confined.reached (confined : Confined resolve allowed world)
    (only : type.MentionsOnly allowed) (reached : world.context.Reached type mention) :
    allowed mention := by
  induction reached with
  | named mem => exact only _ mem
  | @expanded mention next part _ part_mem mem ih =>
    refine (?_ : part.MentionsOnly allowed) next mem
    cases mention with
    | dataRef name =>
      simp only [Context.expansionOf] at part_mem
      split at part_mem
      · next declared lookup_eq =>
        have lookup_eq := Registry.lookupData?_eq_some_iff.mp lookup_eq
        rcases List.mem_append.mp part_mem with part_mem | part_mem
        · exact (Ty.mentionsOnly_dataRef.mp (confined.declared lookup_eq).1).1 part part_mem
        · obtain ⟨constructor, constructor_mem, part_mem⟩ := List.mem_flatMap.mp part_mem
          obtain ⟨field, field_mem, rfl⟩ := List.mem_map.mp part_mem
          rcases known_eq : world.registry.constructorsOf world.store name with _ | constructors
          · simp [World.context, known_eq] at constructor_mem
          · have constructor_mem : constructor ∈ constructors := by
              simpa [World.context, known_eq] using constructor_mem
            obtain ⟨layer, layer_mem, found⟩ := Registry.mem_constructorsOf known_eq constructor_mem
            have constructor_only := confined.constructors layer layer_mem found
            exact (Ty.mentionsOnly_constructor.mp constructor_only).2 field field_mem
      · cases part_mem
    | aliasRef name =>
      simp only [Context.expansionOf] at part_mem
      split at part_mem
      · next declared lookup_eq =>
        have lookup_eq := Registry.lookupAlias?_eq_some_iff.mp lookup_eq
        rcases List.mem_append.mp part_mem with part_mem | part_mem
        · exact (Ty.mentionsOnly_aliasRef.mp (confined.declared lookup_eq).1).1 part part_mem
        · exact confined.bodies (Option.mem_toList.mp part_mem)
      · cases part_mem
    | sort => cases part_mem

section Fresh

variable (run_eq : (Reified.reconstruct ⟨symbol, definitions⟩).run.run {} = (.ok type, world))

include run_eq

/-- A symbol stands for a data type just if its reconstruction refers to one. -/
theorem reconstruct_isData_iff :
    (∃ reference, type = .dataRef reference) ↔ IsData definitions.alternativesOf symbol := by
  have sanctions (visited : Symbol) (_ : GoesThrough definitions.alternativesOf symbol visited) :
      Sanctions definitions.alternativesOf (fun _ => True) visited :=
    ⟨fun _ _ => ⟨fun _ => trivial, fun _ => trivial⟩, fun _ _ => trivial,
      fun _ _ _ _ => .inr fun _ => trivial⟩
  obtain ⟨-, renders⟩ := (Building.meets_iff_of_run_eq_ok run_eq).mp
    (typeWithin_confines (maxDepth definitions) sanctions (confined_fresh _ _))
  exact Ty.kind?_eq_dataType_iff.symm.trans renders.2

/-- What a reconstruction has declared has an entry. -/
theorem entryOf?_of_declared {name : String} (declared : world.registry.lookup? name ≠ none) :
    (¬IsAlias definitions.alternativesOf name → world.context.entryOf? (.dataRef name) ≠ none) ∧
      (IsAlias definitions.alternativesOf name →
        world.context.entryOf? (.aliasRef name) ≠ none) := by
  have tidy := tidy_of_reconstruct run_eq
  obtain ⟨declaration, lookup_eq⟩ := Option.ne_none_iff_exists'.mp declared
  obtain ⟨reference, rfl, -, not_alias⟩ | ⟨reference, rfl, -, is_alias, known | pending⟩ :=
    (tidy.declared lookup_eq).kind
  · refine ⟨fun _ => ?_, fun is_alias => absurd is_alias not_alias⟩
    simp [Context.entryOf?, World.context, Registry.lookupData?_eq_some_iff.mpr lookup_eq,
      Registry.constructorsOf_of_inherited_eq tidy.inherited_eq]
  · obtain ⟨body, body_eq⟩ := Option.ne_none_iff_exists'.mp known
    refine ⟨fun not_alias => absurd is_alias not_alias, fun _ => ?_⟩
    simp [Context.entryOf?, World.context, Registry.lookupAlias?_eq_some_iff.mpr lookup_eq, body_eq]
  · exact pending.elim

/-- After a reconstruction every alias has its body, and comparisons end. -/
theorem bodied_of_reconstruct : world.context.Bodied ∧ world.context.Compares type := by
  have tidy := tidy_of_reconstruct run_eq
  constructor
  · intro name declared lookup_eq
    obtain ⟨_, impossible, -⟩ | ⟨_, same, -, -, known | pending⟩ :=
      (tidy.declared (Registry.lookupAlias?_eq_some_iff.mp lookup_eq)).kind
    · cases impossible
    · cases same
      exact known
    · exact pending.elim
  · intro name _ _
    rw [World.context, Registry.constructorsOf_of_inherited_eq tidy.inherited_eq]
    exact Option.some_ne_none _

/-- The result of a reconstruction into a fresh registry is reified in it, or some name is not
declared.  If every name which is reached has alternatives and no owner has to be made up, it is
reified, and its definitions are of names with an entry in the given ones and of nonterminals. -/
theorem reconstruct_reifies :
    ((∃ reified, type.reify world.context = .ok reified) ∨
      ∃ kind name, type.reify world.context = .error (.error (.undeclared kind name))) ∧
    ((∀ name, Reaches definitions.alternativesOf symbol name →
        (definitions.alternativesOf name).first? ≠ none) →
      (∀ visited, GoesThrough definitions.alternativesOf symbol visited →
        ∀ owner ∈ visited.owners, IsData definitions.alternativesOf owner) →
      ∃ reified, type.reify world.context = .ok reified ∧
        ∀ name ∈ reified.definitions.names, name ∈ definitions.names ∨
          MeetsSort definitions.alternativesOf symbol name) := by
  obtain ⟨bodied, compares⟩ := bodied_of_reconstruct run_eq
  have ends := Reify.reify_ends world.context type
  refine ⟨?_, fun inhabited owned => ?_⟩
  · rcases reify_eq : type.reify world.context with failure | reified
    · rw [reify_eq] at ends
      obtain ⟨mention, meets, refuses⟩ := ends
      obtain ⟨-, kind, rfl⟩ := refuses.undeclared bodied compares meets.reached
      exact .inr ⟨kind, mention.name, rfl⟩
    · exact .inl ⟨reified, rfl⟩
  · obtain ⟨confined, renders⟩ := (Building.meets_iff_of_run_eq_ok run_eq).mp
      (typeWithin_confines (maxDepth definitions) (fun _ => sanctions_justified owned)
        (confined_fresh _ _))
    have justified {mention : Mention} (reached : world.context.Reached type mention) :=
      confined.reached renders.1 reached
    obtain ⟨advances, covered⟩ : Advances definitions.alternativesOf
        (Reaches definitions.alternativesOf symbol) {} world ∧
          ∀ mention ∈ symbol.mentions, Covered definitions.alternativesOf world mention :=
      (Building.meets_iff_of_run_eq_ok run_eq).mp (typeWithin_keeps _ symbol {})
    have complete := advances.complete (complete_fresh (fun _ => False) {})
    have declared {name : String} (reaches : Reaches definitions.alternativesOf symbol name) :
        world.registry.lookup? name ≠ none :=
      complete.declared_of_reaches covered reaches (inhabited name reaches)
    have entries (mention : Mention) (reached : world.context.Reached type mention) :
        world.context.entryOf? mention ≠ none := by
      have justified := justified reached
      cases mention with
      | dataRef name => exact (entryOf?_of_declared run_eq (declared justified.1)).1 justified.2
      | aliasRef name => exact (entryOf?_of_declared run_eq (declared justified.1)).2 justified.2
      | sort name => exact Option.some_ne_none _
    obtain ⟨reified, reify_eq⟩ := Reify.exists_reify_of_entries entries
    refine ⟨reified, reify_eq, fun name name_mem => ?_⟩
    rw [reify_eq] at ends
    obtain ⟨-, done, progress, explored, -, definitions_eq⟩ := ends
    rw [definitions_eq] at name_mem
    obtain ⟨choice, get?_eq⟩ := Option.ne_none_iff_exists'.mp (Table.mem_names_iff.mp name_mem)
    obtain ⟨found, found_mem, rfl, -⟩ := explored.exists_mem_of_get? get?_eq
    have justified := justified (explored.entry_eq found found_mem).1.reached
    have known {name : String} (reaches : Reaches definitions.alternativesOf symbol name) :
        name ∈ definitions.names :=
      List.mem_toFinset.mp (mem_names_of_first? (inhabited name reaches))
    rcases found with ⟨mention, entry⟩
    cases mention with
    | dataRef name => exact .inl (known justified.1)
    | aliasRef name => exact .inl (known justified.1)
    | sort name => exact .inr justified

end Fresh

/-- Trees whose leaves are named by an alias. -/
def orchard : Definitions where
  entries := [
    ("Name", {
      subject := .aliasRef "Name" []
      alternatives := ⟨[{ subject := .aliasRef "Name" [], symbols := [.set (.prim .str)] }],
        List.pairwise_singleton _ _⟩ }),
    ("Separator", {
      subject := .sort "Separator"
      alternatives := ⟨[{ subject := .sort "Separator", symbols := [.prim .str] }],
        List.pairwise_singleton _ _⟩ }),
    ("Tree", {
      subject := .dataRef "Tree" []
      alternatives := ⟨[
        { subject := .dataRef "Tree" []
          name := some "leaf"
          symbols := [.label "name" (.aliasRef "Name" [])] },
        { subject := .dataRef "Tree" []
          name := some "node"
          symbols := [.list (.dataRef "Tree" []), .sort "Separator"] }], by decide⟩ })]
  increasing := by decide

namespace orchard

def leaf : Symbol :=
  .constructor (.dataRef "Tree" []) "leaf" [.label "name" (.aliasRef "Name" [])]

/-- What is reconstructed from the leaves. -/
def outcome : Except Failure Ty × World := (Reified.reconstruct ⟨leaf, orchard⟩).run.run {}

theorem reconstruct_eq : ∃ type, (Reified.reconstruct ⟨leaf, orchard⟩).run.run {} =
    (.ok type, outcome.2) := by
  have succeeds : outcome.1.toBool = true := by decide +kernel
  rcases outcome_eq : outcome with ⟨_ | type, world⟩
  · rw [outcome_eq] at succeeds
    cases succeeds
  · exact ⟨type, outcome_eq⟩

theorem mem_names {name : String} (reaches : Reaches orchard.alternativesOf leaf name) :
    name ∈ ["Tree", "Name", "Separator"] :=
  reaches.mem_of_closed (by decide) (by decide)

theorem inhabited (name : String) (reaches : Reaches orchard.alternativesOf leaf name) :
    (orchard.alternativesOf name).first? ≠ none := by
  have all : ∀ name ∈ ["Tree", "Name", "Separator"],
      (orchard.alternativesOf name).first? ≠ none := by decide
  exact all name (mem_names reaches)

theorem owned (visited : Symbol) (goes : GoesThrough orchard.alternativesOf leaf visited)
    (owner : Symbol) (mem : owner ∈ visited.owners) : IsData orchard.alternativesOf owner := by
  have not_alias : ¬IsAlias orchard.alternativesOf "Tree" := nofun
  rcases goes with rfl | ⟨name, reaches, visited_mem⟩
  · obtain rfl := List.mem_singleton.mp mem
    exact isData_dataRef.mpr not_alias
  · have none : ∀ name ∈ ["Tree", "Name", "Separator"],
        ∀ visited ∈ formalsOf orchard.alternativesOf name ++ contentsOf orchard.alternativesOf name,
          visited.owners = [] := by decide
    rw [none name (mem_names reaches) visited visited_mem] at mem
    cases mem

theorem leaf_reifies : ∃ type reified,
    (Reified.reconstruct ⟨leaf, orchard⟩).run.run {} = (.ok type, outcome.2) ∧
    type.reify outcome.2.context = .ok reified ∧ ∀ name ∈ reified.definitions.names,
      name ∈ orchard.names ∨ MeetsSort orchard.alternativesOf leaf name := by
  obtain ⟨type, run_eq⟩ := reconstruct_eq
  obtain ⟨reified, reify_eq, names⟩ := (reconstruct_reifies run_eq).2 inhabited owned
  exact ⟨type, reified, run_eq, reify_eq, names⟩

end orchard

end Reconstruct

end Reification
