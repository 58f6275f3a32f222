import Reification.Proofs.Collected

/-!
# Undeclared references

Reifying a type fails if a name is reached which is not declared for its use.  The names are looked
up when they are met for the first time, whatever they are used as; a name that has been met as a
nonterminal, for example, is never looked up as a data type.  Unless a use hides another one in this
way, reifying fails exactly if some reference which is reached is undeclared.
-/

namespace Reification.Reify

/-- Whether the registry declares nothing for the use of a name; nonterminals need no declaration. -/
def Context.Undeclared (context : Context) : Mention → Prop
  | .dataRef name => context.registry.lookupData? name = none
  | .aliasRef name => context.registry.lookupAlias? name = none
  | .sort _ => False

/-- Whether no name is reached both in a use for which it is known and in another one. -/
def Context.Unshadowed (context : Context) (type : Ty) : Prop :=
  ∀ ⦃mention other⦄, context.Reached type mention → context.Reached type other →
    ¬context.Undeclared mention → mention.name = other.name → mention = other

/-- Whether every declared alias has its body. -/
def Context.Bodied (context : Context) : Prop :=
  ∀ ⦃name declared⦄, context.registry.lookupAlias? name = some declared →
    context.store.body? declared ≠ none

/-- Whether the constructors of every data type which is reached can be told apart: comparing those
of several layers ends. -/
def Context.Compares (context : Context) (type : Ty) : Prop :=
  ∀ ⦃name⦄, context.Reached type (.dataRef name) → context.registry.lookupData? name ≠ none →
    context.registry.constructorsOf context.store name ≠ none

section Outcome

variable {context : Context} {type : Ty} {mention : Mention} {failure : Failure}

theorem Context.Undeclared.entryOf?_eq_none (undeclared : context.Undeclared mention) :
    context.entryOf? mention = none := by
  cases mention with
  | dataRef name => simp [entryOf?, show context.registry.lookupData? name = none from undeclared]
  | aliasRef name => simp [entryOf?, show context.registry.lookupAlias? name = none from undeclared]
  | sort => exact undeclared.elim

/-- A name ends reifying only because it is undeclared, if bodies are known and comparisons end. -/
theorem Context.Refuses.undeclared (refuses : context.Refuses mention failure)
    (bodied : context.Bodied) (compares : context.Compares type)
    (reached : context.Reached type mention) : context.Undeclared mention ∧
      ∃ kind, failure = .error (.undeclared kind mention.name) := by
  cases mention with
  | dataRef name =>
    simp only [Refuses] at refuses
    split at refuses
    · next lookup_eq => exact ⟨lookup_eq, .dataType, refuses⟩
    · next declared lookup_eq => exact absurd refuses (compares reached (by simp [lookup_eq]))
  | aliasRef name =>
    simp only [Refuses] at refuses
    split at refuses
    · next lookup_eq => exact ⟨lookup_eq, .aliasType, refuses⟩
    · next declared lookup_eq => exact absurd refuses.1 (bodied lookup_eq)
  | sort => exact refuses.elim

/-- Reifying gives a value if every name which is reached has an entry. -/
theorem exists_reify_of_entries
    (entries : ∀ mention, context.Reached type mention → context.entryOf? mention ≠ none) :
    ∃ reified, type.reify context = .ok reified := by
  have ends := reify_ends context type
  split at ends
  · next reified reify_eq => exact ⟨reified, reify_eq⟩
  · obtain ⟨mention, meets, refuses⟩ := ends
    exact absurd refuses.entryOf?_eq_none (entries mention meets.reached)

/-- Every name which is reached has an entry if reifying gives a value, unless names hide others. -/
theorem entryOf?_ne_none_of_reify {reified : Reified} (reify_eq : type.reify context = .ok reified)
    (unshadowed : ∀ ⦃found other⦄, context.Reached type found → context.Reached type other →
      context.entryOf? found ≠ none → found.name = other.name → found = other)
    (reached : context.Reached type mention) : context.entryOf? mention ≠ none := by
  have ends := reify_ends context type
  rw [reify_eq] at ends
  obtain ⟨-, done, progress, explored, visited, -⟩ := ends
  obtain ⟨entry, mem⟩ := explored.exists_mem_of_unshadowed visited unshadowed reached
  simp [(explored.entry_eq _ mem).2]

/-- Unless a use of a name hides another one, reifying fails exactly if some reference which is
reached is undeclared, and gives a value otherwise. -/
theorem reify_undeclared_iff (bodied : context.Bodied) (compares : context.Compares type)
    (unshadowed : context.Unshadowed type) :
    ((∃ kind name, type.reify context = .error (.error (.undeclared kind name))) ↔
      ∃ mention, context.Reached type mention ∧ context.Undeclared mention) ∧
    ((∃ reified, type.reify context = .ok reified) ↔
      ¬∃ mention, context.Reached type mention ∧ context.Undeclared mention) := by
  have declared_of_ok {reified : Reified} (reify_eq : type.reify context = .ok reified) :
      ¬∃ mention, context.Reached type mention ∧ context.Undeclared mention := by
    rintro ⟨mention, reached, undeclared⟩
    refine entryOf?_ne_none_of_reify reify_eq (fun found other found_reached other_reached known
      name_eq => ?_) reached undeclared.entryOf?_eq_none
    exact unshadowed found_reached other_reached
      (fun undeclared => known undeclared.entryOf?_eq_none) name_eq
  have ends := reify_ends context type
  rcases reify_eq : type.reify context with failure | reified
  · rw [reify_eq] at ends
    obtain ⟨mention, meets, refuses⟩ := ends
    obtain ⟨undeclared, kind, rfl⟩ := refuses.undeclared bodied compares meets.reached
    have exists_undeclared : ∃ mention, context.Reached type mention ∧ context.Undeclared mention :=
      ⟨mention, meets.reached, undeclared⟩
    simp [exists_undeclared]
  · simp [declared_of_ok reify_eq]

end Outcome

/-! A tree whose leaves carry an identifier, which nothing is declared for. -/

namespace Orchard

def tree : DataRef Ty := ⟨0, "Tree", []⟩

def leaf : Constructor Ty := ⟨1, tree, "leaf", [⟨some "name", .aliasRef ⟨0, "Name", []⟩⟩], ∅⟩

def node : Constructor Ty :=
  ⟨2, tree, "node", [⟨none, .list (.dataRef tree)⟩, ⟨none, .sort "Separator"⟩], ∅⟩

def context : Context where
  store := ⟨4, #[some (.set (.dataRef ⟨3, "Identifier", []⟩))]⟩
  registry := {
    own := {
      declarations := ⟨[("Tree", .dataRef tree)], by decide⟩
      constructors := ⟨[("Tree", [node])], by decide⟩ }
    inherited := [{
      declarations := ⟨[("Name", .aliasRef ⟨0, "Name", []⟩), ("Tree", .dataRef tree)], by decide⟩
      constructors := ⟨[("Tree", [leaf])], by decide⟩ }] }

def mentions : List Mention :=
  [.dataRef "Tree", .sort "Separator", .aliasRef "Name", .dataRef "Identifier"]

theorem mem_mentions {mention : Mention} (reached : context.Reached (.dataRef tree) mention) :
    mention ∈ mentions :=
  reached.mem_of_closed (by decide) (by decide)

theorem bodied : context.Bodied := by
  intro name declared lookup_eq
  have name_mem : name ∈ context.names :=
    Context.mem_names (Registry.lookupAlias?_eq_some_iff.mp lookup_eq)
  have names_eq : context.names = {"Tree", "Name"} := by decide
  obtain rfl | rfl : name = "Tree" ∨ name = "Name" := by simpa [names_eq] using name_mem
  · cases lookup_eq
  · obtain rfl := Option.some.inj lookup_eq
    decide

theorem compares : context.Compares (.dataRef tree) := by
  intro name reached declared
  obtain rfl | rfl : name = "Tree" ∨ name = "Identifier" := by
    simpa [mentions] using mem_mentions reached
  · simp only [show context.registry.constructorsOf context.store "Tree" = some [node, leaf] from rfl,
      ne_eq, reduceCtorEq, not_false_eq_true]
  · exact absurd rfl declared

theorem unshadowed : context.Unshadowed (.dataRef tree) := by
  have distinct : ∀ mention ∈ mentions, ∀ other ∈ mentions,
      mention.name = other.name → mention = other := by decide
  intro mention other reached other_reached _ name_eq
  exact distinct mention (mem_mentions reached) other (mem_mentions other_reached) name_eq

theorem reached_identifier : context.Reached (.dataRef tree) (.dataRef "Identifier") := by
  have tree_reached : context.Reached (.dataRef tree) (.dataRef "Tree") := .named (by decide)
  have name_mem : Ty.aliasRef ⟨0, "Name", []⟩ ∈ context.expansionOf (.dataRef "Tree") :=
    List.mem_cons_of_mem _ (List.mem_cons_of_mem _ (List.mem_singleton_self _))
  have name_reached : context.Reached (.dataRef tree) (.aliasRef "Name") :=
    tree_reached.expanded name_mem (by decide)
  have identifiers_mem : Ty.set (.dataRef ⟨3, "Identifier", []⟩) ∈
      context.expansionOf (.aliasRef "Name") := List.mem_singleton_self _
  exact name_reached.expanded identifiers_mem (by decide)

theorem tree_undeclared : context.Bodied ∧ context.Compares (.dataRef tree) ∧
    context.Unshadowed (.dataRef tree) ∧ context.Reached (.dataRef tree) (.dataRef "Identifier") ∧
      ∃ kind name, (Ty.dataRef tree).reify context = .error (.error (.undeclared kind name)) :=
  ⟨bodied, compares, unshadowed, reached_identifier,
    (reify_undeclared_iff bodied compares unshadowed).1.mpr
      ⟨.dataRef "Identifier", reached_identifier, rfl⟩⟩

end Orchard

/-! A nonterminal and an undeclared data type of one name. -/

namespace Homonym

def context : Context where
  store := {}
  registry := {}

def nonterminal : Field Ty := ⟨none, .sort "Name"⟩

def reference : Field Ty := ⟨none, .dataRef ⟨0, "Name", []⟩⟩

theorem compares (type : Ty) : context.Compares type := fun _ _ declared => absurd rfl declared

/-- If the nonterminal is met first, the data type is never looked up; in the other order it is. -/
theorem pair_not_refused : context.Bodied ∧ context.Compares (.tuple [nonterminal, reference]) ∧
    (∃ reified, (Ty.tuple [nonterminal, reference]).reify context = .ok reified) ∧
    (Ty.tuple [reference, nonterminal]).reify context =
      .error (.error (.undeclared .dataType "Name")) ∧
    ¬((∃ kind name, (Ty.tuple [nonterminal, reference]).reify context =
        .error (.error (.undeclared kind name))) ↔
      ∃ mention, context.Reached (.tuple [nonterminal, reference]) mention ∧
        context.Undeclared mention) := by
  have ok : ∃ reified, (Ty.tuple [nonterminal, reference]).reify context = .ok reified := ⟨_, rfl⟩
  refine ⟨nofun, compares _, ok, rfl, fun iff => ?_⟩
  obtain ⟨reified, reify_eq⟩ := ok
  have reached : context.Reached (.tuple [nonterminal, reference]) (.dataRef "Name") :=
    .named (by decide)
  obtain ⟨kind, name, fails⟩ := iff.mpr ⟨.dataRef "Name", reached, rfl⟩
  rw [reify_eq] at fails
  cases fails

end Homonym

end Reification.Reify
