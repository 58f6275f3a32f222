import Reification.Proofs.Coverage
import Reification.Proofs.Instantiation
import Reification.Proofs.Meaning

/-!
# Sound worlds

A world is sound if every declared name shows what it stands for and a data type has a constructor
for each of its alternatives which describes a further one, in their order.  A computation builds
something in a sound world if it ends, in a sound world again, with a result which is as stated.
-/

namespace Reification.Reconstruct

section Distinct

variable (meaning : Meaning)

/-- The constructor which an alternative describes, apart from its owner and its attributes: its
name and what its fields show. -/
noncomputable def described (production : Production) : Option (String × List (Field Tree)) :=
  production.name.map fun name => (name, Symbol.fieldTrees meaning production.symbols)

open Classical in
/-- Adds an alternative to some others, unless it has no name or describes the same constructor as
one of them. -/
noncomputable def addDistinct (kept : List Production) (production : Production) :
    List Production :=
  if production.name = none ∨
      ∃ other ∈ kept, described meaning other = described meaning production then kept
  else kept ++ [production]

/-- The alternatives with a name, of which only the first one is kept among those which describe the
same constructor. -/
noncomputable def distinct (productions : List Production) : List Production :=
  productions.foldl (addDistinct meaning) []

variable {meaning} {productions : List Production} {production : Production}

theorem distinct_concat : distinct meaning (productions ++ [production]) =
    addDistinct meaning (distinct meaning productions) production :=
  List.foldl_concat ..

theorem distinct_concat_of_known (known : production.name = none ∨
      ∃ other ∈ distinct meaning productions,
        described meaning other = described meaning production) :
    distinct meaning (productions ++ [production]) = distinct meaning productions := by
  rw [distinct_concat, addDistinct, if_pos known]

theorem distinct_concat_of_unknown (named : production.name ≠ none)
    (unknown : ∀ other ∈ distinct meaning productions,
      described meaning other ≠ described meaning production) :
    distinct meaning (productions ++ [production]) =
      distinct meaning productions ++ [production] := by
  rw [distinct_concat, addDistinct, if_neg]
  rintro (none_eq | ⟨other, mem, same⟩)
  · exact named none_eq
  · exact unknown other mem same

/-- An alternative with a name describes a constructor which one that is kept describes. -/
theorem exists_mem_distinct (named : production.name ≠ none) (mem : production ∈ productions) :
    ∃ kept ∈ distinct meaning productions,
      described meaning kept = described meaning production := by
  induction productions using List.reverseRecOn with
  | nil => cases mem
  | append_singleton productions last ih =>
    by_cases known : last.name = none ∨
        ∃ other ∈ distinct meaning productions, described meaning other = described meaning last
    · rw [distinct_concat_of_known known]
      rcases List.mem_append.mp mem with mem | mem
      · exact ih mem
      · obtain rfl := List.mem_singleton.mp mem
        exact known.resolve_left named
    · obtain ⟨last_named, unknown⟩ := not_or.mp known
      rw [distinct_concat_of_unknown last_named fun other other_mem same =>
        unknown ⟨other, other_mem, same⟩]
      rcases List.mem_append.mp mem with mem | mem
      · obtain ⟨kept, kept_mem, same⟩ := ih mem
        exact ⟨kept, List.mem_append_left _ kept_mem, same⟩
      · exact ⟨production, List.mem_append_right _ mem, rfl⟩

end Distinct

/-- What a reconstruction goes by, and how far it has come. -/
structure Stage where
  resolve : Resolver
  /-- What the formal parameters of names and the bodies of aliases show. -/
  shapes : Shapes
  /-- The names whose formal parameters are being gone through, before they are declared. -/
  waiting : String → Prop
  /-- The names which are declared and are being expanded. -/
  expanding : String → Prop
  /-- The alternatives of a name which have been gone through once it is declared. -/
  gone : String → List Production
  /-- No more names than these remain to be declared, apart from those which are waiting. -/
  depth : Nat

namespace Stage

/-- What names stand for. -/
noncomputable def meaning (stage : Stage) : Meaning :=
  Reconstruct.meaning stage.resolve stage.shapes

/-- The stage within the formal parameters of a name, which waits for them. -/
def awaiting (stage : Stage) (name : String) (depth : Nat) : Stage where
  resolve := stage.resolve
  shapes := stage.shapes
  waiting := fun other => stage.waiting other ∨ other = name
  expanding := stage.expanding
  gone := stage.gone
  depth := depth

/-- The stage within the expansion of a name of which some alternatives have been gone through. -/
def within (stage : Stage) (name : String) (gone : List Production) (depth : Nat) : Stage where
  resolve := stage.resolve
  shapes := stage.shapes
  waiting := stage.waiting
  expanding := fun other => stage.expanding other ∨ other = name
  gone := Function.update stage.gone name gone
  depth := depth

section Within

variable {stage : Stage} {name other : String} {gone : List Production} {depth : Nat}

@[simp]
theorem gone_within_self : (stage.within name gone depth).gone name = gone :=
  Function.update_self ..

theorem gone_within_of_ne (different : other ≠ name) :
    (stage.within name gone depth).gone other = stage.gone other :=
  Function.update_of_ne different ..

end Within

variable (stage : Stage)

/-- Whether a type is what a name is declared as.  The body of an alias which is being expanded is
not known yet. -/
inductive Declares (scope : Scope) (name : String) : Ty → Prop
  | data {reference : DataRef Ty} : reference.name = name →
    stage.meaning name = some (.dataRef name (stage.shapes.formals name)) →
    scope.Known (.dataRef reference) →
    scope.DenoteAll reference.parameters (stage.shapes.formals name) →
    Declares scope name (.dataRef reference)
  | alias_ {reference : AliasRef Ty} : reference.name = name → IsAlias stage.resolve name →
    scope.Known (.aliasRef reference) →
    scope.DenoteAll reference.parameters (stage.shapes.formals name) →
    (¬stage.expanding name → ∃ body, scope.store.body? reference = some body ∧
      scope.Denotes body (stage.shapes.body name)) →
    Declares scope name (.aliasRef reference)

/-- Whether a constructor is the one which an alternative describes, up to its attributes. -/
def Matches (scope : Scope) (production : Production) (constructor : Constructor Ty) : Prop :=
  production.name = some constructor.name ∧
    scope.DenoteFields constructor.fields (Symbol.fieldTrees stage.meaning production.symbols)

/-- Whether some constructors are the ones which some alternatives describe, in the same order and
with the same attributes. -/
def Arranged (scope : Scope) : List Production → List (Constructor Ty) → Prop :=
  List.Forall₂ fun production constructor => stage.Matches scope production constructor ∧
    production.attributes = constructor.attributes

/-- A world in which all declarations are as they should be. -/
structure Sound (world : World) (scope : Scope) : Prop where
  store_eq : scope.store = world.store
  /-- The aliases which stand for a declaration are the declared ones. -/
  leaf_iff : ∀ {reference}, scope.Leaf reference ↔
    world.registry.lookup? reference.name = some (.aliasRef reference)
  inherited_eq : world.registry.inherited = []
  declares : ∀ {name type}, world.registry.lookup? name = some type →
    stage.Declares scope name type
  /-- Every constructor belongs to its declared data type and comes from an alternative. -/
  constructs : ∀ {name constructor}, constructor ∈ world.registry.own.constructorsOf name →
    world.registry.lookup? name = some (.dataRef constructor.owner) ∧
      scope.Known (.constructor constructor) ∧
      ∃ production ∈ stage.resolve name, stage.Matches scope production constructor ∧
        production.attributes = constructor.attributes
  /-- A data type has the constructors which the alternatives describe that have been gone
  through. -/
  arranged : ∀ {name reference}, world.registry.lookup? name = some (.dataRef reference) →
    stage.Arranged scope (distinct stage.meaning (stage.gone name))
      (world.registry.own.constructorsOf name)
  /-- All alternatives have been gone through unless the name is being expanded. -/
  gone_eq : ∀ {name}, ¬stage.expanding name → stage.gone name = (stage.resolve name).toList
  /-- A name is declared before its alternatives are gone through. -/
  begun : ∀ {name}, stage.expanding name → world.registry.lookup? name ≠ none
  rules_le : ∀ {name rule}, rule ∈ world.registry.rulesOf name → rule ∈ stage.resolve name
  /-- The names which remain to be declared. -/
  remaining : ∃ names : Finset String, names.card ≤ stage.depth ∧
    ∀ name, (stage.resolve name).first? ≠ none → world.registry.lookup? name = none →
      ¬stage.waiting name → name ∈ names

/-- A computation ends in a sound world, in which its result is as stated. -/
def Builds {α : Type} (building : Building α) (world : World) (scope : Scope)
    (shows_ : Scope → α → Prop) : Prop :=
  building.Meets world (fun result after => world.Extends after ∧
    ∃ wider, scope ≤ wider ∧ stage.Sound after wider ∧ shows_ wider result) fun _ _ => False

end Stage

section Meaning

variable {resolve : Resolver} {shapes : Shapes} {name : String}

theorem meaning_of_alias (is_alias : IsAlias resolve name) :
    meaning resolve shapes name = some (.aliasRef name (shapes.formals name)
      (if shapes.formals name = [] then none else some (shapes.body name))) := by
  obtain ⟨other, parameters, subject_eq⟩ := is_alias
  simp [meaning, subject_eq]

theorem meaning_of_data (some_subject : subjectOf? resolve name ≠ none)
    (no_alias : ¬IsAlias resolve name) :
    meaning resolve shapes name = some (.dataRef name (shapes.formals name)) := by
  obtain ⟨subject, subject_eq⟩ := Option.ne_none_iff_exists'.mp some_subject
  simp only [meaning, subject_eq]
  cases subject with
  | aliasRef other parameters => exact absurd ⟨other, parameters, subject_eq⟩ no_alias
  | _ => rfl

theorem meaning_eq_none (no_alternative : (resolve name).first? = none) :
    meaning resolve shapes name = none := by
  simp [meaning, subjectOf?, no_alternative]

end Meaning

namespace Stage

variable {stage : Stage} {world : World} {scope wider : Scope} {α β : Type} {name : String}

theorem Sound.leavesAgree (sound : stage.Sound world scope) : scope.LeavesAgree := by
  intro left right _ _ left_leaf right_leaf _ _ name_eq
  have left_eq := sound.leaf_iff.mp left_leaf
  rw [name_eq, sound.leaf_iff.mp right_leaf] at left_eq
  obtain rfl := Ty.aliasRef.inj (Option.some.inj left_eq)
  exact Store.same_self _

theorem Declares.mono {type : Ty} (declares : stage.Declares scope name type) (le : scope ≤ wider) :
    stage.Declares wider name type := by
  cases declares with
  | data name_eq meaning_eq known denote =>
    exact .data name_eq meaning_eq (le.known known) (denote.mono le)
  | alias_ name_eq is_alias known denote body =>
    refine .alias_ name_eq is_alias (le.known known) (denote.mono le) fun closed => ?_
    obtain ⟨body, body_eq, denotes⟩ := body closed
    exact ⟨body, le.body?_eq known body_eq, denotes.mono le⟩

theorem Matches.mono {production : Production} {constructor : Constructor Ty}
    (matches_ : stage.Matches scope production constructor) (le : scope ≤ wider) :
    stage.Matches wider production constructor :=
  ⟨matches_.1, matches_.2.mono le⟩

theorem Arranged.mono {productions : List Production} {constructors : List (Constructor Ty)}
    (arranged : stage.Arranged scope productions constructors) (le : scope ≤ wider) :
    stage.Arranged wider productions constructors :=
  arranged.imp fun _ _ ⟨matches_, attributes_eq⟩ => ⟨matches_.mono le, attributes_eq⟩

/-- An alternative matches what one matches which describes the same constructor. -/
theorem Matches.of_described {production other : Production} {constructor : Constructor Ty}
    (matches_ : stage.Matches scope production constructor)
    (same : described stage.meaning production = described stage.meaning other) :
    stage.Matches scope other constructor := by
  obtain ⟨name_eq, denote⟩ := matches_
  rw [described, name_eq] at same
  obtain ⟨name, other_eq, content_eq⟩ := Option.map_eq_some_iff.mp same.symm
  obtain ⟨rfl, trees_eq⟩ := Prod.mk.inj content_eq
  exact ⟨other_eq, trees_eq ▸ denote⟩

/-- Two alternatives which match one constructor describe the same one. -/
theorem Matches.described_eq {production other : Production} {constructor : Constructor Ty}
    (matches_ : stage.Matches scope production constructor)
    (other_matches : stage.Matches scope other constructor) :
    described stage.meaning production = described stage.meaning other := by
  have trees_eq := Tree.tuple.inj
    ((Scope.Denotes.tuple matches_.2).unique (.tuple other_matches.2))
  rw [described, described, matches_.1, other_matches.1, trees_eq]

/-- A constructor shows what an alternative describes which it matches. -/
theorem Sound.constructor_denotes (sound : stage.Sound world scope) {production : Production}
    {constructor : Constructor Ty} (mem : constructor ∈ world.registry.own.constructorsOf name)
    (matches_ : stage.Matches scope production constructor) :
    scope.Denotes (.constructor constructor) (.constructor name (stage.shapes.formals name)
      constructor.name (Symbol.fieldTrees stage.meaning production.symbols)) := by
  obtain ⟨declared, known, -⟩ := sound.constructs mem
  cases sound.declares declared with
  | data name_eq _ _ denote =>
    subst name_eq
    exact .constructor known denote matches_.2

/-- An alias has no constructors. -/
theorem Sound.constructorsOf_of_isAlias (sound : stage.Sound world scope)
    (is_alias : IsAlias stage.resolve name) : world.registry.own.constructorsOf name = [] := by
  refine List.eq_nil_iff_forall_not_mem.mpr fun constructor mem => ?_
  cases sound.declares (sound.constructs mem).1 with
  | data _ meaning_eq => exact nomatch (meaning_of_alias is_alias).symm.trans meaning_eq

/-- Nothing has been gone through of a name which is not declared yet. -/
theorem Sound.unbegun (sound : stage.Sound world scope)
    (undeclared : world.registry.lookup? name = none) :
    stage.gone name = (stage.resolve name).toList :=
  sound.gone_eq fun expanding => sound.begun expanding undeclared

/-- Every alternative of a data type has a constructor unless the data type is being expanded. -/
theorem Sound.complete (sound : stage.Sound world scope) {reference : DataRef Ty}
    (declared : world.registry.lookup? name = some (.dataRef reference))
    (closed : ¬stage.expanding name) (production : Production)
    (mem : production ∈ stage.resolve name) (named : production.name.isSome = true) :
    ∃ constructor ∈ world.registry.own.constructorsOf name,
      stage.Matches scope production constructor := by
  obtain ⟨kept, kept_mem, same⟩ : ∃ kept ∈ distinct stage.meaning (stage.resolve name).toList,
      described stage.meaning kept = described stage.meaning production :=
    exists_mem_distinct (Option.isSome_iff_ne_none.mp named) (OrderedSet.mem_toList.mpr mem)
  rw [← sound.gone_eq closed] at kept_mem
  obtain ⟨constructor, constructor_mem, matches_, -⟩ :=
    Scope.exists_of_forall₂ (sound.arranged declared) kept_mem
  exact ⟨constructor, constructor_mem, matches_.of_described same⟩

/-- A world stays sound if more is known and no further alias stands for a declaration. -/
theorem Sound.of_le (sound : stage.Sound world scope) (le : scope ≤ wider)
    (leaf_eq : wider.Leaf = scope.Leaf) :
    stage.Sound { world with store := wider.store } wider where
  store_eq := rfl
  leaf_iff := by
    rw [leaf_eq]
    exact sound.leaf_iff
  inherited_eq := sound.inherited_eq
  declares declared := (sound.declares declared).mono le
  constructs mem := by
    obtain ⟨declared, known, production, production_mem, matches_, attributes_eq⟩ :=
      sound.constructs mem
    exact ⟨declared, le.known known, production, production_mem, matches_.mono le, attributes_eq⟩
  arranged declared := (sound.arranged declared).mono le
  gone_eq := sound.gone_eq
  begun := sound.begun
  rules_le := sound.rules_le
  remaining := sound.remaining

namespace Builds

variable {shows_ : Scope → α → Prop}

theorem pure {result : α} (sound : stage.Sound world scope) (holds : shows_ scope result) :
    stage.Builds (pure result) world scope shows_ :=
  Building.meets_pure.mpr ⟨.refl _, scope, .refl scope, sound, holds⟩

theorem mono {building : Building α} {shows' : Scope → α → Prop}
    (builds : stage.Builds building world scope shows_)
    (imp : ∀ wider result, scope ≤ wider → shows_ wider result → shows' wider result) :
    stage.Builds building world scope shows' :=
  Building.Meets.mono builds (fun result _ ⟨extends_, wider, le, sound, holds⟩ =>
    ⟨extends_, wider, le, sound, imp wider result le holds⟩) fun _ _ => id

/-- The rest of a computation goes on in the sound world which a step leaves. -/
theorem bind {building : Building α} {next : α → Building β} {shows' : Scope → β → Prop}
    (first : stage.Builds building world scope shows_)
    (second : ∀ result after wider, world.Extends after → scope ≤ wider → stage.Sound after wider →
      shows_ wider result → stage.Builds (next result) after wider shows') :
    stage.Builds (building >>= next) world scope shows' := by
  refine Building.Meets.bind first ?_ fun _ _ => id
  rintro result after ⟨extends_, wider, le, sound, holds⟩
  refine Building.Meets.mono (second result after wider extends_ le sound holds) ?_ fun _ _ => id
  rintro last world' ⟨later, widest, le', sound', holds'⟩
  exact ⟨extends_.trans later, widest, Scope.Le.trans le le', sound', holds'⟩

/-- References are made in a scope. -/
theorem make {making : Making α} (sound : stage.Sound world scope)
    (makes : scope.Makes making shows_) :
    stage.Builds (Building.make making) world scope shows_ := by
  obtain ⟨result, after, run_eq, wider, growsTo, rfl, holds⟩ := makes
  refine Building.meets_make.mpr ?_
  rw [sound.store_eq] at run_eq
  rw [run_eq]
  exact ⟨.of_store (sound.store_eq ▸ growsTo.grows), wider, growsTo.toLe,
    sound.of_le growsTo.toLe growsTo.leaf_eq, holds⟩

/-- A computation may go on with references which it has made. -/
theorem make_bind {making : Making α} {next : α → Building β} {shows' : Scope → β → Prop}
    (sound : stage.Sound world scope) (makes : scope.Makes making shows_)
    (second : ∀ result wider, scope.GrowsTo wider → shows_ wider result →
      (next result).Meets { world with store := wider.store }
        (fun last after => world.Extends after ∧
          ∃ widest, scope ≤ widest ∧ stage.Sound after widest ∧ shows' widest last)
        fun _ _ => False) :
    stage.Builds (Building.make making >>= next) world scope shows' := by
  obtain ⟨result, after, run_eq, wider, growsTo, rfl, holds⟩ := makes
  refine Building.meets_bind.mpr (Building.meets_make.mpr ?_)
  rw [sound.store_eq] at run_eq
  rw [run_eq]
  exact second result wider growsTo holds

/-- A computation goes on with the answer to a question in the same world. -/
theorem ask_bind {question : Registry → Store → Option α} {answer : α} {next : α → Building β}
    {shows' : Scope → β → Prop} (answer_eq : question world.registry world.store = some answer)
    (builds : stage.Builds (next answer) world scope shows') :
    stage.Builds (Building.ask question >>= next) world scope shows' := by
  refine Building.meets_bind.mpr (Building.meets_ask.mpr ?_)
  rw [answer_eq]
  exact builds

theorem get_bind {next : World → Building α}
    (builds : stage.Builds (next world) world scope shows_) :
    stage.Builds (get >>= next) world scope shows_ :=
  Building.meets_bind.mpr builds

end Builds

end Stage

end Reification.Reconstruct
