import Reification.Proofs.Restoration
import Reification.Proofs.RoundTrip
import Reification.Suite.Phase

/-!
# Restored types

What a restorable value stands for is reconstructed, reified and rebuilt.  The types before and after
show the same tree, and the aliases without parameters in it are equal along the order in which they
unfold, so that the rebuilding phase of a case never reports a change.
-/

namespace Reification

open Reify (Context)

namespace Reconstruct

section Leaves

variable {resolve : Resolver} {shapes : Shapes} {symbol visited : Symbol} {name other leaf : String}

/-- Whether a leaf is shown by the formal parameters of a name with alternatives or by its body. -/
def Shapes.Leaf (shapes : Shapes) (resolve : Resolver) (name leaf : String) : Prop :=
  (resolve name).first? ≠ none ∧ (leaf ∈ Tree.leavesOfAll (shapes.formals name) ∨
    IsAlias resolve name ∧ leaf ∈ (shapes.body name).leaves)

/-- The leaves of what a symbol means are aliases in it, or leaves of what its names stand for. -/
theorem exists_of_mem_leaves (mem : leaf ∈ (visited.tree (meaning resolve shapes)).leaves) :
    ∃ other, visited.Names other ∧ (leaf = other ∨ shapes.Leaf resolve other leaf) := by
  obtain ⟨other, tree, names, meaning_eq, mem⟩ := Symbol.exists_of_mem_leaves mem
  have some_alternative := first?_of_meaning meaning_eq
  refine ⟨other, names, ?_⟩
  by_cases is_alias : IsAlias resolve other
  · rw [meaning_of_alias is_alias] at meaning_eq
    obtain rfl := Option.some.inj meaning_eq
    rcases List.mem_append.mp mem with mem | mem
    · exact .inr ⟨some_alternative, .inl mem⟩
    · split at mem
      · exact .inl (List.mem_singleton.mp mem)
      · exact .inr ⟨some_alternative, .inr ⟨is_alias, mem⟩⟩
  · have some_subject : subjectOf? resolve other ≠ none := fun none_eq => by
      simp [meaning, none_eq] at meaning_eq
    rw [meaning_of_data some_subject is_alias] at meaning_eq
    obtain rfl := Option.some.inj meaning_eq
    exact .inr ⟨some_alternative, .inl mem⟩

theorem Opened.reaches (opened : Opened resolve symbol name) : Reaches resolve symbol name := by
  obtain ⟨first, names, path⟩ := opened
  exact ⟨first, names, path.lift id fun _ _ => Opens.leads⟩

theorem Opened.opens (opened : Opened resolve symbol name)
    (path : Relation.TransGen (Opens resolve) name other) : Opened resolve symbol other := by
  obtain ⟨first, names, first_path⟩ := opened
  exact ⟨first, names, first_path.trans path.to_reflTransGen⟩

theorem Opens.some_alternative (opens : Opens resolve name other) :
    (resolve name).first? ≠ none := by
  obtain ⟨content, mem, -⟩ := opens.leads
  exact first?_of_mem mem

end Leaves

section Opens

variable {definitions : Definitions} {shapes : Shapes} {met : String → Prop} {name leaf : String}
  (closed : ∀ ⦃name other⦄, met name → Opens definitions.alternativesOf name other → met other)
  (grounded : ∀ name, met name → ¬Relation.TransGen (Opens definitions.alternativesOf) name name)

include closed grounded

/-- One can argue by induction along the order in which names unfold. -/
theorem opens_induction {P : String → Prop}
    (step : ∀ name, met name →
      (∀ other, Relation.TransGen (Opens definitions.alternativesOf) name other → P other) → P name)
    (name_met : met name) : P name := by
  let leads (one other : String) : Prop := met one ∧
    Relation.TransGen (Opens definitions.alternativesOf) one other ∧
      (definitions.alternativesOf other).first? ≠ none
  have met_of_path {one other : String} (one_met : met one)
      (path : Relation.TransGen (Opens definitions.alternativesOf) one other) : met other := by
    induction path with
    | single opens => exact closed one_met opens
    | tail _ opens ih => exact closed ih opens
  have bounded {one other : String} (related : leads one other) :
      other ∈ definitions.names.toFinset := mem_names_of_first? related.2.2
  have acyclic (one : String) : ¬Relation.TransGen leads one one := fun cycle => by
    obtain ⟨_, ⟨one_met, -⟩, -⟩ := Relation.TransGen.head'_iff.mp cycle
    exact grounded one one_met (cycle.lift' id fun _ _ related => related.2.1)
  refine induction_of_acyclic (P := fun name => met name → P name) definitions.names.toFinset bounded
    acyclic (fun name ih name_met => ?_) name name_met
  refine step name name_met fun other path => ?_
  by_cases some_alternative : (definitions.alternativesOf other).first? = none
  · refine step other (met_of_path name_met path) fun last path => ?_
    obtain ⟨_, opens, -⟩ := Relation.TransGen.head'_iff.mp path
    exact absurd some_alternative opens.some_alternative
  · exact ih other ⟨name_met, path, some_alternative⟩ (met_of_path name_met path)

/-- The leaves of what a name stands for are met when the name is unfolded. -/
theorem opens_of_leaf (solves : ∀ name, met name → Solves definitions.alternativesOf shapes name)
    (name_met : met name) (found : shapes.Leaf definitions.alternativesOf name leaf) :
    Relation.TransGen (Opens definitions.alternativesOf) name leaf := by
  refine opens_induction closed grounded (P := fun name =>
    shapes.Leaf definitions.alternativesOf name leaf →
      Relation.TransGen (Opens definitions.alternativesOf) name leaf)
    (fun name name_met ih ⟨some_alternative, found⟩ => ?_) name_met found
  have opens_of_part {part : Symbol} (part_mem : part ∈ formalsOf definitions.alternativesOf name ∨
      IsAlias definitions.alternativesOf name ∧ part ∈ contentsOf definitions.alternativesOf name)
      (mem : leaf ∈ (part.tree (meaning definitions.alternativesOf shapes)).leaves) :
      Relation.TransGen (Opens definitions.alternativesOf) name leaf := by
    obtain ⟨other, names, found⟩ := exists_of_mem_leaves mem
    have opens : Opens definitions.alternativesOf name other := ⟨part, part_mem, names⟩
    rcases found with rfl | found
    · exact .single opens
    · exact .head opens (ih other (.single opens) found)
  rcases found with mem | ⟨is_alias, mem⟩
  · rw [(solves name name_met).formals_eq some_alternative, formalTrees, Tree.leavesOfAll_eq,
      List.flatMap_map, List.mem_flatMap] at mem
    obtain ⟨formal, formal_mem, mem⟩ := mem
    exact opens_of_part (.inl formal_mem) mem
  · rw [(solves name name_met).body_eq is_alias, bodyTree] at mem
    cases body_eq : bodySymbol? (definitions.alternativesOf name) with
    | none => simp [body_eq, Tree.leaves] at mem
    | some content =>
      rw [body_eq] at mem
      exact opens_of_part (.inr ⟨is_alias, by simp [contentsOf_alias is_alias, body_eq]⟩) mem

end Opens

variable {definitions : Definitions} {shapes : Shapes} {symbol : Symbol}
  {type part rebuilt : Ty} {world after : World} {scope wider : Scope} {reified : Reified}
  {name : String}

section Sound

variable {stage again : Stage} (sound : stage.Sound world scope)

include sound

/-- What a type shows which has been reconstructed it shows also by the registry. -/
theorem Stage.Sound.denotes_context {tree : Tree} (denotes : scope.Denotes part tree) :
    (world.context.scope scope.toHeap).Denotes part tree :=
  denotes.of_leaves id (fun _ => id) fun {reference} known leaf _ =>
    ⟨known, reference, Registry.lookupAlias?_eq_some_iff.mpr (sound.leaf_iff.mp leaf), known,
      Store.same_self _⟩

/-- An alias without parameters is declared again as an equal one if the leaves of its body are. -/
theorem Stage.Sound.agree (again_sound : again.Sound after wider)
    (shapes_eq : again.shapes = stage.shapes) (le : Scope.bare scope.toHeap ≤ wider)
    (grows : scope.store.Grows after.store) (closed : ¬stage.expanding name)
    (again_closed : ¬again.expanding name)
    (leaves_agree : IsAlias stage.resolve name → ∀ leaf ∈ (stage.shapes.body name).leaves,
      Context.Agree world.context after leaf) : Context.Agree world.context after name := by
  intro declared second declared_eq second_eq declared_none second_none
  cases sound.declares (Registry.lookupAlias?_eq_some_iff.mp declared_eq) with
  | alias_ name_eq is_alias known _ filled =>
  cases again_sound.declares (Registry.lookupAlias?_eq_some_iff.mp second_eq) with
  | alias_ second_name _ _ _ second_filled =>
  obtain ⟨body, body_eq, denotes⟩ := filled closed
  obtain ⟨second_body, second_body_eq, second_denotes⟩ := second_filled again_closed
  -- Both bodies show the same tree.
  exact Context.same_aliasRef_of_agree again_sound le grows (fun _ => leaves_agree is_alias _) known
    (name_eq.trans second_name.symm) declared_none second_none body_eq
    (again_sound.store_eq ▸ second_body_eq) (sound.denotes_context denotes)
    (shapes_eq ▸ second_denotes) fun _ => id

end Sound

namespace Recaptures

variable (recaptures : Recaptures definitions shapes symbol type world scope reified)
  (restores : Restores reified.definitions shapes scope
    (symbol.tree (meaning definitions.alternativesOf shapes)) rebuilt after wider)

include recaptures

/-- The leaves of what a name stands for are met when the symbol is unfolded. -/
theorem opens_of_leaf {leaf : String} (opened : Opened definitions.alternativesOf symbol name)
    (found : shapes.Leaf definitions.alternativesOf name leaf) :
    Relation.TransGen (Opens definitions.alternativesOf) name leaf :=
  Reconstruct.opens_of_leaf (fun _ _ opened opens => opened.opens (.single opens))
    recaptures.reconstructs.restorable.grounded
    (fun name opened => recaptures.reconstructs.solves name opened.reaches) opened found

include restores

/-- Every alias without parameters is declared again as an equal one. -/
theorem agree (opened : Opened definitions.alternativesOf symbol name) :
    Context.Agree world.context after name := by
  have reconstructs := recaptures.reconstructs
  refine opens_induction (fun _ _ opened opens => opened.opens (.single opens))
    reconstructs.restorable.grounded (fun name opened ih => ?_) opened
  exact reconstructs.sound.agree restores.sound rfl restores.le restores.grows id id
    fun is_alias leaf mem => ih leaf
      (recaptures.opens_of_leaf opened ⟨first?_of_isAlias is_alias, .inr ⟨is_alias, mem⟩⟩)

/-- The rebuilt type equals the type which was reified. -/
theorem same : after.store.same rebuilt type = some true := by
  have reconstructs := recaptures.reconstructs
  refine Store.same_symm (Context.same_of_agree restores.sound restores.le restores.grows
    (fun name opened => recaptures.agree restores opened)
    (reconstructs.sound.denotes_context reconstructs.denotes) restores.denotes fun leaf mem => ?_)
  obtain ⟨other, names, rfl | found⟩ := exists_of_mem_leaves mem
  · exact ⟨leaf, names, .refl⟩
  · have opened : Opened definitions.alternativesOf symbol other := ⟨other, names, .refl⟩
    exact opened.opens (recaptures.opens_of_leaf opened found)

end Recaptures

/-- What is reified of a restorable value is rebuilt to an equal type. -/
theorem Restorable.meets {reified : Reified}
    (restorable : Restorable reified.definitions.alternativesOf reified.symbol) :
    reified.reconstruct.Meets {} (fun type world => world.registry.inherited = [] ∧
      ∀ again, type.reify world.context = .ok again →
        again.reconstruct.Meets { store := world.store } (fun rebuilt after =>
          after.registry.inherited = [] ∧ after.store.same rebuilt type = some true)
          fun _ _ => False) fun _ _ => False := by
  refine restorable.reconstruct_meets.mono (fun type world => ?_) fun _ _ => id
  rintro ⟨shapes, scope, reconstructs⟩
  refine ⟨reconstructs.sound.inherited_eq, fun again reify_eq => ?_⟩
  have recaptures := reconstructs.recaptures reify_eq
  refine recaptures.reconstruct_meets.mono (fun rebuilt after => ?_) fun _ _ => id
  rintro ⟨wider, restores⟩
  exact ⟨restores.sound.inherited_eq, recaptures.same restores⟩

end Reconstruct

/-- A world whose registry inherits nothing has a text. -/
theorem World.exists_display {world : World} (inherited_eq : world.registry.inherited = [])
    (type : Ty) : ∃ text, world.display type = some text := by
  have line (entry : String × Ty) : ∃ text,
      world.registry.declarationLine world.store entry.1 entry.2 = some text := by
    obtain ⟨name, declared⟩ := entry
    cases declared with
    | aliasRef => exact ⟨_, rfl⟩
    | _ =>
      simp only [Registry.declarationLine, Registry.constructorsOf_of_inherited_eq inherited_eq]
      exact ⟨_, rfl⟩
  choose text text_eq using line
  have lines_eq : world.registry.own.declarations.entries.mapM (fun entry =>
      world.registry.declarationLine world.store entry.1 entry.2) = some _ :=
    (congrArg (List.mapM · _) (funext text_eq)).trans List.mapM_pure
  simp only [display, Registry.displayLines, lines_eq]
  exact ⟨_, rfl⟩

/-- The reified type which a value is. -/
def Value.reified? : Value → Option Reified
  | .type reified => some reified
  | _ => none

theorem Value.parse?_eq_of_bind {text : String} {reified : Reified}
    (bind_eq : (parse? text).bind reified? = some reified) : parse? text = some (.type reified) := by
  obtain ⟨value, value_eq, reified_eq⟩ := Option.bind_eq_some_iff.mp bind_eq
  cases value with
  | type => rw [value_eq, Option.some.inj reified_eq]
  | _ => cases reified_eq

namespace Case

/-- Whether the value which a text denotes is reconstructed to a type and, if this is reified, an equal
type is rebuilt in another empty registry. -/
def Restores (reified : Reified) : Prop :=
  reified.reconstruct.Meets {} (fun type world => ∀ again, type.reify world.context = .ok again →
    again.reconstruct.Meets { store := world.store }
      (fun rebuilt after => after.store.same rebuilt type = some true) fun _ _ => False)
    fun _ _ => False

theorem rebuild_succeeded {store : Store} {before : Ty} {reified : Reified}
    (meets : reified.reconstruct.Meets { store } (fun rebuilt after =>
      after.registry.inherited = [] ∧ after.store.same rebuilt before = some true)
      fun _ _ => False) : (rebuild store before reified).succeeded = true := by
  rw [rebuild]
  rcases run_eq : reified.reconstruct.run { store } with ⟨failure | rebuilt, after⟩
  · exact ((Building.meets_iff_of_run_eq_error run_eq).mp meets).elim
  · obtain ⟨inherited_eq, same⟩ := (Building.meets_iff_of_run_eq_ok run_eq).mp meets
    obtain ⟨text, display_eq⟩ := World.exists_display inherited_eq rebuilt
    simp only [same, Outcome.ofWorld, display_eq]
    rfl

theorem ofWorld_phase (phase : Phase) (world : World) (type : Ty) :
    (Outcome.ofWorld phase world type).phase = phase := by
  rw [Outcome.ofWorld]
  split <;> rfl

theorem reifyOn_succeeds {world : World} {type : Ty} (meets : ∀ again,
      type.reify world.context = .ok again → again.reconstruct.Meets { store := world.store }
        (fun rebuilt after =>
          after.registry.inherited = [] ∧ after.store.same rebuilt type = some true)
        fun _ _ => False) {outcome : Outcome} (mem : outcome ∈ reifyOn world type)
    (phase_eq : outcome.phase = .rebuild) : outcome.succeeded = true := by
  rw [reifyOn] at mem
  cases reify_eq : type.reify { store := world.store, registry := world.registry } with
  | error failure =>
    rw [reify_eq, List.mem_singleton] at mem
    cases mem ▸ phase_eq
  | ok again =>
    rw [reify_eq] at mem
    obtain rfl | rfl := List.mem_pair.mp mem
    · cases phase_eq
    · exact rebuild_succeeded (meets again reify_eq)

theorem reconstructOn_succeeds {value : Value} (restorable : ∀ reified, value = .type reified →
      Reconstruct.Restorable reified.definitions.alternativesOf reified.symbol) {outcome : Outcome}
    (mem : outcome ∈ reconstructOn value) (phase_eq : outcome.phase = .rebuild) :
    outcome.succeeded = true := by
  rw [reconstructOn] at mem
  rcases run_eq : value.reconstruct.run {} with ⟨failure | type, world⟩
  · rw [run_eq, List.mem_singleton] at mem
    cases mem ▸ phase_eq
  · rw [run_eq] at mem
    obtain rfl | mem_type := List.mem_cons.mp mem
    · cases (ofWorld_phase ..).symm.trans phase_eq
    · cases value with
      | type reified =>
        obtain ⟨-, meets⟩ :=
          (Building.meets_iff_of_run_eq_ok run_eq).mp (restorable reified rfl).meets
        exact reifyOn_succeeds meets mem_type phase_eq
      | _ => cases run_eq

def loose : Reified where
  symbol := .tuple [.aliasRef "R" [], .constructor (.constructor (.dataRef "D" []) "c" []) "d" []]
  definitions := ⟨[
    ("A", ⟨.aliasRef "A" [.parameter "T" (.prim .value)], .ofList [{
      subject := .aliasRef "A" [.parameter "T" (.prim .value)]
      symbols := [.list (.parameter "T" (.prim .value))] }]⟩),
    ("D", ⟨.dataRef "D" [], .ofList [{
      subject := .dataRef "E" [], name := some "c", symbols := [.label "x" (.aliasRef "A" [])] }]⟩),
    ("R", ⟨.aliasRef "R" [], .ofList [{
      subject := .aliasRef "R" [], symbols := [.dataRef "D" [.prim .int]] }]⟩)], by decide⟩

def loose.text : String :=
  "\x7b\"type\":\x7b\"symbol\":\x7b\"tuple\":[\x7b\"alias\":\x7b\"name\":\"R\"," ++
    "\"parameters\":[]\x7d\x7d," ++
    "\x7b\"cons\":\x7b\"adt\":\x7b\"cons\":\x7b\"adt\":\x7b\"adt\":\x7b\"name\":\"D\"," ++
    "\"parameters\":[]\x7d\x7d,\"name\":\"c\",\"parameters\":[]\x7d\x7d,\"name\":\"d\"," ++
    "\"parameters\":[]\x7d\x7d]\x7d," ++
    "\"definitions\":\x7b\"A\":\x7b\"def\":\x7b\"alias\":\x7b\"name\":\"A\"," ++
    "\"parameters\":[\x7b\"parameter\":\x7b\"name\":\"T\",\"bound\":\"value\"\x7d\x7d]\x7d\x7d," ++
    "\"alternatives\":[\x7b\"def\":\x7b\"alias\":\x7b\"name\":\"A\"," ++
    "\"parameters\":[\x7b\"parameter\":\x7b\"name\":\"T\",\"bound\":\"value\"\x7d\x7d]\x7d\x7d," ++
    "\"symbols\":[\x7b\"list\":\x7b\"parameter\":\x7b\"name\":\"T\",\"bound\":\"value\"\x7d\x7d" ++
    "\x7d]\x7d]\x7d,\"D\":\x7b\"def\":\x7b\"adt\":\x7b\"name\":\"D\",\"parameters\":[]\x7d\x7d," ++
    "\"alternatives\":[\x7b\"def\":\x7b\"adt\":\x7b\"name\":\"E\",\"parameters\":[]\x7d\x7d," ++
    "\"symbols\":[\x7b\"label\":\x7b\"name\":\"x\",\"symbol\":\x7b\"alias\":\x7b\"name\":\"A\"," ++
    "\"parameters\":[]\x7d\x7d\x7d\x7d],\"name\":\"c\"\x7d]\x7d," ++
    "\"R\":\x7b\"def\":\x7b\"alias\":\x7b\"name\":\"R\",\"parameters\":[]\x7d\x7d," ++
    "\"alternatives\":[\x7b\"def\":\x7b\"alias\":\x7b\"name\":\"R\",\"parameters\":[]\x7d\x7d," ++
    "\"symbols\":[\x7b\"adt\":\x7b\"name\":\"D\",\"parameters\":[\"int\"]\x7d\x7d]\x7d]\x7d\x7d" ++
    "\x7d\x7d"

theorem loose.parse_eq : Value.parse? loose.text = some (.type loose) := by
  refine Value.parse?_eq_of_bind ?_
  rw [Value.parse?, Json.parse?]
  delta loose.text
  simp only [String.toList_append]
  repeat rewrite [String.toList_ofList]
  decide +kernel

theorem loose.not_isAlias : ¬Reconstruct.IsAlias loose.definitions.alternativesOf "D" := by
  rintro ⟨_, _, subject_eq⟩
  cases subject_eq

open Reconstruct in
theorem loose.restorable : Restorable loose.definitions.alternativesOf loose.symbol := by
  have known {name : String} (reaches : Reaches loose.definitions.alternativesOf loose.symbol name) :
      name ∈ ["A", "D", "R"] := reaches.mem_of_closed (by decide) (by decide)
  have formals : ∀ name ∈ ["A", "D", "R"], ∀ formal ∈ formalsOf loose.definitions.alternativesOf name,
      formal.mentions = [] := by decide
  have plain {name other : String} (reaches : Reaches loose.definitions.alternativesOf loose.symbol name)
      {formal : Symbol} (mem : formal ∈ formalsOf loose.definitions.alternativesOf name) :
      ¬formal.Names other := by
    rintro ⟨mention, mention_mem, -⟩
    rw [formals name (known reaches) formal mem] at mention_mem
    cases mention_mem
  have parts : ∀ name ∈ ["A", "D", "R"], ∀ part ∈ formalsOf loose.definitions.alternativesOf name ++
      contentsOf loose.definitions.alternativesOf name, part.owners = [] ∧
        (∀ mention ∈ part.mentions, mention.declared? ≠ none) ∧
        ∀ found ∈ part.typeParameters, found.2 = .prim .value := by decide
  refine ⟨fun name reaches => ?_, fun name reaches => ⟨fun _ => .prim .value,
    fun other path part has_part => ?_⟩, fun name reaches _ _ formal mem _ => plain reaches mem,
    fun name reaches _ some_formal part mem => ?_, fun name opened cycle => ?_,
    fun visited goes owner mem => ?_, fun name _ _ met => ?_⟩
  case refine_1 =>
    rintro ⟨formal, mem, other, names, -⟩
    exact plain reaches mem names
  case refine_2 =>
    have other_reaches : Reaches loose.definitions.alternativesOf loose.symbol other := by
      obtain ⟨first, names, first_path⟩ := reaches
      exact ⟨first, names, first_path.trans (path.lift id
        fun _ _ ⟨_, has_part, names⟩ => (has_part.opens names).leads)⟩
    refine (parts other (known other_reaches) part (List.mem_append.mpr ?_)).2.2
    exact has_part.imp_right fun found => found.2.2
  case refine_3 =>
    have plain : ∀ name ∈ ["A", "D", "R"], formalsOf loose.definitions.alternativesOf name ≠ [] →
        ∀ part ∈ contentsOf loose.definitions.alternativesOf name, part.mentions = [] := by decide
    rintro ⟨first, ⟨mention, mention_mem, -⟩, -⟩
    rw [plain name (known reaches) some_formal part mem] at mention_mem
    cases mention_mem
  case refine_4 =>
    -- Only aliases unfold, and their bodies mention at most a data type.
    have data : ∀ name ∈ ["A", "D", "R"], name = "D" ∨
        ∀ part ∈ contentsOf loose.definitions.alternativesOf name, ∀ mention ∈ part.mentions,
          mention.name = "D" := by decide
    have opens_data {name other : String}
        (opened : Opened loose.definitions.alternativesOf loose.symbol name)
        (opens : Opens loose.definitions.alternativesOf name other) : name ≠ "D" ∧ other = "D" := by
      obtain ⟨part, mem | ⟨is_alias, mem⟩, names⟩ := opens
      · exact absurd names (plain opened.reaches mem)
      · have no_data : name ≠ "D" := by
          rintro rfl
          exact loose.not_isAlias is_alias
        obtain ⟨mention, mention_mem, declared⟩ := names
        exact ⟨no_data, (Mention.name_of_declared declared).symm.trans
          ((data name (known opened.reaches)).resolve_left no_data part mem mention mention_mem)⟩
    obtain ⟨other, opens, path⟩ := Relation.TransGen.head'_iff.mp cycle
    obtain ⟨no_data, rfl⟩ := opens_data opened opens
    rcases path.cases_head with rfl | ⟨last, next, -⟩
    · exact no_data rfl
    · exact (opens_data (opened.opens (.single opens)) next).1 rfl
  case refine_5 =>
    rcases goes with rfl | ⟨name, reaches, part_mem⟩
    · obtain rfl | rfl := List.mem_pair.mp mem
      · refine .inr fun shapes _ => ?_
        have named_eq : ((meaning loose.definitions.alternativesOf shapes).named "D" []).ownerName =
            "D" := Meaning.ownerName_named (fun _ => isReference_of_meaning) []
        have name_eq : ((Symbol.constructor (.dataRef "D" []) "c" []).tree
            (meaning loose.definitions.alternativesOf shapes)).ownerName = "D" := named_eq
        rw [name_eq]
        exact .inr ⟨⟨.dataRef "D", List.mem_of_elem_eq_true rfl, rfl⟩, rfl⟩
      · exact .inl trivial
    · rw [(parts name (known reaches) visited part_mem).1] at mem
      cases mem
  case refine_6 =>
    obtain ⟨visited, rfl | ⟨user, reaches, part_mem⟩, mem⟩ := met
    · have declared : ∀ mention ∈ loose.symbol.mentions, mention.declared? ≠ none := by decide
      exact declared _ mem rfl
    · exact (parts user (known reaches) visited part_mem).2.1 _ mem rfl

def madeUp : Reified where
  symbol := .constructor (.constructor (.dataRef "D" []) "c" []) "d" []
  definitions := ⟨[("D", ⟨.dataRef "D" [.parameter "T" (.prim .value)], .ofList [{
    subject := .dataRef "D" [.parameter "T" (.prim .value)], name := some "c" }]⟩)], by decide⟩

def madeUp.text : String :=
  "\x7b\"type\":\x7b\"symbol\":\x7b\"cons\":\x7b\"adt\":\x7b\"cons\":\x7b\"adt\":\x7b" ++
    "\"adt\":\x7b\"name\":\"D\",\"parameters\":[]\x7d\x7d,\"name\":\"c\",\"parameters\":[]\x7d" ++
    "\x7d,\"name\":\"d\",\"parameters\":[]\x7d\x7d," ++
    "\"definitions\":\x7b\"D\":\x7b\"def\":\x7b\"adt\":\x7b\"name\":\"D\"," ++
    "\"parameters\":[\x7b\"parameter\":\x7b\"name\":\"T\",\"bound\":\"value\"\x7d\x7d]\x7d\x7d," ++
    "\"alternatives\":[\x7b\"def\":\x7b\"adt\":\x7b\"name\":\"D\"," ++
    "\"parameters\":[\x7b\"parameter\":\x7b\"name\":\"T\",\"bound\":\"value\"\x7d\x7d]\x7d\x7d," ++
    "\"symbols\":[],\"name\":\"c\"\x7d]\x7d\x7d\x7d\x7d"

theorem madeUp.parse_eq : Value.parse? madeUp.text = some (.type madeUp) := by
  refine Value.parse?_eq_of_bind ?_
  rw [Value.parse?, Json.parse?]
  delta madeUp.text
  simp only [String.toList_append]
  repeat rewrite [String.toList_ofList]
  decide +kernel

end Case

end Reification
