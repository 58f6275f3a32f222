import Reification.Proofs.Coverage

/-!
# Conflicting declarations

A reconstruction fails only because the formal parameters of a name lead back to it: the name is
then declared within its own expansion, before that declares it.  For an alias the two declarations
always differ, since the body of the inner one is known and that of the outer one is not.
-/

namespace Reification.Reconstruct

variable {resolve : Resolver} {world : World}

theorem first?_ne_none_of_leads {name other : String} (leads : Leads resolve name other) :
    (resolve name).first? ≠ none := by
  obtain ⟨symbol, mem, -⟩ := leads
  exact first?_of_mem mem

/-- If nothing is being expanded, everything is declared that a covered symbol reaches. -/
theorem Complete.declared_of_reaches (complete : Complete resolve (fun _ => False) world)
    {symbol : Symbol} (covered : ∀ mention ∈ symbol.mentions, Covered resolve world mention)
    {name : String} (reaches : Reaches resolve symbol name)
    (some_alternative : (resolve name).first? ≠ none) :
    world.registry.lookup? name ≠ none := by
  have declared_of_names {symbol : Symbol} {other : String}
      (covered : ∀ mention ∈ symbol.mentions, Covered resolve world mention)
      (names : symbol.Names other) (some_alternative : (resolve other).first? ≠ none) :
      world.registry.lookup? other ≠ none := by
    obtain ⟨mention, mem, declared_eq⟩ := names
    cases mention with
    | sort => simp [Mention.declared?] at declared_eq
    | dataRef | aliasRef =>
      obtain rfl := Option.some.inj declared_eq
      exact covered _ mem some_alternative
  obtain ⟨first, names, path⟩ := reaches
  induction path with
  | refl => exact declared_of_names covered names some_alternative
  | tail _ leads ih =>
    obtain ⟨type, declared⟩ := Option.ne_none_iff_exists'.mp (ih (first?_ne_none_of_leads leads))
    obtain ⟨part, mem, part_names⟩ := leads
    refine declared_of_names (fun mention mention_mem => ?_) part_names some_alternative
    refine (complete declared id).2 mention ?_
    rw [mentionsOf, Symbol.mentionsOfAll_eq]
    exact List.mem_flatMap.mpr ⟨part, mem, mention_mem⟩

theorem complete_fresh (expanding : String → Prop) (store : Store) :
    Complete resolve expanding { store } :=
  fun _ _ declared => absurd declared (by simp [Registry.lookup?, Registry.layers])

/-- A new alias differs from all types whose bodies are known. -/
theorem same_newAlias_ne_true {store : Store} {existing : Ty} (fills : store.Fills existing)
    (name : String) (formals : List Ty) :
    (store.makeAlias name formals none).2.same existing
      (.aliasRef (store.makeAlias name formals none).1) ≠ some true := by
  intro equal
  obtain ⟨other, rfl, same⟩ := Ty.aliasRef_sameWith_iff.mp (Store.same_symm equal)
  obtain ⟨body, body_eq⟩ := Option.ne_none_iff_exists'.mp fills
  have below := Store.lt_size_of_body? body_eq
  rcases same with object_eq | ⟨-, -, bodies⟩
  · simp only [Store.makeAlias] at object_eq
    omega
  · simp [Store.sameBody, Store.body?_makeAlias, below.ne, body_eq] at bodies
    simp [Store.makeAlias] at bodies

/-- An alias which its formal parameters lead back to is never reconstructed. -/
theorem expandWithin_fails {name : String} (is_alias : IsAlias resolve name)
    (repeated : ReachesItself resolve name) {production : Production}
    (first_eq : (resolve name).first? = some production)
    (complete : Complete resolve (fun _ => False) world) (depth : Nat) :
    (expandWithin resolve depth name production.subject).Meets world (fun _ _ => False)
      fun _ _ => True := by
  cases depth with
  | zero => trivial
  | succ depth =>
    obtain ⟨other, parameters, subject_eq⟩ := is_alias
    obtain ⟨formal, formal_mem, reaches⟩ := repeated
    rw [subjectOf?, first_eq, Option.map_some, Option.some.injEq] at subject_eq
    have formals_eq := formalsOf_eq_of_alias first_eq subject_eq
    have formals_keep : Keeps resolve (fun _ => True)
        (Symbol.mentionsOfAll (formalsOf resolve name))
        (typesWith (namedWith resolve (expandWithin resolve depth)) (sortWith resolve)
          (formalsOf resolve name)) world :=
      typesWith_keeps fun symbol _ world =>
        (typeWithin_keeps depth symbol world).mono fun _ _ => trivial
    simp only [expandWithin, subject_eq]
    rw [← formals_eq]
    refine Building.Meets.bind formals_keep ?_ fun _ _ _ => trivial
    rintro formals after ⟨advances, covered⟩
    have declared : after.registry.lookup? name ≠ none := by
      refine (advances.complete complete).declared_of_reaches (fun mention mem => ?_) reaches
        (by simp [first_eq])
      refine covered mention ?_
      rw [Symbol.mentionsOfAll_eq]
      exact List.mem_flatMap.mpr ⟨formal, formal_mem, mem⟩
    obtain ⟨existing, lookup_eq⟩ := Option.ne_none_iff_exists'.mp declared
    have fills := (advances.complete complete lookup_eq id).1
    rw [declareAlias_eq]
    refine Building.meets_bind.mpr (Building.meets_make.mpr ?_)
    rw [Making.run_newAlias]
    refine Building.meets_bind.mpr (Building.meets_register.mpr ?_)
    have differs := same_newAlias_ne_true fills name formals
    rw [Registry.declare_of_declared lookup_eq]
    split
    · next registry declare_eq =>
      split at declare_eq
      · next equal => exact absurd equal differs
      · simp at declare_eq
      · simp at declare_eq
    · trivial

/-- A reconstruction into a fresh registry which ends fails only if a name which it reaches leads
back to itself through its formal parameters; then the two declarations of that name conflict.  An
alias which leads back to itself in this way is not reconstructed from its own symbol. -/
theorem reconstruct_fails_by_formals (definitions : Definitions) :
    (∀ symbol failure world,
      (Reified.reconstruct ⟨symbol, definitions⟩).run.run {} = (.error failure, world) →
        failure = .endless ∨ ∃ name existing offered,
          Reaches definitions.alternativesOf symbol name ∧
            ReachesItself definitions.alternativesOf name ∧
            failure = .error (.conflicting name existing offered)) ∧
      ∀ name, IsAlias definitions.alternativesOf name →
        ReachesItself definitions.alternativesOf name → ∀ type world,
          (Reified.reconstruct ⟨.aliasRef name [], definitions⟩).run.run {} ≠ (.ok type, world) := by
  refine ⟨fun symbol failure world run_eq => ?_, fun name is_alias repeated type world run_eq => ?_⟩
  · exact (Building.meets_iff_of_run_eq_error run_eq).mp
      (typeWithin_keeps (maxDepth definitions) symbol {})
  · obtain ⟨other, parameters, subject_eq⟩ := is_alias
    obtain ⟨production, first_eq, -⟩ := Option.map_eq_some_iff.mp subject_eq
    have fails := expandWithin_fails ⟨other, parameters, subject_eq⟩ repeated first_eq
      (complete_fresh _ {}) (maxDepth definitions)
    suffices never : (Reified.reconstruct ⟨.aliasRef name [], definitions⟩).Meets {}
        (fun _ _ => False) fun _ _ => True from (Building.meets_iff_of_run_eq_ok run_eq).mp never
    simp only [Reified.reconstruct, typeOf, typeWithin, typeWith, typesWith, pure_bind, namedWith]
    refine Building.meets_bind.mpr (Building.meets_get.mpr ?_)
    have undeclared : ({} : World).registry.lookup? name = none := rfl
    rw [undeclared]
    simp only [first_eq]
    exact Building.Meets.bind fails (fun _ _ impossible => impossible.elim) fun _ _ _ => trivial

/-- An alias whose formal parameter is bounded by a data type with a field of that alias. -/
def boundedByUser : Definitions where
  entries := [
    ("P", {
      subject := .aliasRef "P" []
      alternatives := ⟨[{
        subject := .aliasRef "P" [.parameter "T" (.dataRef "Y" [])]
        symbols := [.prim .int] }], List.pairwise_singleton _ _⟩ }),
    ("Y", {
      subject := .dataRef "Y" []
      alternatives := ⟨[{
        subject := .dataRef "Y" []
        name := some "y"
        symbols := [.aliasRef "P" []] }], List.pairwise_singleton _ _⟩ })]
  increasing := by decide

theorem boundedByUser_reachesItself : ReachesItself boundedByUser.alternativesOf "P" := by
  refine ⟨.parameter "T" (.dataRef "Y" []), List.mem_singleton_self _, "Y", by simp, .single ?_⟩
  exact ⟨.aliasRef "P" [], List.mem_singleton_self _, by simp⟩

/-- The alias cannot be reconstructed: its two declarations conflict. -/
theorem boundedByUser_conflicts : ∃ world,
    (Reified.reconstruct ⟨.aliasRef "P" [], boundedByUser⟩).run.run {} =
      (.error (.error (.conflicting "P" "P[&T <: Y]" "P[&T <: Y]")), world) :=
  ⟨_, rfl⟩

theorem boundedByUser_never_ok : IsAlias boundedByUser.alternativesOf "P" ∧
    ReachesItself boundedByUser.alternativesOf "P" ∧ ∀ type world,
      (Reified.reconstruct ⟨.aliasRef "P" [], boundedByUser⟩).run.run {} ≠ (.ok type, world) :=
  ⟨⟨_, _, rfl⟩, boundedByUser_reachesItself,
    (reconstruct_fails_by_formals boundedByUser).2 "P" ⟨_, _, rfl⟩ boundedByUser_reachesItself⟩

end Reification.Reconstruct
