import Reification.Proofs.Rebuilt

/-!
# Reified values are fixed points

A described type is reified, its value is reconstructed into a fresh registry, and the result is
reified again with that registry.  If every data type has a constructor and equal ones have the same
attributes, both values are the same.
-/

namespace Reification.Reify

/-- The symbols of the parameters of a subject. -/
def Entry.formals (entry : Entry) : List Symbol :=
  match entry.subject with
  | .dataRef _ parameters | .aliasRef _ parameters => parameters
  | _ => []

/-- What an entry mentions is mentioned in its formal parameters or in its alternatives; those of a
nonterminal do not count. -/
theorem Context.mem_mentions_entry {context : Context} {mention next : Mention} {entry : Entry}
    (entry_eq : context.entryOf? mention = some entry) (declared : mention.declared? ≠ none) :
    next ∈ Symbol.mentionsOfAll entry.symbols ↔ next ∈ Symbol.mentionsOfAll entry.formals ∨
      ∃ production ∈ entry.choice.alternatives, next ∈ Symbol.mentionsOfAll production.symbols := by
  cases mention with
  | dataRef name =>
    obtain ⟨reference, -, rest⟩ := Option.bind_eq_some_iff.mp entry_eq
    obtain ⟨constructors, -, rest⟩ := Option.bind_eq_some_iff.mp rest
    obtain rfl := Option.some.inj rest
    rw [Symbol.mentionsOfAll_append, List.mem_append]
    refine or_congr_right ?_
    rw [Symbol.mentionsOfAll_eq, List.flatMap_assoc, List.mem_flatMap]
    simp only [Entry.choice, OrderedSet.mem_ofList, List.mem_map, exists_exists_and_eq_and,
      Constructor.production, Symbol.mentionsOfAll_eq]
  | aliasRef name =>
    obtain ⟨reference, -, rest⟩ := Option.bind_eq_some_iff.mp entry_eq
    obtain ⟨body, -, rest⟩ := Option.bind_eq_some_iff.mp rest
    obtain rfl := Option.some.inj rest
    rw [Symbol.mentionsOfAll_append, List.mem_append]
    refine or_congr_right ?_
    simp only [Entry.choice, OrderedSet.mem_ofList, List.mem_singleton, exists_eq_left,
      Production.ofAlias]
  | sort name => exact absurd rfl declared

namespace Context

variable {context : Context} {heap : Heap} {type : Ty} {reified : Reified}

/-- Whether every data type which is reached has a constructor. -/
def Inhabited (context : Context) (type : Ty) : Prop :=
  ∀ ⦃name⦄, context.Reaches type (.dataRef name) →
    context.registry.declaredConstructors name ≠ []

/-- The context with the store and the registry of a world. -/
def inside (context : Context) (world : World) : Context :=
  { context with store := world.store, registry := world.registry }

theorem Inhabited.first?_ne_none (inhabited : context.Inhabited type)
    (describes : context.Describes heap type) (captures : context.Captures type reified)
    {mention : Mention} (reaches : context.Reaches type mention)
    (declared : mention.declared? ≠ none) :
    (reified.definitions.alternativesOf mention.name).first? ≠ none := by
  cases mention with
  | dataRef name =>
    obtain ⟨declared, declared_eq, -⟩ := describes.data reaches
    obtain ⟨constructors, constructors_eq, -, kept, -⟩ := describes.exists_constructors reaches
    obtain ⟨constructor, mem⟩ := List.exists_mem_of_ne_nil _ (inhabited reaches)
    obtain ⟨one, one_mem, -⟩ := kept constructor mem
    exact fun none => OrderedSet.not_mem_of_first?_eq_none none _
      ((captures.resolves.mem_data reaches declared_eq constructors_eq).mpr ⟨one, one_mem, rfl⟩)
  | aliasRef name =>
    obtain ⟨declared, body, declared_eq, -, -, -, body_eq⟩ := describes.alias_ reaches
    intro none
    cases none.symm.trans (captures.resolves.first?_alias reaches declared_eq body_eq)
  | sort name => exact absurd rfl declared

namespace Rebuilds

variable {rebuilt : Ty} {after : World} {wider : Scope}

/-- Everything which is reached is covered if every data type has a constructor. -/
theorem covered_of_reaches (rebuilds : context.Rebuilds heap type reified rebuilt after wider)
    (describes : context.Describes heap type) (captures : context.Captures type reified)
    (inhabited : context.Inhabited type) {mention : Mention}
    (reaches : context.Reaches type mention) :
    Reconstruct.Covered reified.definitions.alternativesOf after mention := by
  obtain ⟨first, mem, path⟩ := reaches
  induction path with
  | refl => exact rebuilds.covered first mem
  | @tail user next path uses ih =>
    refine rebuilds.covered_of_uses describes captures ⟨first, mem, path⟩ ih uses (.inr ?_)
    refine inhabited.first?_ne_none describes captures ⟨first, mem, path⟩ ?_
    rintro none
    cases user with
    | dataRef name | aliasRef name => cases none
    | sort name => simp [Uses, partsOf] at uses

/-- The rules of a nonterminal are declared again. -/
theorem rulesOf_eq (rebuilds : context.Rebuilds heap type reified rebuilt after wider)
    (describes : context.Describes heap type) (captures : context.Captures type reified)
    (inhabited : context.Inhabited type) {name : String}
    (reaches : context.Reaches type (.sort name)) :
    rulesOf (context.inside after) name = rulesOf context name := by
  have resolve_eq : reified.definitions.alternativesOf name = rulesOf context name :=
    (captures.resolves reaches rfl).trans (OrderedSet.ofList_toList _)
  have covered := rebuilds.covered_of_reaches describes captures inhabited reaches
  refine OrderedSet.ext fun rule => ?_
  change rule ∈ Definitions.alternativesOf context.grammar name ∪ after.registry.rulesOf name ↔ _
  rw [OrderedSet.mem_union]
  constructor
  · rintro (mem | mem)
    · exact OrderedSet.mem_union.mpr (.inl mem)
    · have resolved : rule ∈ reified.definitions.alternativesOf name := rebuilds.sound.rules_le mem
      rwa [resolve_eq] at resolved
  · exact fun mem => .inr (covered rule (resolve_eq ▸ mem))

/-- A name which is reached has the same choice again. -/
theorem exists_entry (rebuilds : context.Rebuilds heap type reified rebuilt after wider)
    (describes : context.Describes heap type) (captures : context.Captures type reified)
    (inhabited : context.Inhabited type) (consistent : context.Consistent type) {mention : Mention}
    (reaches : context.Reaches type mention) {entry : Entry}
    (entry_eq : context.entryOf? mention = some entry) :
    ∃ again, (context.inside after).entryOf? mention = some again ∧ again.choice = entry.choice := by
  cases mention with
  | dataRef name =>
    obtain ⟨declared, declared_eq, -⟩ := describes.data reaches
    obtain ⟨constructors, constructors_eq, -⟩ := describes.exists_constructors reaches
    obtain rfl := Option.some.inj
      (entry_eq.symm.trans (entryOf?_dataRef declared_eq constructors_eq))
    obtain ⟨reference, reference_eq, -, -, denote⟩ := rebuilds.exists_data describes captures reaches
      declared_eq (inhabited.first?_ne_none describes captures reaches (by simp [Mention.declared?]))
    have formals_eq := denote.symbols_eq (describes.formals_denote reaches declared_eq)
    have again_eq : after.registry.constructorsOf after.store name =
        some (after.registry.own.constructorsOf name) :=
      Registry.constructorsOf_of_inherited_eq rebuilds.sound.inherited_eq _ _
    refine ⟨_, @entryOf?_dataRef (context.inside after) _ _ _ reference_eq again_eq, ?_⟩
    rw [Entry.choice, Entry.choice, formals_eq]
    refine congrArg (Choice.mk _) (OrderedSet.ext fun production => ?_)
    rw [OrderedSet.mem_ofList, OrderedSet.mem_ofList]
    exact rebuilds.mem_production_iff describes captures reaches declared_eq constructors_eq
      consistent
  | aliasRef name =>
    obtain ⟨declared, body, declared_eq, -, -, -, body_eq⟩ := describes.alias_ reaches
    obtain rfl := Option.some.inj (entry_eq.symm.trans (entryOf?_aliasRef declared_eq body_eq))
    obtain ⟨reference, again, reference_eq, -, -, again_eq, denotes, formals_eq⟩ :=
      rebuilds.exists_alias describes captures reaches declared_eq body_eq
    refine ⟨_, @entryOf?_aliasRef (context.inside after) _ _ _ reference_eq again_eq, ?_⟩
    have body_denotes := describes.denotes
      (.inr ⟨_, reaches, (mem_partsOf_alias declared_eq).mpr (.inr body_eq)⟩)
    rw [← describes.declaredBody_eq reaches declared_eq body_eq] at body_denotes
    rw [Entry.choice, Entry.choice, formals_eq, denotes.symbol_eq, body_denotes.symbol_eq]
  | sort name =>
    obtain rfl := Option.some.inj entry_eq
    refine ⟨_, rfl, ?_⟩
    rw [Entry.choice, Entry.choice, rebuilds.rulesOf_eq describes captures inhabited reaches]

/-- A name which is reached leads again to what it leads to. -/
theorem leads_iff (rebuilds : context.Rebuilds heap type reified rebuilt after wider)
    (describes : context.Describes heap type) (captures : context.Captures type reified)
    (inhabited : context.Inhabited type) (consistent : context.Consistent type)
    {mention next : Mention} (reaches : context.Reaches type mention) :
    (context.inside after).Leads mention next ↔ context.Uses mention next := by
  rw [← describes.leads_iff reaches]
  obtain ⟨entry, entry_eq⟩ := describes.exists_entry reaches
  obtain ⟨again, again_eq, choice_eq⟩ :=
    rebuilds.exists_entry describes captures inhabited consistent reaches entry_eq
  simp only [Leads, entry_eq, again_eq, Option.some.injEq, exists_eq_left']
  by_cases declared : mention.declared? = none
  · cases mention with
    | dataRef name | aliasRef name => cases declared
    | sort name =>
      obtain rfl := Option.some.inj entry_eq
      obtain rfl := Option.some.inj again_eq
      rfl
  · have formals_eq : again.formals = entry.formals := by
      have subject_eq : again.subject = entry.subject := congrArg Choice.subject choice_eq
      rw [Entry.formals, Entry.formals, subject_eq]
    rw [mem_mentions_entry again_eq declared, mem_mentions_entry entry_eq declared, choice_eq,
      formals_eq]

/-- Reifying the rebuilt type gives the value from which it has been rebuilt. -/
theorem reify_eq (rebuilds : context.Rebuilds heap type reified rebuilt after wider)
    (describes : context.Describes heap type) (captures : context.Captures type reified)
    (inhabited : context.Inhabited type) (consistent : context.Consistent type) :
    rebuilt.reify (context.inside after) = .ok reified := by
  have symbol_eq : rebuilt.symbol = type.symbol :=
    rebuilds.denotes.symbol_eq.trans (describes.denotes (.inl rfl)).symbol_eq.symm
  have meets_iff {mention : Mention} :
      (context.inside after).Meets rebuilt.symbol.mentions mention ↔
        context.Reaches type mention := by
    rw [symbol_eq]
    constructor
    · rintro ⟨first, mem, path⟩
      induction path with
      | refl => exact ⟨first, mem, .refl⟩
      | tail _ leads ih =>
        exact ih.uses ((rebuilds.leads_iff describes captures inhabited consistent ih).mp leads)
    · rintro ⟨first, mem, path⟩
      induction path with
      | refl => exact ⟨first, mem, .refl⟩
      | tail path uses ih =>
        exact ih.leads ((rebuilds.leads_iff describes captures inhabited consistent
          ⟨first, mem, path⟩).mpr uses)
  have one_kind : (context.inside after).OneKind rebuilt.symbol.mentions :=
    fun mention other meets other_meets same _ _ =>
      describes.one_kind (meets_iff.mp meets) (meets_iff.mp other_meets) same
  have spec := reify_spec (context.inside after) rebuilt one_kind
  simp only [meets_iff] at spec
  rcases again_eq : rebuilt.reify (context.inside after) with failure | again
  · rw [again_eq] at spec
    obtain ⟨mention, meets, entry_eq⟩ := spec
    have reaches := meets_iff.mp meets
    obtain ⟨entry, found⟩ := describes.exists_entry reaches
    obtain ⟨other, other_eq, -⟩ :=
      rebuilds.exists_entry describes captures inhabited consistent reaches found
    simp [entry_eq] at other_eq
  · rw [again_eq] at spec
    obtain ⟨again_symbol, -, recorded, others⟩ := spec
    have definitions_eq : again.definitions = reified.definitions := Table.ext fun name => by
      by_cases met : ∃ mention, context.Reaches type mention ∧ mention.name = name
      · obtain ⟨mention, reaches, rfl⟩ := met
        obtain ⟨entry, entry_eq⟩ := describes.exists_entry reaches
        obtain ⟨other, other_eq, choice_eq⟩ :=
          rebuilds.exists_entry describes captures inhabited consistent reaches entry_eq
        rw [recorded mention other reaches other_eq, captures.get?_eq reaches entry_eq, choice_eq]
      · have unmet : ∀ mention, context.Reaches type mention → mention.name ≠ name :=
          fun mention reaches same => met ⟨mention, reaches, same⟩
        rw [others name unmet, captures.others unmet]
        rfl
    obtain ⟨symbol, definitions⟩ := again
    obtain ⟨first, _⟩ := reified
    obtain rfl : symbol = first := again_symbol.trans (symbol_eq.trans captures.symbol_eq.symm)
    exact congrArg (fun definitions => Except.ok (Reified.mk symbol definitions)) definitions_eq

end Rebuilds

/-- Whether a type is reified to a value which is reified again, exactly, after it has been
reconstructed into a fresh registry. -/
def ReifiesAgain (context : Context) (type : Ty) : Prop :=
  ∃ reified, type.reify context = .ok reified ∧
    reified.reconstruct.Meets { store := context.store }
      (fun rebuilt after => rebuilt.reify (context.inside after) = .ok reified)
      fun _ _ => False

/-- The value of a described type is a fixed point, if every data type has constructors of which
equal ones in the own layer of its registry have the same attributes. -/
theorem Describes.reifiesAgain (describes : context.Describes heap type)
    (inhabited : context.Inhabited type) (consistent : context.Consistent type) :
    context.ReifiesAgain type := by
  obtain ⟨reified, reify_eq, captures⟩ := describes.reify_eq
  refine ⟨reified, reify_eq, (describes.reconstruct_meets captures).mono ?_ fun _ _ => id⟩
  rintro rebuilt after ⟨wider, rebuilds⟩
  exact rebuilds.reify_eq describes captures inhabited consistent

end Context

namespace Listing

theorem inhabited : context.Inhabited listOfPairs := by
  intro name reaches
  obtain data | alias_ := reaches_iff.mp reaches
  case inr => cases alias_
  cases data
  exact List.cons_ne_nil empty [more]

theorem listOfPairs_reifiesAgain : context.Describes heap listOfPairs ∧
    context.Inhabited listOfPairs ∧ context.Consistent listOfPairs ∧
    context.ReifiesAgain listOfPairs :=
  ⟨describes, inhabited, consistent, describes.reifiesAgain inhabited consistent⟩

end Listing

namespace Merging

theorem inhabited : context.Inhabited (.dataRef owner) := by
  intro name reaches
  obtain data | alias_ := reaches_iff.mp reaches
  case inr => cases alias_
  cases data
  exact List.cons_ne_nil first [second]

/-- Both constructors are reified at first, but only one of them after the value has been
reconstructed. -/
theorem owner_not_reifiesAgain : context.Describes heap (.dataRef owner) ∧
    context.Inhabited (.dataRef owner) ∧ ¬context.ReifiesAgain (.dataRef owner) := by
  refine ⟨describes, inhabited, ?_⟩
  rintro ⟨reified, reify_eq, meets⟩
  obtain rfl := Except.ok.inj ((rfl : Ty.reify context (.dataRef owner) = .ok _).symm.trans reify_eq)
  have again_eq : Except.ok _ = Except.ok _ := meets
  have lengths := congrArg
    (fun value : Reified => (value.definitions.alternativesOf "D").toList.length)
    (Except.ok.inj again_eq)
  exact absurd (show 1 = 2 from lengths) (by decide)

end Merging

end Reification.Reify
