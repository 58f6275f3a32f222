import Reification.Proofs.Depth
import Reification.Proofs.Histories
import Reification.Proofs.InStep
import Reification.Proofs.Invariant

/-!
# Depths make no difference

The expansion of a name begins with that of the first open name in its formal parameters.  Where this
goes on for ever, the expansion does not end at any depth.  Otherwise a name is declared in the end,
and then fewer names are left.  So a reconstruction ends in the same way at all depths which allow
for as many expansions as there are names, whatever has been declared before, or at none of them.
-/

namespace Reification.Reconstruct

open Building (InStep)

variable {resolve : Resolver} {world after : World} {name other : String} {fails : Prop}
  {late : World → Prop} {depth depth' : Nat}

/-- Whether the expansion of a name begins with that of another one, the first open name in its
formal parameters. -/
def Heads (resolve : Resolver) (world : World) (name other : String) : Prop :=
  firstOpen? resolve world (Symbol.mentionsOfAll (formalsOf resolve name)) = some other

theorem SameLookups.heads_eq (same : SameLookups world after) :
    Heads resolve after = Heads resolve world := by
  have isOpen_eq : isOpen resolve after = isOpen resolve world := funext same.isOpen_eq
  unfold Heads firstOpen?
  rw [isOpen_eq]

theorem Heads.leads (heads : Heads resolve world name other) : Leads resolve name other := by
  obtain ⟨-, found⟩ := isOpen_of_firstOpen? heads
  obtain ⟨formal, mem, names⟩ := Symbol.exists_mem_mentionsOfAll_iff.mp found
  exact ⟨formal, List.mem_append_left _ mem, names⟩

/-- Whether expansions from a name on do not begin with one another for ever. -/
def Founded (resolve : Resolver) (world : World) (name : String) : Prop :=
  Acc (fun other name => Heads resolve world name other) name

theorem exists_of_not_founded (unfounded : ¬Founded resolve world name) :
    ∃ other, Heads resolve world name other ∧ ¬Founded resolve world other := by
  by_contra none
  refine unfounded (.intro name fun other heads => ?_)
  by_contra unfounded
  exact none ⟨other, heads, unfounded⟩

theorem Founded.of_heads (founded : Founded resolve world name)
    (heads : Heads resolve world name other) : Founded resolve world other := founded.inv heads

/-- A name from which expansions do not go on for ever does not lead back to itself. -/
theorem Founded.acyclic (founded : Founded resolve world name) :
    ¬Relation.TransGen (Heads resolve world) name name := by
  induction founded with
  | intro name _ ih =>
    intro cycle
    obtain ⟨other, heads, path⟩ := Relation.TransGen.head'_iff.mp cycle
    exact ih other heads (Relation.TransGen.tail'_iff.mpr ⟨name, path, heads⟩)

section Within

variable (late_of_same : ∀ ⦃middle after⦄, late middle → SameLookups middle after → late after)

include late_of_same

/-- Types are in step within two depths if, late, the expansions of the names in their symbol are. -/
theorem typeWithin_inPhase {symbol : Symbol} (expands : ∀ name, symbol.Names name →
      ∀ ⦃after⦄, late after → isOpen resolve after name = true → ExpandInStep resolve
        (expandWithin resolve depth) (expandWithin resolve depth') late fails name after) :
    InPhase resolve (expandWithin resolve depth) (expandWithin resolve depth') world late fails
      symbol.mentions (typeWithin resolve depth symbol) (typeWithin resolve depth' symbol) :=
  (compositional_inPhase late_of_same).typeWith
    (fun name names => namedWith_inPhase late_of_same (expands name names))
    fun name _ => .of_keeps late_of_same rfl fun _ => sortWith_keeps name _

theorem typesWithin_inPhase {symbols : List Symbol} (expands : ∀ symbol ∈ symbols,
      ∀ name, symbol.Names name → ∀ ⦃after⦄, late after → isOpen resolve after name = true →
        ExpandInStep resolve (expandWithin resolve depth) (expandWithin resolve depth') late fails
          name after) :
    InPhase resolve (expandWithin resolve depth) (expandWithin resolve depth') world late fails
      (Symbol.mentionsOfAll symbols) (typesWithin resolve depth symbols)
      (typesWithin resolve depth' symbols) :=
  (compositional_inPhase late_of_same).typesWith fun symbol mem =>
    typeWithin_inPhase late_of_same (expands symbol mem)

end Within

/-- Where expansions begin with one another for ever, they do not end at any depth. -/
theorem expandWithin_endless (unfounded : ¬Founded resolve world name) {production : Production}
    (first_eq : (resolve name).first? = some production) (depth : Nat)
    (same : SameLookups world after) :
    (expandWithin resolve depth name production.subject).Endless after := by
  induction depth generalizing name production after with
  | zero => rfl
  | succ depth ih =>
    obtain ⟨other, heads, unfounded⟩ := exists_of_not_founded unfounded
    rw [expandWithin_eq first_eq]
    have inPhase : InPhase resolve (expandWithin resolve depth) (expandWithin resolve depth) world
        (fun _ => False) False _ (typesWithin resolve depth (formalsOf resolve name)) _ :=
      typesWithin_inPhase (fun _ _ none _ => none) fun _ _ _ _ _ none => none.elim
    have formals_inStep := inPhase.turning heads
      (fun _ same production first_eq => .of_endless (ih unfounded first_eq same)) same
    exact formals_inStep.endless.bind _

/-- Whether all names are declared which had been before. -/
def KeepsDeclared (world after : World) : Prop :=
  ∀ ⦃name⦄, world.registry.lookup? name ≠ none → after.registry.lookup? name ≠ none

theorem SameLookups.keepsDeclared (same : SameLookups world after) : KeepsDeclared world after :=
  fun name declared => same name ▸ declared

theorem KeepsDeclared.trans {middle : World} (first : KeepsDeclared world middle)
    (second : KeepsDeclared middle after) : KeepsDeclared world after :=
  fun _ declared => second (first declared)

theorem KeepsDeclared.of_same ⦃middle after : World⦄ (keeps : KeepsDeclared world middle)
    (same : SameLookups middle after) : KeepsDeclared world after :=
  keeps.trans same.keepsDeclared

/-- Whether a name has been declared, and all names which had been before still are. -/
structure DeclaredSince (world : World) (name : String) (after : World) : Prop where
  keeps : KeepsDeclared world after
  declared : after.registry.lookup? name ≠ none

theorem DeclaredSince.of_keeps {middle : World} (since : DeclaredSince world name middle)
    (keeps : KeepsDeclared middle after) : DeclaredSince world name after :=
  ⟨since.keeps.trans keeps, keeps since.declared⟩

theorem DeclaredSince.of_same ⦃middle after : World⦄ (since : DeclaredSince world name middle)
    (same : SameLookups middle after) : DeclaredSince world name after :=
  since.of_keeps same.keepsDeclared

section Declare

/-- The step which declares a name. -/
theorem declare_inStep (keeps : KeepsDeclared world after) (type : Ty) :
    InStep (DeclaredSince world name) True (Building.register (·.declare · name type))
      (Building.register (·.declare · name type)) after := by
  refine .of_meets (Building.meets_register.mpr ?_)
  split
  · next registry declare_eq =>
    refine ⟨fun other declared => ?_, ?_⟩
    · obtain ⟨existing, existing_eq⟩ := Option.ne_none_iff_exists'.mp (keeps declared)
      simp [Registry.lookup?_of_declare declare_eq existing_eq]
    · obtain ⟨existing, existing_eq, -⟩ := Registry.exists_lookup?_of_declare declare_eq
      simp [existing_eq]
  · exact .inr trivial

theorem declareConstructor_inStep (since : DeclaredSince world name after)
    (constructor : Constructor Ty) : InStep (DeclaredSince world name) True
      (Building.register (·.declareConstructor · constructor))
      (Building.register (·.declareConstructor · constructor)) after := by
  refine .of_meets (Building.meets_register.mpr ?_)
  split
  · next registry declare_eq =>
    refine since.of_keeps fun other declared => ?_
    obtain ⟨existing, existing_eq⟩ := Option.ne_none_iff_exists'.mp declared
    simp [Registry.lookup?_of_declareConstructor declare_eq existing_eq]
  · exact .inr trivial

/-- Making references declares nothing. -/
theorem make_inStep {α : Type} {ok : World → Prop} (holds : ok after)
    (ok_of_same : ∀ ⦃middle after⦄, ok middle → SameLookups middle after → ok after)
    (making : Making α) : InStep ok True (Building.make making) (Building.make making) after := by
  refine .of_meets (Building.meets_make.mpr ?_)
  split
  · exact ok_of_same holds fun _ => rfl
  · exact .inl rfl

theorem fillSlot_inStep (since : DeclaredSince world name after) (declared : AliasRef Ty)
    (body : Ty) : InStep (DeclaredSince world name) True (fillSlot name declared body)
      (fillSlot name declared body) after := by
  refine .of_meets (meets_fillSlot.mpr ?_)
  split
  · exact ⟨since.keeps, since.declared⟩
  · exact .inr trivial

theorem declareConstructors_inStep {fieldsOf fieldsOf' : List Symbol → Building (List (Field Ty))}
    (owner : DataRef Ty) {productions : List Production}
    (fields : ∀ production ∈ productions, production.name.isSome → ∀ ⦃after⦄,
      DeclaredSince world name after → InStep (DeclaredSince world name) True
        (fieldsOf production.symbols) (fieldsOf' production.symbols) after)
    (since : DeclaredSince world name after) : InStep (DeclaredSince world name) True
      (declareConstructors fieldsOf owner productions)
      (declareConstructors fieldsOf' owner productions) after := by
  induction productions generalizing after with
  | nil => exact .pure since
  | cons production productions ih =>
    obtain ⟨head, tail⟩ := List.forall_mem_cons.mp fields
    unfold declareConstructors
    split
    · next label label_eq =>
      refine (head (by simp [label_eq]) since).bind (fun types middle since => ?_) id
      refine (make_inStep since .of_same _).bind (fun _ _ since => ?_) id
      exact (declareConstructor_inStep since _).bind (fun _ _ since => ih tail since) id
    · exact ih tail since

/-- A name is declared in step if the types of the symbols in its alternatives are in step as soon
as it is declared. -/
theorem declareFor_inStep (contents : ∀ symbol ∈ contentsOf resolve name,
      InPhase resolve (expandWithin resolve depth) (expandWithin resolve depth') world
        (DeclaredSince world name) True symbol.mentions (typeWithin resolve depth symbol)
        (typeWithin resolve depth' symbol))
    (keeps : KeepsDeclared world after) (formals : List Ty) :
    InStep (DeclaredSince world name) True (declareFor resolve depth name formals)
      (declareFor resolve depth' name formals) after := by
  unfold declareFor
  split
  · next other parameters subject_eq =>
    have body_inStep ⦃after : World⦄ (since : DeclaredSince world name after) :
        InStep (DeclaredSince world name) True (bodyType (typeWithin resolve depth) (resolve name))
          (bodyType (typeWithin resolve depth') (resolve name)) after := by
      unfold bodyType
      split
      · next symbol symbol_eq =>
        exact (contents symbol (mem_contentsOf_of_body subject_eq symbol_eq)).late since
      · exact .pure since
    rw [declareAlias_eq, declareAlias_eq]
    refine (make_inStep keeps .of_same _).bind (fun declared _ keeps => ?_) id
    refine (declare_inStep keeps _).bind (fun _ _ since => ?_) id
    refine (body_inStep since).bind (fun body _ since => ?_) id
    exact (fillSlot_inStep since declared body).bind (fun _ _ since => .pure since) id
  · next no_alias =>
    unfold declareData
    refine (make_inStep keeps .of_same _).bind (fun declared _ keeps => ?_) id
    refine (declare_inStep keeps _).bind (fun _ _ since => ?_) id
    refine (declareConstructors_inStep declared (fun production mem named _ since => ?_) since).bind
      (fun _ _ since => .pure since) id
    exact ((compositional_inPhase DeclaredSince.of_same).fieldsWith fun symbol symbol_mem =>
      contents symbol (mem_contentsOf_of_field no_alias mem named symbol_mem)).late since

end Declare

open Classical in
/-- The number of names whose expansions, one after another, the expansion of a name begins with. -/
noncomputable def ahead (resolve : Resolver) (names : Finset String) (world : World)
    (name : String) : Nat :=
  (names.filter fun other => Relation.TransGen (Heads resolve world) name other).card

/-- Whether the expansions of all open names of a set are in step within two depths which afford
them. -/
def DepthsInStep (resolve : Resolver) (names : Finset String) (depth depth' : Nat) : Prop :=
  ∀ ⦃world name⦄, name ∈ names → isOpen resolve world name = true →
    Affords names depth world (ahead resolve names world name) →
    Affords names depth' world (ahead resolve names world name) →
      ExpandInStep resolve (expandWithin resolve depth) (expandWithin resolve depth')
        (DeclaredSince world name) True name world

section Depths

variable {names : Finset String} {left : Nat} {part : Symbol}

theorem ahead_le (name : String) : ahead resolve names world name ≤ names.card := by
  classical
  exact Finset.card_le_card (Finset.filter_subset _ _)

theorem mem_undeclared (mem : name ∈ names) (opened : isOpen resolve world name = true) :
    name ∈ undeclared names world := by
  classical
  exact Finset.mem_filter.mpr ⟨mem, (isOpen_iff.mp opened).1⟩

variable (closed : ∀ ⦃name other⦄, name ∈ names → Leads resolve name other →
  (resolve other).first? ≠ none → other ∈ names)

include closed

namespace DepthsInStep

variable (inStep : DepthsInStep resolve names depth depth') (mem : name ∈ names)
  (affords : Affords names (depth + 1) world left) (affords' : Affords names (depth' + 1) world left)

include inStep mem affords affords'

/-- As soon as one of the names has been declared, all names may be expanded within the depths which
are left. -/
theorem late_expands (other_left : other ∈ undeclared names world)
    (part_mem : part ∈ formalsOf resolve name ++ contentsOf resolve name) (next : String)
    (names_next : part.Names next) ⦃after : World⦄ (since : DeclaredSince world other after)
    (opened : isOpen resolve after next = true) :
    ExpandInStep resolve (expandWithin resolve depth) (expandWithin resolve depth')
      (DeclaredSince world other) True next after := by
  have next_mem := closed mem ⟨part, part_mem, names_next⟩ (isOpen_iff.mp opened).2
  intro production first_eq
  exact (inStep next_mem opened
    (affords.of_declared other_left since.keeps since.declared (ahead_le next))
    (affords'.of_declared other_left since.keeps since.declared (ahead_le next))
    production first_eq).mono (fun _ later => since.of_keeps later.keeps) id

/-- The formal parameters of a name are in step: either none of the names in them is open, or the
first which is open has fewer names ahead. -/
theorem formals (left_eq : left = ahead resolve names world name)
    (founded : Founded resolve world name) :
    InStep (KeepsDeclared world) True (typesWithin resolve depth (formalsOf resolve name))
      (typesWithin resolve depth' (formalsOf resolve name)) world := by
  rcases first_open : firstOpen? resolve world (Symbol.mentionsOfAll (formalsOf resolve name))
    with _ | other
  · have inPhase : InPhase resolve (expandWithin resolve depth) (expandWithin resolve depth')
        world (fun _ => False) True _ (typesWithin resolve depth (formalsOf resolve name)) _ :=
      typesWithin_inPhase (fun _ _ none _ => none) fun _ _ _ _ _ none => none.elim
    exact (inPhase.early first_open fun _ => rfl).mono (fun _ => SameLookups.keepsDeclared)
      False.elim
  · have heads : Heads resolve world name other := first_open
    obtain ⟨other_open, -⟩ := isOpen_of_firstOpen? first_open
    have other_mem := closed mem heads.leads (isOpen_iff.mp other_open).2
    have fewer : ahead resolve names world other < left :=
      left_eq ▸ card_transGen_lt heads other_mem (founded.of_heads heads).acyclic
    have inPhase : InPhase resolve (expandWithin resolve depth) (expandWithin resolve depth')
        world (DeclaredSince world other) True _
        (typesWithin resolve depth (formalsOf resolve name)) _ :=
      typesWithin_inPhase DeclaredSince.of_same fun symbol symbol_mem =>
        inStep.late_expands closed mem affords affords' (mem_undeclared other_mem other_open)
          (List.mem_append_left _ symbol_mem)
    refine (inPhase.turning first_open (fun after same production first_eq => ?_)
      fun _ => rfl).mono (fun _ => DeclaredSince.keeps) id
    have ahead_eq : ahead resolve names after other = ahead resolve names world other := by
      rw [ahead, ahead, same.heads_eq]
    refine (inStep other_mem (same.isOpen_eq other ▸ other_open) ?_ ?_ production first_eq).mono
      (fun _ later => ⟨same.keepsDeclared.trans later.keeps, later.declared⟩) id
    · exact ahead_eq ▸ (affords.of_lt fewer).mono same.keepsDeclared
    · exact ahead_eq ▸ (affords'.of_lt fewer).mono same.keepsDeclared

end DepthsInStep

/-- Expansions are in step within all depths which afford them. -/
theorem depthsInStep (depth depth' : Nat) : DepthsInStep resolve names depth depth' := by
  induction depth generalizing depth' with
  | zero =>
    intro world name mem opened affords _
    exact absurd (affords.pos (mem_undeclared mem opened)) (lt_irrefl 0)
  | succ depth ih =>
    intro world name mem opened affords affords' production first_eq
    have left := mem_undeclared mem opened
    obtain ⟨depth', rfl⟩ := Nat.exists_eq_add_one.mpr (affords'.pos left)
    by_cases founded : Founded resolve world name
    · rw [expandWithin_eq first_eq, expandWithin_eq first_eq]
      refine ((ih depth').formals closed mem affords affords' rfl founded).bind
        (fun formals _ keeps => declareFor_inStep (fun symbol symbol_mem => ?_) keeps formals)
          id
      exact typeWithin_inPhase DeclaredSince.of_same ((ih depth').late_expands closed mem affords
        affords' left (List.mem_append_right _ symbol_mem))
    · exact .inl ⟨expandWithin_endless founded first_eq _ fun _ => rfl,
        expandWithin_endless founded first_eq _ fun _ => rfl⟩

/-- A reconstruction ends in the same way at all depths which afford the expansions of all names, or
at none of them. -/
theorem typeWithin_endsAlike {symbol : Symbol}
    (start : ∀ name, symbol.Names name → (resolve name).first? ≠ none → name ∈ names)
    (affords : ∀ world name, Affords names depth world (ahead resolve names world name))
    (affords' : ∀ world name, Affords names depth' world (ahead resolve names world name))
    (world : World) :
    (typeWithin resolve depth symbol).EndsAlike (typeWithin resolve depth' symbol) world := by
  have inPhase : InPhase resolve (expandWithin resolve depth) (expandWithin resolve depth') world
      (fun _ => True) True symbol.mentions (typeWithin resolve depth symbol)
      (typeWithin resolve depth' symbol) :=
    typeWithin_inPhase (fun _ _ _ _ => trivial) fun name names_name after _ opened =>
      fun production first_eq => (depthsInStep closed depth depth'
        (start name names_name (isOpen_iff.mp opened).2) opened (affords after name)
          (affords' after name) production first_eq).mono (fun _ _ => trivial) id
  exact (inPhase.late trivial).endsAlike

end Depths

/-- A reconstruction which does not end within the greatest depth does not end at any greater one. -/
theorem typeOf_endsAlike_deeper {definitions : Definitions} (le : maxDepth definitions ≤ depth)
    (symbol : Symbol) (world : World) : (typeOf definitions symbol).EndsAlike
      (typeWithin definitions.alternativesOf depth symbol) world := by
  have affords (after : World) (name : String) :
      Affords definitions.names.toFinset (maxDepth definitions) after
        (ahead definitions.alternativesOf definitions.names.toFinset after name) :=
    .of_maxDepth (card_names_le definitions) after (ahead_le name)
  exact typeWithin_endsAlike (fun _ _ _ _ => mem_names_of_first?) (fun _ _ => mem_names_of_first?)
    affords (fun after name => (affords after name).of_le le) world

end Reification.Reconstruct
