import Reification.Proofs.Coverage
import Reification.Proofs.Idempotence

/-!
# Computations in step

Two computations which differ in how they expand names are in step if they end alike, or neither of
them ends.  As long as a computation meets only names which are declared or have no alternatives, it
declares nothing and fails only by not ending.  So the first other name which it meets is known
beforehand, from the order of the names in its symbols.
-/

namespace Reification

open Reconstruct (Resolver)

namespace Building

variable {α β : Type} {world : World} {ok ok' : World → Prop} {fails fails' : Prop}
  {building building' : Building α}

/-- Whether a computation does not end. -/
def Endless (building : Building α) (world : World) : Prop :=
  (building.run.run world).1 = .error .endless

/-- Whether two computations end in the same way, or neither of them ends. -/
def EndsAlike (building building' : Building α) (world : World) : Prop :=
  building.Endless world ∧ building'.Endless world ∨
    building.run.run world = building'.run.run world

/-- Whether two computations end in the same way, in a world as stated, or neither of them ends.  An
error must be allowed for. -/
def InStep (ok : World → Prop) (fails : Prop) (building building' : Building α) (world : World) :
    Prop :=
  building.Endless world ∧ building'.Endless world ∨
    building.run.run world = building'.run.run world ∧
      building.Meets world (fun _ after => ok after) fun _ _ => fails

theorem endless_iff : building.Endless world ↔
    building.Meets world (fun _ _ => False) fun failure _ => failure = .endless := by
  unfold Endless Meets
  rcases building.run.run world with ⟨_ | _, _⟩ <;> simp

theorem Endless.bind (endless : building.Endless world) (next : α → Building β) :
    (building >>= next).Endless world :=
  endless_iff.mpr (meets_bind.mpr ((endless_iff.mp endless).mono (fun _ _ => False.elim)
    fun _ _ => id))

theorem EndsAlike.symm (alike : building.EndsAlike building' world) :
    building'.EndsAlike building world :=
  alike.imp And.symm Eq.symm

theorem EndsAlike.trans {other : Building α} (first : building.EndsAlike building' world)
    (second : building'.EndsAlike other world) : building.EndsAlike other world := by
  rcases first with ⟨endless, endless'⟩ | same
  · rcases second with ⟨-, endless_other⟩ | same
    · exact .inl ⟨endless, endless_other⟩
    · exact .inl ⟨endless, by rwa [Endless, ← same]⟩
  · rcases second with ⟨endless', endless_other⟩ | same'
    · exact .inl ⟨by rwa [Endless, same], endless_other⟩
    · exact .inr (same.trans same')

namespace InStep

theorem endsAlike (inStep : InStep ok fails building building' world) :
    building.EndsAlike building' world := inStep.imp_right And.left

/-- Two computations which are in step without any way to end do not end. -/
theorem endless (inStep : InStep (fun _ => False) False building building' world) :
    building.Endless world :=
  inStep.elim And.left fun ⟨_, meets⟩ => (meets.elim (fun _ _ => id) fun _ _ => id).elim

theorem of_endless (endless : building.Endless world) : InStep ok fails building building world :=
  .inl ⟨endless, endless⟩

/-- A computation is in step with itself. -/
theorem of_meets (meets : building.Meets world (fun _ after => ok after)
    fun failure _ => failure = .endless ∨ fails) : InStep ok fails building building world := by
  rcases run_eq : building.run.run world with ⟨failure | result, after⟩
  · rcases (meets_iff_of_run_eq_error run_eq).mp meets with rfl | allowed
    · exact .of_endless (congrArg Prod.fst run_eq)
    · exact .inr ⟨rfl, (meets_iff_of_run_eq_error run_eq).mpr allowed⟩
  · exact .inr ⟨rfl, (meets_iff_of_run_eq_ok run_eq).mpr
      ((meets_iff_of_run_eq_ok run_eq).mp meets)⟩

theorem pure {result : α} (holds : ok world) :
    InStep ok fails (Pure.pure result) (Pure.pure result) world := .inr ⟨rfl, holds⟩

theorem mono (inStep : InStep ok fails building building' world)
    (ok_le : ∀ after, ok after → ok' after) (fails_le : fails → fails') :
    InStep ok' fails' building building' world :=
  inStep.imp_right <| And.imp_right fun meets =>
    meets.mono (fun _ after => ok_le after) fun _ _ => fails_le

theorem bind {next next' : α → Building β} (first : InStep ok fails building building' world)
    (second : ∀ result after, ok after → InStep ok' fails' (next result) (next' result) after)
    (fails_le : fails → fails') :
    InStep ok' fails' (building >>= next) (building' >>= next') world := by
  rcases first with ⟨endless, endless'⟩ | ⟨same, meets⟩
  · exact .inl ⟨endless.bind next, endless'.bind next'⟩
  · simp only [InStep, Endless, Meets, run_bind, ← same]
    rcases run_eq : building.run.run world with ⟨failure | result, after⟩
    · exact .inr ⟨rfl, fails_le ((meets_iff_of_run_eq_error run_eq).mp meets)⟩
    · exact second result after ((meets_iff_of_run_eq_ok run_eq).mp meets)

/-- Two computations may look at the same world first. -/
theorem get_bind {next next' : World → Building α}
    (inStep : InStep ok fails (next world) (next' world) world) :
    InStep ok fails (get >>= next) (get >>= next') world := inStep

end InStep

end Building

namespace Reconstruct

open Building (InStep)

variable {resolve : Resolver} {world : World} {α β : Type}

/-- Whether a name is not declared but has alternatives. -/
def isOpen (resolve : Resolver) (world : World) (name : String) : Bool :=
  (world.registry.lookup? name).isNone && (resolve name).first?.isSome

theorem isOpen_iff {name : String} : isOpen resolve world name = true ↔
    world.registry.lookup? name = none ∧ (resolve name).first? ≠ none := by
  simp [isOpen, Option.isSome_iff_ne_none]

/-- Whether the same names are declared in two worlds, as the same types. -/
def SameLookups (world after : World) : Prop :=
  ∀ name, after.registry.lookup? name = world.registry.lookup? name

theorem SameLookups.trans {middle after : World} (first : SameLookups world middle)
    (second : SameLookups middle after) : SameLookups world after :=
  fun name => (second name).trans (first name)

theorem SameLookups.isOpen_eq {after : World} (same : SameLookups world after) (name : String) :
    isOpen resolve after name = isOpen resolve world name := by
  rw [isOpen, isOpen, same name]

/-- The first of some mentions which is that of an open name. -/
def firstOpen? (resolve : Resolver) (world : World) (mentions : List Mention) : Option String :=
  mentions.findSome? fun mention => mention.declared?.filter (isOpen resolve world)

theorem firstOpen?_append (mentions more : List Mention) :
    firstOpen? resolve world (mentions ++ more) =
      (firstOpen? resolve world mentions).or (firstOpen? resolve world more) :=
  List.findSome?_append

theorem isOpen_of_firstOpen? {mentions : List Mention} {name : String}
    (first_eq : firstOpen? resolve world mentions = some name) :
    isOpen resolve world name = true ∧ ∃ mention ∈ mentions, mention.declared? = some name := by
  obtain ⟨mention, mem, found⟩ := List.exists_of_findSome?_eq_some first_eq
  obtain ⟨declared, isOpen_eq⟩ := Option.filter_eq_some_iff.mp found
  exact ⟨isOpen_eq, mention, mem, declared⟩

/-- What leaves the registry as it is, apart from rules, declares nothing and fails only by not
ending. -/
theorem Keeps.meets {building : Building α} {mentions : List Mention}
    (keeps : Keeps resolve (fun _ => False) mentions building world) :
    building.Meets world (fun _ after => SameLookups world after)
      fun failure _ => failure = .endless := by
  refine Building.Meets.mono keeps (fun _ after kept name => ?_) fun failure _ repeats => ?_
  · rcases lookup_eq : world.registry.lookup? name with _ | type
    · exact not_not.mp (kept.1.names_of_new lookup_eq)
    · exact kept.1.lookup?_eq lookup_eq
  · exact repeats.resolve_right fun ⟨_, _, _, mem, _⟩ => mem

section Phases

variable {expand expand' : String → Symbol → Building Ty} {late : World → Prop} {fails : Prop}
  {mentions more : List Mention} {building building' : Building α} {name : String}

/-- Whether two ways to expand a name are in step. -/
def ExpandInStep (resolve : Resolver) (expand expand' : String → Symbol → Building Ty)
    (late : World → Prop) (fails : Prop) (name : String) (after : World) : Prop :=
  ∀ production, (resolve name).first? = some production →
    InStep late fails (expand name production.subject) (expand' name production.subject) after

/-- Whether two computations which go through some mentions are in step, be it early, when nothing
has been declared since a first world, or late. -/
structure InPhase (resolve : Resolver) (expand expand' : String → Symbol → Building Ty)
    (world : World) (late : World → Prop) (fails : Prop) (mentions : List Mention)
    (building building' : Building α) : Prop where
  /-- It stays early if none of the names is open. -/
  early : firstOpen? resolve world mentions = none → ∀ ⦃after⦄, SameLookups world after →
    InStep (SameLookups world) False building building' after
  /-- It becomes late if the first open name is expanded in step. -/
  turning : ∀ ⦃name⦄, firstOpen? resolve world mentions = some name →
    (∀ ⦃after⦄, SameLookups world after →
      ExpandInStep resolve expand expand' late fails name after) →
    ∀ ⦃after⦄, SameLookups world after → InStep late fails building building' after
  late : ∀ ⦃after⦄, late after → InStep late fails building building' after

/-- A step which declares nothing is in step with itself. -/
theorem inStep_of_keeps {ok : World → Prop}
    (ok_of_same : ∀ after, SameLookups world after → ok after)
    (keeps : Keeps resolve (fun _ => False) mentions building world) :
    InStep ok fails building building world :=
  .of_meets (keeps.meets.mono (fun _ => ok_of_same) fun _ _ => .inl)

/-- The types of a name are in step if its expansions are, should it be open. -/
theorem namedWith_inStep {ok : World → Prop} (known : isOpen resolve world name = false → ok world)
    (ok_of_same : ∀ ⦃middle after⦄, ok middle → SameLookups middle after → ok after)
    (expands : isOpen resolve world name = true →
      ExpandInStep resolve expand expand' ok fails name world) (actuals : List Ty) :
    InStep ok fails (namedWith resolve expand name actuals) (namedWith resolve expand' name actuals)
      world := by
  have quiet {α : Type} {building : Building α} {after : World} (holds : ok after)
      (keeps : Keeps resolve (fun _ => False) [] building after) :
      InStep ok fails building building after :=
    inStep_of_keeps (fun _ => ok_of_same holds) keeps
  refine .get_bind ?_
  split
  · next declared lookup_eq => exact quiet (known (by simp [isOpen, lookup_eq])) (applied_keeps _ _)
  · next undeclared =>
    split
    · next production first_eq =>
      exact (expands (by simp [isOpen, undeclared, first_eq]) production first_eq).bind
        (fun _ _ holds => quiet holds (applied_keeps _ _)) id
    · next first_eq =>
      exact quiet (known (by simp [isOpen, first_eq]))
        ((Keeps.make (Making.keeps_newData _ _)).bind_last fun _ _ _ => .pure _)

namespace InPhase

theorem of_keeps
    (late_of_same : ∀ ⦃middle after⦄, late middle → SameLookups middle after → late after)
    (mentions_eq : firstOpen? resolve world mentions = none)
    (keeps : ∀ after, Keeps resolve (fun _ => False) more building after) :
    InPhase resolve expand expand' world late fails mentions building building where
  early _ after same := inStep_of_keeps (fun _ => same.trans) (keeps after)
  turning name first_eq := by simp [mentions_eq] at first_eq
  late after holds := inStep_of_keeps (fun _ => late_of_same holds) (keeps after)

theorem bind {next next' : α → Building β}
    (first : InPhase resolve expand expand' world late fails mentions building building')
    (second : ∀ result,
      InPhase resolve expand expand' world late fails more (next result) (next' result)) :
    InPhase resolve expand expand' world late fails (mentions ++ more) (building >>= next)
      (building' >>= next') where
  early none_eq after same := by
    rw [firstOpen?_append, Option.or_eq_none_iff] at none_eq
    exact (first.early none_eq.1 same).bind
      (fun result _ same => (second result).early none_eq.2 same) id
  turning name first_eq expands after same := by
    rw [firstOpen?_append, Option.or_eq_some_iff] at first_eq
    rcases first_eq with first_eq | ⟨none_eq, first_eq⟩
    · exact (first.turning first_eq expands same).bind
        (fun result _ holds => (second result).late holds) id
    · exact (first.early none_eq same).bind
        (fun result _ same => (second result).turning first_eq expands same) False.elim
  late after holds := (first.late holds).bind (fun result _ holds => (second result).late holds) id

theorem of_alias
    (inPhase : InPhase resolve expand expand' world late fails [.dataRef name] building building') :
    InPhase resolve expand expand' world late fails [.aliasRef name] building building' :=
  ⟨inPhase.early, inPhase.turning, inPhase.late⟩

end InPhase

section Symbols

variable (late_of_same : ∀ ⦃middle after⦄, late middle → SameLookups middle after → late after)

include late_of_same

theorem namedWith_inPhase (late_expands : ∀ ⦃after⦄, late after → isOpen resolve after name = true →
      ExpandInStep resolve expand expand' late fails name after) (actuals : List Ty) :
    InPhase resolve expand expand' world late fails [.dataRef name]
      (namedWith resolve expand name actuals) (namedWith resolve expand' name actuals) where
  early none_eq after same := by
    have closed : isOpen resolve world name = false := by
      simpa [firstOpen?, Mention.declared?] using none_eq
    refine namedWith_inStep (fun _ => same) (fun _ _ => SameLookups.trans) (fun opened => ?_) actuals
    rw [same.isOpen_eq, closed] at opened
    cases opened
  turning other first_eq expands after same := by
    obtain ⟨opened, rfl⟩ : isOpen resolve world name = true ∧ name = other := by
      obtain ⟨opened, mention, mem, declared⟩ := isOpen_of_firstOpen? first_eq
      obtain rfl := List.mem_singleton.mp mem
      obtain rfl := Option.some.inj declared
      exact ⟨opened, rfl⟩
    refine namedWith_inStep (fun closed => ?_) late_of_same (fun _ => expands same) actuals
    rw [same.isOpen_eq, opened] at closed
    cases closed
  late after holds :=
    namedWith_inStep (fun _ => holds) late_of_same (late_expands holds) actuals

theorem compositional_inPhase :
    Compositional (InPhase resolve expand expand' world late fails) where
  pure _ := .of_keeps late_of_same rfl fun _ => .pure _
  bind := .bind
  owner _ := .of_keeps late_of_same rfl fun _ => ownerOf_keeps _
  constructor _ _ _ := .of_keeps late_of_same rfl fun _ => constructorOf_keeps _ _ _
  alias_ := .of_alias

end Symbols

end Phases

end Reconstruct

end Reification
