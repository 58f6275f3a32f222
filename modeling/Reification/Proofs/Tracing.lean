import Reification.Proofs.Collected
import Reification.Proofs.Histories

/-!
# Tracing a traversal

A traversal can list the names which it expands, in their order, without running differently.  No
name is listed twice, however the traversal ends.  It always ends, unless it reads the constructors
of a data type among which there are two whose comparison never ends.
-/

namespace Reification.Reify

/-- A traversal which lists the names that it expands. -/
abbrev Tracing := ExceptT Failure (StateM (Progress × List Mention))

namespace Tracing

/-- Goes on with a traversal which expands nothing. -/
def quietly {α : Type} (collecting : Collecting α) : Tracing α := fun (progress, expanded) =>
  let (outcome, after) := collecting.run.run progress
  (outcome, after, expanded)

theorem run_quietly {α : Type} (collecting : Collecting α) (progress : Progress)
    (expanded : List Mention) : (quietly collecting).run.run (progress, expanded) =
      ((collecting.run.run progress).1, (collecting.run.run progress).2, expanded) := rfl

/-- Lists a name which is being expanded. -/
def list (mention : Mention) : Tracing Unit := fun (progress, expanded) =>
  (.ok (), progress, expanded ++ [mention])

end Tracing

namespace Context

/-- The names which the expansion of a name visits.  If its constructors cannot be compared, the
formal parameters have been visited before that is found out. -/
def passes (context : Context) (mention : Mention) : List Mention :=
  match context.entryOf? mention, mention with
  | some entry, _ => Symbol.mentionsOfAll entry.symbols
  | none, .dataRef name => Symbol.mentionsOfAll
      (Ty.symbols ((context.registry.lookupData? name).elim [] DataRef.parameters))
  | none, _ => []

/-- The failure with which the expansion of a name ends that has no entry. -/
def obstacle (context : Context) : Mention → Failure
  | .dataRef name =>
    if (context.registry.lookupData? name).isNone then .error (.undeclared .dataType name)
    else .endless
  | .aliasRef name =>
    if (context.registry.lookupAlias? name).isNone then .error (.undeclared .aliasType name)
    else .error (.fault (.missingBody name))
  | .sort _ => .endless

/-- How the expansion of a name ends when the names in it have been visited. -/
def settle (context : Context) (mention : Mention) : Collecting Unit :=
  match context.entryOf? mention with
  | some entry => record entry.subject entry.alternatives
  | none => throw (context.obstacle mention)

/-- Visits a name as `visitWithin` does, and lists the names which are expanded. -/
def traceWithin (context : Context) : Nat → Mention → Tracing Unit
  | 0, _ => throw .endless
  | depth + 1, mention => do
    if ← Tracing.quietly (markVisited mention.name) then
      Tracing.list mention
      (context.passes mention).forM (context.traceWithin depth)
      Tracing.quietly (context.settle mention)

/-- Reifies a type as `symbolOf` does, and lists the names which are expanded. -/
def trace (context : Context) (type : Ty) : Tracing Symbol := do
  type.symbol.mentions.forM (context.traceWithin (context.registry.declarationCount + 1))
  return type.symbol

end Context

/-- Expanding a name visits names and then records its entry or fails. -/
theorem expand_eq_settle (context : Context) (visit : Mention → Collecting Unit)
    (mention : Mention) : expand context visit mention = (do
      (context.passes mention).forM visit
      context.settle mention) := by
  rcases entry_eq : context.entryOf? mention with _ | entry
  case some => simp only [expand_eq entry_eq, Context.passes, Context.settle, entry_eq]
  simp only [Context.passes, Context.settle, entry_eq]
  cases mention with
  | dataRef name =>
    rcases declared_eq : context.registry.lookupData? name with _ | declared
    · simp [expand, expandData, Context.obstacle, declared_eq, Symbol.mentionsOfAll]
    · have constructors_eq : context.registry.constructorsOf context.store name = none := by
        rw [Option.eq_none_iff_forall_ne_some]
        intro constructors known
        simp [Context.entryOf?, declared_eq, known] at entry_eq
      have formals_eq : symbolsWith visit declared.parameters = do
          (Symbol.mentionsOfAll (Ty.symbols declared.parameters)).forM visit
          return Ty.symbols declared.parameters :=
        symbolsWith_eq fun type _ => symbolWith_eq visit type
      simp only [expand, expandData, Context.obstacle, declared_eq, constructors_eq, formals_eq,
        Failure.orEndless, bind_assoc, pure_bind]
      rfl
  | aliasRef name =>
    rcases declared_eq : context.registry.lookupAlias? name with _ | declared
    · simp [expand, expandAlias, Context.obstacle, declared_eq]
    · rcases body_eq : context.store.body? declared with _ | body
      · simp [expand, expandAlias, Context.obstacle, declared_eq, body_eq]
      · simp [Context.entryOf?, declared_eq, body_eq] at entry_eq
  | sort name => simp [Context.entryOf?] at entry_eq

section Follows

variable {α β : Type} {tracing : Tracing α} {collecting : Collecting α} {context : Context}

/-- Whether a traversal runs as another one does, and lists exactly the names which it marks as
visited.  No name is marked twice. -/
def Follows (tracing : Tracing α) (collecting : Collecting α) : Prop :=
  ∀ progress expanded, ∃ outcome after more,
    collecting.run.run progress = (outcome, after) ∧
    tracing.run.run (progress, expanded) = (outcome, after, expanded ++ more) ∧
    after.visited = (more.map Mention.name).reverse ++ progress.visited ∧
    (progress.visited.Nodup → after.visited.Nodup)

theorem follows_pure (result : α) : Follows (pure result) (pure result) :=
  fun progress _ => ⟨.ok result, progress, [], rfl, by simp; rfl, rfl, id⟩

theorem follows_throw (failure : Failure) :
    Follows (throw failure : Tracing α) (throw failure) :=
  fun progress _ => ⟨.error failure, progress, [], rfl, by simp; rfl, rfl, id⟩

theorem Follows.bind {next : α → Tracing β} {next' : α → Collecting β}
    (first : Follows tracing collecting) (second : ∀ result, Follows (next result) (next' result)) :
    Follows (tracing >>= next) (collecting >>= next') := by
  intro progress expanded
  obtain ⟨outcome, after, more, plain_eq, traced_eq, visited_eq, nodup⟩ := first progress expanded
  rw [Failure.run_bind, Failure.run_bind, plain_eq, traced_eq]
  rcases outcome with failure | result
  · exact ⟨.error failure, after, more, rfl, rfl, visited_eq, nodup⟩
  · obtain ⟨last, widest, rest, plain_eq', traced_eq', visited_eq', nodup'⟩ :=
      second result after (expanded ++ more)
    refine ⟨last, widest, more ++ rest, plain_eq', ?_, ?_, nodup' ∘ nodup⟩
    · rw [← List.append_assoc]
      exact traced_eq'
    · simp [visited_eq', visited_eq]

theorem follows_forM {visit : Mention → Tracing Unit} {visit' : Mention → Collecting Unit}
    (follows : ∀ mention, Follows (visit mention) (visit' mention)) (mentions : List Mention) :
    Follows (mentions.forM visit) (mentions.forM visit') := by
  induction mentions with
  | nil => exact follows_pure _
  | cons mention mentions ih => exact (follows mention).bind fun _ => ih

/-- A step which marks no name is followed quietly. -/
theorem follows_quietly (keeps : ∀ progress, (collecting.run.run progress).2.visited =
    progress.visited) : Follows (Tracing.quietly collecting) collecting := by
  intro progress expanded
  refine ⟨_, _, [], rfl, ?_, keeps progress, fun nodup => (keeps progress).symm ▸ nodup⟩
  simp
  rfl

theorem follows_settle (context : Context) (mention : Mention) :
    Follows (Tracing.quietly (context.settle mention)) (context.settle mention) := by
  refine follows_quietly fun progress => ?_
  unfold Context.settle
  split
  · next entry _ =>
    change (if entry.alternatives.isEmpty then { progress with bare := _ }
      else { progress with pairs := _ } : Progress).visited = progress.visited
    split <;> rfl
  · rfl

/-- The names which are listed are those which are expanded, in the same run. -/
theorem follows_traceWithin (context : Context) (depth : Nat) (mention : Mention) :
    Follows (context.traceWithin depth mention) (visitWithin context depth mention) := by
  induction depth generalizing mention with
  | zero => exact follows_throw _
  | succ depth ih =>
    have inner : Follows (do
        (context.passes mention).forM (context.traceWithin depth)
        Tracing.quietly (context.settle mention))
        (expand context (visitWithin context depth) mention) := by
      rw [expand_eq_settle]
      exact (follows_forM ih _).bind fun _ => follows_settle context mention
    intro progress expanded
    rw [visitWithin_succ, Failure.run_bind, run_markVisited, Context.traceWithin, Failure.run_bind,
      Tracing.run_quietly, run_markVisited]
    by_cases mem : mention.name ∈ progress.visited
    · simp only [if_pos mem]
      exact follows_pure () progress expanded
    · simp only [if_neg mem]
      obtain ⟨outcome, after, more, plain_eq, traced_eq, visited_eq, nodup⟩ :=
        inner { progress with visited := mention.name :: progress.visited } (expanded ++ [mention])
      refine ⟨outcome, after, mention :: more, plain_eq, ?_, ?_, fun distinct => ?_⟩
      · rw [List.append_cons]
        exact traced_eq
      · simp [visited_eq]
      · exact nodup (List.nodup_cons.mpr ⟨mem, distinct⟩)

end Follows

section Terminates

variable {context : Context} {type : Ty}

/-- Reifying a type lists the names which it expands, in the same run. -/
theorem follows_trace (context : Context) (type : Ty) :
    Follows (context.trace type) (symbolOf context type) := by
  rw [symbolOf, symbolWith_eq]
  exact (follows_forM (follows_traceWithin context _) _).bind fun _ => follows_pure _

namespace Context

/-- Whether reifying a type expands every name at most once, by the list of the names which its run
expands. -/
def ExpandsOnce (context : Context) (type : Ty) : Prop :=
  ∃ outcome progress expanded,
    (symbolOf context type).run.run {} = (outcome, progress) ∧
    (context.trace type).run.run ({}, []) = (outcome, progress, expanded) ∧
    (expanded.map Mention.name).Nodup

/-- Whether reading the constructors of a name ends: the comparison of those which are inherited
with those which are stored in any layer does, within some depth. -/
def Comparable (context : Context) (name : String) : Prop :=
  ∀ left ∈ context.registry.storedUnder name,
    ∀ right ∈ context.registry.inherited.flatMap (·.constructorsOf name), ∃ depth answer,
      context.store.sameWithin depth (.constructor left) (.constructor right) = some answer

theorem Comparable.constructorsOf_ne_none {name : String} (comparable : context.Comparable name) :
    context.registry.constructorsOf context.store name ≠ none := by
  refine Registry.foldlM_addUnknown_ne_none fun left left_mem right right_mem => ?_
  obtain ⟨depth, answer, found⟩ := comparable left left_mem right right_mem
  rw [Store.sameConstructor, Store.same_of_sameWithin found]
  exact Option.some_ne_none answer

/-- A registry which inherits nothing compares nothing when constructors are read. -/
theorem comparable_of_inherited_eq_nil (alone : context.registry.inherited = []) (name : String) :
    context.Comparable name := by
  intro left _ right mem
  rw [alone] at mem
  cases mem

/-- The expansion of a name goes on for ever only if its constructors cannot be compared. -/
theorem Refuses.not_comparable {mention : Mention} (refuses : context.Refuses mention .endless) :
    ∃ name, mention = .dataRef name ∧ ¬context.Comparable name := by
  cases mention with
  | dataRef name =>
    refine ⟨name, rfl, fun comparable => comparable.constructorsOf_ne_none ?_⟩
    simp only [Refuses] at refuses
    split at refuses
    · cases refuses
    · exact refuses
  | aliasRef name =>
    simp only [Refuses] at refuses
    split at refuses
    · cases refuses
    · cases refuses.2
  | sort name => exact refuses.elim

end Context

theorem expandsOnce (context : Context) (type : Ty) : context.ExpandsOnce type := by
  obtain ⟨outcome, progress, expanded, plain_eq, traced_eq, visited_eq, nodup⟩ :=
    follows_trace context type {} []
  refine ⟨outcome, progress, expanded, plain_eq, traced_eq, ?_⟩
  rw [← List.nodup_reverse]
  simpa [visited_eq] using nodup List.nodup_nil

/-- Reifying expands every name at most once.  It ends, however cyclic the bodies of aliases are, if
the constructors of the data types which are reached can be compared. -/
theorem reify_terminates (comparable : ∀ name, context.Reached type (.dataRef name) →
    context.Comparable name) :
    context.ExpandsOnce type ∧ type.reify context ≠ .error .endless := by
  refine ⟨expandsOnce context type, fun endless => ?_⟩
  have ends := reify_ends context type
  rw [endless] at ends
  obtain ⟨mention, meets, refuses⟩ := ends
  obtain ⟨name, rfl, incomparable⟩ := refuses.not_comparable
  exact incomparable (comparable name meets.reached)

end Terminates

/-! A chain with an alias whose body mentions it.  The registry inherits the constructor of chains,
with the same alias or with another one of its form. -/

namespace Chain

/-- An alias whose body mentions the alias itself. -/
def links (object : Nat) : AliasRef Ty := ⟨object, "Links", []⟩

def body (object : Nat) : Ty := .tuple [⟨none, .aliasRef (links object)⟩, ⟨none, .prim .int⟩]

def chain : DataRef Ty := ⟨0, "Chain", []⟩

def constructor (object : Nat) (links : AliasRef Ty) : Constructor Ty :=
  ⟨object, chain, "chain", [⟨none, .aliasRef links⟩], ∅⟩

/-- The inherited constructor mentions one of two aliases. -/
def context (inherited : AliasRef Ty) : Context where
  store := ⟨3, #[some (body 0), some (body 1)]⟩
  registry := {
    own := {
      declarations := ⟨[("Chain", .dataRef chain), ("Links", .aliasRef (links 0))], by decide⟩
      constructors := ⟨[("Chain", [constructor 1 (links 0)])], by decide⟩ }
    inherited := [{
      declarations := ⟨[("Chain", .dataRef chain)], by decide⟩
      constructors := ⟨[("Chain", [constructor 2 inherited])], List.pairwise_singleton _ _⟩ }] }

theorem terminates :
    (∀ name, (context (links 0)).Reached (.dataRef chain) (.dataRef name) →
      (context (links 0)).Comparable name) ∧
      (context (links 0)).ExpandsOnce (.dataRef chain) ∧
      Ty.reify (context (links 0)) (.dataRef chain) ≠ .error .endless := by
  have comparable (name : String)
      (reached : (context (links 0)).Reached (.dataRef chain) (.dataRef name)) :
      (context (links 0)).Comparable name := by
    have mem : Mention.dataRef name ∈ [.dataRef "Chain", .aliasRef "Links"] :=
      reached.mem_of_closed (by decide) (by decide)
    obtain rfl : name = "Chain" := by simpa using mem
    intro left left_mem right right_mem
    have left_cases : left ∈ [constructor 1 (links 0), constructor 2 (links 0)] := left_mem
    obtain rfl : right = constructor 2 (links 0) := List.mem_singleton.mp right_mem
    rcases List.mem_pair.mp left_cases with rfl | rfl <;> exact ⟨0, true, rfl⟩
  exact ⟨comparable, reify_terminates comparable⟩

/-- Fields are compared one after another, so nothing comes after a comparison without end. -/
theorem sameFieldsWith_links {sameBody : AliasRef Ty → AliasRef Ty → Option Bool}
    (endless : Ty.sameWith sameBody (.aliasRef (links 0)) (.aliasRef (links 1)) = none)
    (rest : List (Field Ty)) : Ty.sameFieldsWith sameBody (⟨none, .aliasRef (links 0)⟩ :: rest)
      (⟨none, .aliasRef (links 1)⟩ :: rest) = none := by
  simp [Ty.sameFieldsWith, andThenSame, endless]

/-- Comparing the two aliases goes on with their bodies, which begin with the same aliases. -/
theorem sameWithin_links (inherited : AliasRef Ty) (depth : Nat) :
    (context inherited).store.sameWithin depth (.aliasRef (links 0)) (.aliasRef (links 1)) =
      none := by
  induction depth with
  | zero => rfl
  | succ depth ih =>
    change (context inherited).store.sameWithin depth (body 0) (body 1) = none
    cases depth with
    | zero => exact sameFieldsWith_links ih [⟨none, .prim .int⟩]
    | succ depth => exact sameFieldsWith_links ih [⟨none, .prim .int⟩]

/-- Two constructors of chains with different links are compared without end, and so reifying does
not end which reads them. -/
theorem not_terminates :
    (∀ depth, (context (links 1)).store.sameWithin depth (.constructor (constructor 1 (links 0)))
      (.constructor (constructor 2 (links 1))) = none) ∧
      Ty.reify (context (links 1)) (.dataRef chain) = .error .endless := by
  refine ⟨fun depth => ?_, rfl⟩
  have endless := sameWithin_links (links 1) depth
  cases depth with
  | zero => exact sameFieldsWith_links endless []
  | succ depth => exact sameFieldsWith_links endless []

end Chain

end Reification.Reify
