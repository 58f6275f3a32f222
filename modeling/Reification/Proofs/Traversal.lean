import Mathlib.Data.Finset.Card
import Mathlib.Data.List.Basic
import Mathlib.Logic.Relation
import Reification.Proofs.Building
import Reification.Proofs.Entries

/-!
# Traversal

Reifying a type expands every name which is reached from it exactly once, provided that every name
is declared for the use in which it is reached.  While a name is being expanded it counts as visited
but is not recorded yet; when nothing is being expanded, what has been recorded is closed under
mentions.
-/

namespace Reification.Reify

section Ends

variable {α β : Type} {progress : Progress} {failed failed' : Failure → Prop}

/-- The outcome of a computation is as stated: `ok` holds of its result and of what has been met, or
`failed` holds of its failure. -/
def Ends (collecting : Collecting α) (progress : Progress) (ok : α → Progress → Prop)
    (failed : Failure → Prop) : Prop :=
  match collecting.run.run progress with
  | (.ok result, after) => ok result after
  | (.error failure, _) => failed failure

theorem ends_pure {result : α} {ok : α → Progress → Prop} (holds : ok result progress) :
    Ends (pure result) progress ok failed := holds

theorem ends_throw {failure : Failure} {ok : α → Progress → Prop} (fails : failed failure) :
    Ends (throw failure) progress ok failed := fails

theorem Ends.bind {collecting : Collecting α} {next : α → Collecting β}
    {middle : α → Progress → Prop} {ok : β → Progress → Prop}
    (first : Ends collecting progress middle failed)
    (second : ∀ result after, middle result after → Ends (next result) after ok failed) :
    Ends (collecting >>= next) progress ok failed := by
  unfold Ends at first ⊢
  rw [Failure.run_bind]
  revert first
  rcases collecting.run.run progress with ⟨failure | result, after⟩
  · exact id
  · exact second result after

theorem Ends.mono {collecting : Collecting α} {ok ok' : α → Progress → Prop}
    (ends : Ends collecting progress ok failed)
    (le : ∀ result after, ok result after → ok' result after)
    (failed_le : ∀ failure, failed failure → failed' failure) :
    Ends collecting progress ok' failed' := by
  unfold Ends at ends ⊢
  revert ends
  rcases collecting.run.run progress with ⟨failure | result, after⟩
  · exact failed_le failure
  · exact le result after

theorem ends_of_failed {collecting : Collecting α} (fails : ∀ failure, failed failure) :
    Ends collecting progress (fun _ _ => True) failed := by
  unfold Ends
  rcases collecting.run.run progress with ⟨failure | result, after⟩
  · exact fails failure
  · trivial

/-- A name is marked unless it has been visited before. -/
theorem run_markVisited (name : String) (progress : Progress) :
    (markVisited name).run.run progress =
      if name ∈ progress.visited then (.ok false, progress)
      else (.ok true, { progress with visited := name :: progress.visited }) := by
  have run_eq : (markVisited name).run.run progress =
      (if progress.visited.contains name then (pure false : Collecting Bool) else do
        set { progress with visited := name :: progress.visited }
        return true).run.run progress := rfl
  rw [run_eq, List.contains_eq_mem]
  by_cases mem : name ∈ progress.visited <;> simp only [mem, decide_true, decide_false] <;> rfl

theorem ends_markVisited (name : String) :
    Ends (markVisited name) progress (fun fresh after =>
      fresh = false ∧ name ∈ progress.visited ∧ after = progress ∨
        fresh = true ∧ name ∉ progress.visited ∧
          after = { progress with visited := name :: progress.visited }) failed := by
  unfold Ends
  rw [run_markVisited]
  by_cases mem : name ∈ progress.visited
  · rw [if_pos mem]
    exact .inl ⟨rfl, mem, rfl⟩
  · rw [if_neg mem]
    exact .inr ⟨rfl, mem, rfl⟩

/-- The alternatives of a subject are recorded behind those which there are. -/
theorem ends_record {subject : Symbol} {alternatives : List Production}
    {ok : Unit → Progress → Prop}
    (holds : ok () { progress with
      pairs := progress.pairs ++ alternatives.map fun found => (subject, found)
      bare := progress.bare ++ if alternatives.isEmpty then [subject] else [] }) :
    Ends (record subject alternatives) progress ok failed := by
  have run_eq : (record subject alternatives).run.run progress = (.ok (),
      if alternatives.isEmpty then { progress with bare := progress.bare ++ [subject] }
      else { progress with
        pairs := progress.pairs ++ alternatives.map fun found => (subject, found) }) := rfl
  unfold Ends
  rw [run_eq]
  cases alternatives <;> simpa using holds

end Ends

variable {context : Context} {root : List Mention} {progress : Progress}

/-- Whether a name is mentioned in the entry of another one. -/
def Context.Leads (context : Context) (mention next : Mention) : Prop :=
  ∃ entry, context.entryOf? mention = some entry ∧ next ∈ Symbol.mentionsOfAll entry.symbols

/-- Whether a name is met when some mentions are visited. -/
def Context.Meets (context : Context) (root : List Mention) (mention : Mention) : Prop :=
  ∃ first ∈ root, Relation.ReflTransGen context.Leads first mention

theorem Context.Meets.leads {mention next : Mention} (meets : context.Meets root mention)
    (leads : context.Leads mention next) : context.Meets root next := by
  obtain ⟨first, mem, path⟩ := meets
  exact ⟨first, mem, path.tail leads⟩

/-- What has been met: some names are being expanded and others are recorded. -/
structure Explored (context : Context) (root opened : List Mention)
    (done : List (Mention × Entry)) (progress : Progress) : Prop where
  visited_iff : ∀ {name}, name ∈ progress.visited ↔
    name ∈ (opened ++ done.map (·.1)).map Mention.name
  pairs_eq : progress.pairs = done.flatMap fun found =>
    found.2.alternatives.map fun alternative => (found.2.subject, alternative)
  bare_eq : progress.bare = (done.filter (·.2.alternatives.isEmpty)).map (·.2.subject)
  /-- No name is expanded twice. -/
  distinct : ((opened ++ done.map (·.1)).map Mention.name).Nodup
  entry_eq : ∀ found ∈ done, context.Meets root found.1 ∧ context.entryOf? found.1 = some found.2
  /-- The mentions in what is recorded have been visited. -/
  closed : ∀ found ∈ done, ∀ next ∈ Symbol.mentionsOfAll found.2.symbols,
    next.name ∈ progress.visited

theorem Explored.mark {opened : List Mention} {done : List (Mention × Entry)} {mention : Mention}
    (explored : Explored context root opened done progress)
    (fresh : mention.name ∉ progress.visited) :
    Explored context root (mention :: opened) done
      { progress with visited := mention.name :: progress.visited } where
  visited_iff {name} := by simp [explored.visited_iff]
  pairs_eq := explored.pairs_eq
  bare_eq := explored.bare_eq
  distinct := by
    rw [List.cons_append, List.map_cons, List.nodup_cons]
    exact ⟨mt explored.visited_iff.mpr fresh, explored.distinct⟩
  entry_eq := explored.entry_eq
  closed found mem next next_mem := List.mem_cons_of_mem _ (explored.closed found mem next next_mem)

theorem Explored.record {opened : List Mention} {done : List (Mention × Entry)} {mention : Mention}
    {entry : Entry} (explored : Explored context root (mention :: opened) done progress)
    (meets : context.Meets root mention) (entry_eq : context.entryOf? mention = some entry)
    (closed : ∀ next ∈ Symbol.mentionsOfAll entry.symbols, next.name ∈ progress.visited) :
    Explored context root opened (done ++ [(mention, entry)])
      { progress with
        pairs := progress.pairs ++ entry.alternatives.map fun found => (entry.subject, found)
        bare := progress.bare ++ if entry.alternatives.isEmpty then [entry.subject] else [] } where
  visited_iff {name} := by
    rw [explored.visited_iff]
    simp only [List.map_append, List.map_cons, List.mem_append, List.mem_cons, List.map_nil,
      List.not_mem_nil, or_false, List.cons_append]
    tauto
  pairs_eq := by simp [explored.pairs_eq]
  bare_eq := by
    rw [explored.bare_eq, List.filter_append, List.map_append, List.filter_singleton]
    cases entry.alternatives.isEmpty <;> simp
  distinct := by
    refine (List.Perm.nodup_iff ?_).mp explored.distinct
    refine List.Perm.map _ ?_
    rw [List.map_append, ← List.append_assoc]
    exact (List.perm_append_singleton mention (opened ++ done.map (·.1))).symm
  entry_eq found mem := by
    rcases List.mem_append.mp mem with mem | mem
    · exact explored.entry_eq found mem
    · obtain rfl := List.mem_singleton.mp mem
      exact ⟨meets, entry_eq⟩
  closed found mem := by
    rcases List.mem_append.mp mem with mem | mem
    · exact explored.closed found mem
    · obtain rfl := List.mem_singleton.mp mem
      exact closed

/-- The names which are declared in some layer. -/
def Context.names (context : Context) : Finset String :=
  ((context.registry.layers.flatMap (·.declarations.entries)).map (·.1)).toFinset

theorem Context.card_names_le (context : Context) :
    context.names.card ≤ context.registry.declarationCount := by
  refine (List.toFinset_card_le _).trans ?_
  rw [List.length_map, Registry.declarationCount]

theorem Context.mem_names {name : String} {type : Ty}
    (declared : context.registry.lookup? name = some type) : name ∈ context.names := by
  obtain ⟨layer, mem, get_eq⟩ := List.exists_of_findSome?_eq_some declared
  rw [names, List.mem_toFinset, List.mem_map]
  exact ⟨(name, type), List.mem_flatMap.mpr ⟨layer, mem, Table.get?_eq_some_iff.mp get_eq⟩, rfl⟩

/-- A name with an entry is declared, or it is a nonterminal, which mentions nothing. -/
theorem Context.declared_or_nil {mention : Mention} {entry : Entry}
    (entry_eq : context.entryOf? mention = some entry) :
    mention.name ∈ context.names ∨ entry.symbols = [] := by
  cases mention with
  | dataRef name =>
    obtain ⟨declared, declared_eq, -⟩ := Option.bind_eq_some_iff.mp entry_eq
    unfold Registry.lookupData? at declared_eq
    split at declared_eq
    · next lookup_eq => exact .inl (mem_names lookup_eq)
    · cases declared_eq
  | aliasRef name =>
    obtain ⟨declared, declared_eq, -⟩ := Option.bind_eq_some_iff.mp entry_eq
    unfold Registry.lookupAlias? at declared_eq
    split at declared_eq
    · next lookup_eq => exact .inl (mem_names lookup_eq)
    · cases declared_eq
  | sort name =>
    obtain rfl := Option.some.inj entry_eq
    exact .inr rfl

/-- The declared names which have not been visited. -/
def Context.unvisited (context : Context) (progress : Progress) : Finset String :=
  context.names.filter (· ∉ progress.visited)

theorem Context.card_unvisited_le {after : Progress}
    (visited_le : progress.visited ⊆ after.visited) :
    (context.unvisited after).card ≤ (context.unvisited progress).card :=
  Finset.card_le_card fun name mem => by
    obtain ⟨declared, fresh⟩ := Finset.mem_filter.mp mem
    exact Finset.mem_filter.mpr ⟨declared, fun visited => fresh (visited_le visited)⟩

theorem Context.card_unvisited_lt {name : String} (declared : name ∈ context.names)
    (fresh : name ∉ progress.visited) :
    (context.unvisited { progress with visited := name :: progress.visited }).card <
      (context.unvisited progress).card := by
  refine Finset.card_lt_card (Finset.ssubset_iff_of_subset ?_ |>.mpr ⟨name, ?_, ?_⟩)
  · intro other mem
    obtain ⟨declared, fresh⟩ := Finset.mem_filter.mp mem
    exact Finset.mem_filter.mpr ⟨declared, fun visited => fresh (List.mem_cons_of_mem _ visited)⟩
  · exact Finset.mem_filter.mpr ⟨declared, fresh⟩
  · simp [unvisited]

/-- The failures with which the expansion of a name ends that has no entry.  If its constructors
cannot be compared, its formal parameters are visited before that is found out, with any failure. -/
def Context.Refuses (context : Context) : Mention → Failure → Prop
  | .dataRef name, failure =>
    match context.registry.lookupData? name with
    | none => failure = .error (.undeclared .dataType name)
    | some _ => context.registry.constructorsOf context.store name = none
  | .aliasRef name, failure =>
    match context.registry.lookupAlias? name with
    | none => failure = .error (.undeclared .aliasType name)
    | some declared => context.store.body? declared = none ∧
        failure = .error (.fault (.missingBody name))
  | .sort _, _ => False

theorem Context.Refuses.entryOf?_eq_none {mention : Mention} {failure : Failure}
    (refuses : context.Refuses mention failure) : context.entryOf? mention = none := by
  cases mention with
  | dataRef name =>
    simp only [Refuses] at refuses
    split at refuses
    · next undeclared => simp [entryOf?, undeclared]
    · next declared declared_eq => simp [entryOf?, declared_eq, refuses]
  | aliasRef name =>
    simp only [Refuses] at refuses
    split at refuses
    · next undeclared => simp [entryOf?, undeclared]
    · next declared declared_eq => simp [entryOf?, declared_eq, refuses.1]
  | sort name => exact refuses.elim

/-- A name without an entry is never expanded to the end. -/
theorem expand_fails {visit : Mention → Collecting Unit} {mention : Mention}
    (entry_eq : context.entryOf? mention = none) {ok : Unit → Progress → Prop} :
    Ends (expand context visit mention) progress ok (context.Refuses mention) := by
  cases mention with
  | dataRef name =>
    change Ends (expandData context visit name) progress ok _
    unfold expandData
    split
    · next declared declared_eq =>
      have constructors_eq : context.registry.constructorsOf context.store name = none := by
        rw [Option.eq_none_iff_forall_ne_some]
        intro constructors known
        simp [Context.entryOf?, declared_eq, known] at entry_eq
      have refuses (failure : Failure) : context.Refuses (.dataRef name) failure := by
        simpa only [Context.Refuses, declared_eq] using constructors_eq
      refine (ends_of_failed refuses).bind fun _ _ _ => ?_
      rw [constructors_eq]
      exact refuses _
    · next undeclared =>
      have undeclared : context.registry.lookupData? name = none :=
        Option.eq_none_iff_forall_ne_some.mpr undeclared
      exact ends_throw (by simp only [Context.Refuses, undeclared])
  | aliasRef name =>
    change Ends (expandAlias context visit name) progress ok _
    unfold expandAlias
    split
    · next declared declared_eq =>
      split
      · next body body_eq => simp [Context.entryOf?, declared_eq, body_eq] at entry_eq
      · next pending =>
        have pending : context.store.body? declared = none :=
          Option.eq_none_iff_forall_ne_some.mpr pending
        exact ends_throw (by simp only [Context.Refuses, declared_eq, pending, and_self])
    · next undeclared =>
      have undeclared : context.registry.lookupAlias? name = none :=
        Option.eq_none_iff_forall_ne_some.mpr undeclared
      exact ends_throw (by simp only [Context.Refuses, undeclared])
  | sort name => simp [Context.entryOf?] at entry_eq

/-- Whether some name which is met has no entry. -/
def Context.Lacks (context : Context) (root : List Mention) : Prop :=
  ∃ mention, context.Meets root mention ∧ context.entryOf? mention = none

/-- Whether some name which is met ends reifying with a failure. -/
def Context.Fails (context : Context) (root : List Mention) (failure : Failure) : Prop :=
  ∃ mention, context.Meets root mention ∧ context.Refuses mention failure

theorem Context.Fails.lacks {failure : Failure} (fails : context.Fails root failure) :
    context.Lacks root := by
  obtain ⟨mention, meets, refuses⟩ := fails
  exact ⟨mention, meets, refuses.entryOf?_eq_none⟩

/-- What is known when some names have been visited: they have been recorded, and what is being
expanded is as it was. -/
def Visited (context : Context) (root opened : List Mention) (before : Progress)
    (mentions : List Mention) (after : Progress) : Prop :=
  before.visited ⊆ after.visited ∧ (∀ mention ∈ mentions, mention.name ∈ after.visited) ∧
    ∃ done, Explored context root opened done after

theorem forM_ends {visit : Mention → Collecting Unit} {opened mentions : List Mention}
    {done : List (Mention × Entry)}
    (visit_ends : ∀ mention ∈ mentions, ∀ {done progress'},
      Explored context root opened done progress' → progress.visited ⊆ progress'.visited →
        Ends (visit mention) progress'
          (fun _ after => Visited context root opened progress' [mention] after)
          (context.Fails root))
    (explored : Explored context root opened done progress) :
    Ends (mentions.forM visit) progress
      (fun _ after => Visited context root opened progress mentions after)
      (context.Fails root) := by
  have step (mentions : List Mention) (progress' : Progress) (done : List (Mention × Entry))
      (visit_ends : ∀ mention ∈ mentions, ∀ {done progress'},
        Explored context root opened done progress' → progress.visited ⊆ progress'.visited →
          Ends (visit mention) progress'
            (fun _ after => Visited context root opened progress' [mention] after)
            (context.Fails root))
      (explored : Explored context root opened done progress')
      (le : progress.visited ⊆ progress'.visited) :
      Ends (mentions.forM visit) progress'
        (fun _ after => Visited context root opened progress' mentions after)
        (context.Fails root) := by
    induction mentions generalizing progress' done with
    | nil => exact ends_pure ⟨List.Subset.refl _, by simp, done, explored⟩
    | cons mention mentions ih =>
      obtain ⟨head_ends, tail_ends⟩ := List.forall_mem_cons.mp visit_ends
      refine (head_ends explored le).bind ?_
      rintro _ middle ⟨middle_le, mem, middle_done, middle_explored⟩
      refine (ih middle middle_done tail_ends middle_explored
        (List.Subset.trans le middle_le)).mono ?_ fun _ => id
      rintro _ after ⟨after_le, rest, explored'⟩
      exact ⟨List.Subset.trans middle_le after_le, List.forall_mem_cons.mpr
        ⟨after_le (mem mention (List.mem_singleton_self _)), rest⟩, explored'⟩
  exact step mentions progress done visit_ends explored (List.Subset.refl _)

/-- Visiting a name records what is met through it, unless something that is met has no entry. -/
theorem visitWithin_ends (depth : Nat) {mention : Mention} (meets : context.Meets root mention)
    {opened : List Mention} {done : List (Mention × Entry)}
    (explored : Explored context root opened done progress)
    (few : (context.unvisited progress).card < depth) :
    Ends (visitWithin context depth mention) progress
      (fun _ after => Visited context root opened progress [mention] after)
      (context.Fails root) := by
  induction depth generalizing mention opened done progress with
  | zero => omega
  | succ depth ih =>
    rw [visitWithin_succ]
    refine (ends_markVisited mention.name).bind ?_
    rintro _ marked (⟨rfl, mem, rfl⟩ | ⟨rfl, fresh, rfl⟩)
    · exact ends_pure ⟨List.Subset.refl _, by simpa using mem, done, explored⟩
    · rw [if_pos rfl]
      rcases entry_eq : context.entryOf? mention with _ | entry
      · exact (expand_fails entry_eq).mono (fun _ _ => id)
          fun _ refuses => ⟨mention, meets, refuses⟩
      rw [expand_eq entry_eq]
      refine (forM_ends (fun next next_mem {_ progress'} explored' le => ?_)
        (explored.mark fresh)).bind ?_
      · refine ih (meets.leads ⟨entry, entry_eq, next_mem⟩) explored' ?_
        have marked_le := context.card_unvisited_le le
        rcases context.declared_or_nil entry_eq with declared | nil
        · have := context.card_unvisited_lt declared fresh
          omega
        · rw [nil] at next_mem
          cases next_mem
      · rintro _ after ⟨le, closed, done', explored'⟩
        have marked : mention.name ∈ after.visited := le (List.mem_cons_self ..)
        exact ends_record ⟨fun name mem => le (List.mem_cons_of_mem _ mem), by simpa using marked,
          _, explored'.record meets entry_eq closed⟩

theorem subject?_of_entry {mention : Mention} {entry : Entry}
    (entry_eq : context.entryOf? mention = some entry) :
    entry.subject.subject? = some mention.name := by
  cases mention with
  | dataRef name =>
    obtain ⟨declared, -, rest⟩ := Option.bind_eq_some_iff.mp entry_eq
    obtain ⟨constructors, -, rest⟩ := Option.bind_eq_some_iff.mp rest
    obtain rfl := Option.some.inj rest
    rfl
  | aliasRef name =>
    obtain ⟨declared, -, rest⟩ := Option.bind_eq_some_iff.mp entry_eq
    obtain ⟨body, -, rest⟩ := Option.bind_eq_some_iff.mp rest
    obtain rfl := Option.some.inj rest
    rfl
  | sort name =>
    obtain rfl := Option.some.inj entry_eq
    rfl

/-- Whether a computation on definitions gives names the choices of some entries, and changes
nothing else. -/
def Records (done : List (Mention × Entry)) (before after : Definitions) : Prop :=
  (∀ found ∈ done, after.get? found.1.name = some found.2.choice) ∧
    ∀ name, (∀ found ∈ done, found.1.name ≠ name) → after.get? name = before.get? name

/-- Entries of different names may be recorded one after the other. -/
theorem records_foldl {change : Definitions → Mention × Entry → Definitions}
    {done : List (Mention × Entry)} (distinct : (done.map (·.1.name)).Nodup)
    (change_records : ∀ found ∈ done, ∀ definitions : Definitions,
      definitions.get? found.1.name = none →
        Records [found] definitions (change definitions found)) {definitions : Definitions}
    (fresh : ∀ found ∈ done, definitions.get? found.1.name = none) :
    Records done definitions (done.foldl change definitions) := by
  induction done generalizing definitions with
  | nil => exact ⟨by simp, fun _ _ => rfl⟩
  | cons found done ih =>
    obtain ⟨found_fresh, rest_fresh⟩ := List.forall_mem_cons.mp fresh
    obtain ⟨found_records, rest_records⟩ := List.forall_mem_cons.mp change_records
    obtain ⟨not_mem, rest_distinct⟩ := List.nodup_cons.mp distinct
    have name_ne (other : Mention × Entry) (mem : other ∈ done) : other.1.name ≠ found.1.name :=
      fun same => not_mem (List.mem_map.mpr ⟨other, mem, same⟩)
    obtain ⟨first_eq, first_others⟩ := found_records definitions found_fresh
    obtain ⟨later_eq, later_others⟩ := ih rest_distinct rest_records fun other mem =>
      (first_others _ (by simpa using (name_ne other mem).symm)).trans (rest_fresh other mem)
    refine ⟨List.forall_mem_cons.mpr ⟨?_, later_eq⟩, fun name others => ?_⟩
    · exact (later_others _ name_ne).trans (first_eq found (by simp))
    · obtain ⟨found_ne, rest_ne⟩ := List.forall_mem_cons.mp others
      exact (later_others name rest_ne).trans (first_others name (by simpa using found_ne))

theorem get?_foldl_addAlternatives {definitions : Definitions} {name : String} {subject : Symbol}
    {choice : Choice} (known : definitions.get? name = some choice)
    (alternatives : List Production) (other : String) :
    (alternatives.foldl (fun definitions found =>
      Definitions.addAlternatives definitions name subject [found]) definitions).get? other =
      if other = name then
        some { choice with alternatives := choice.alternatives.insertAll alternatives }
      else definitions.get? other := by
  induction alternatives generalizing definitions choice with
  | nil =>
    split
    · next same => simpa [same, OrderedSet.insertAll] using known
    · rfl
  | cons alternative alternatives ih =>
    have added : (Definitions.addAlternatives definitions name subject [alternative]).get? name =
        some { choice with alternatives := choice.alternatives.insert alternative } := by
      simp [Definitions.addAlternatives, Definitions.entry, known, OrderedSet.insertAll]
    rw [List.foldl_cons, ih added]
    split
    · rfl
    · next different => simp [Definitions.addAlternatives, different]

/-- Recording the alternatives of a name gives it the choice of them. -/
theorem records_alternatives {found : Mention × Entry}
    (subject_eq : found.2.subject.subject? = some found.1.name)
    (some_alternative : found.2.alternatives ≠ []) {definitions : Definitions}
    (fresh : definitions.get? found.1.name = none) :
    Records [found] definitions ((found.2.alternatives.map fun alternative =>
      (found.2.subject, alternative)).foldl (fun definitions (subject, production) =>
        match subject.subject? with
        | some name => Definitions.addAlternatives definitions name subject [production]
        | none => definitions) definitions) := by
  obtain ⟨mention, entry⟩ := found
  obtain ⟨subject, symbols, alternatives⟩ := entry
  simp only at subject_eq some_alternative fresh
  obtain ⟨first, rest, rfl⟩ := List.exists_cons_of_ne_nil some_alternative
  simp only [List.foldl_map, subject_eq, List.foldl_cons]
  have added : (Definitions.addAlternatives definitions mention.name subject [first]).get?
      mention.name = some { subject, alternatives := OrderedSet.ofList [first] } := by
    simp [Definitions.addAlternatives, Definitions.entry, fresh, OrderedSet.ofList]
  refine ⟨List.forall_mem_singleton.mpr ?_, fun name others => ?_⟩
  · rw [get?_foldl_addAlternatives added, if_pos rfl]
    rfl
  · have different : name ≠ mention.name := fun same =>
      others _ (List.mem_singleton_self _) same.symm
    rw [get?_foldl_addAlternatives added, if_neg different]
    simp [Definitions.addAlternatives, different]

/-- The entries of a grammar are added for the names which have none. -/
theorem get?_foldl_grammar (entries : List (String × Choice)) (definitions : Definitions)
    (name : String) :
    (entries.foldl (fun definitions (name, choice) =>
      if definitions.contains name then definitions else definitions.insert name choice)
        definitions).get? name = (definitions.get? name).or (entries.lookup name) := by
  induction entries generalizing definitions with
  | nil => simp
  | cons entry entries ih =>
    obtain ⟨other, choice⟩ := entry
    rw [List.foldl_cons, ih, Table.lookup_cons]
    by_cases same : name = other
    · subst same
      rcases known : definitions.get? name with _ | existing <;>
        simp [Table.contains, known]
    · by_cases contained : definitions.contains other = true <;> simp [contained, same]

theorem flatMap_eq_flatMap_filter {α β : Type} {list : List α} {parts : α → List β}
    {keep : α → Bool}
    (nil : ∀ item ∈ list, keep item = false → parts item = []) :
    list.flatMap parts = (list.filter keep).flatMap parts := by
  induction list with
  | nil => rfl
  | cons head tail ih =>
    obtain ⟨head_nil, tail_nil⟩ := List.forall_mem_cons.mp nil
    rw [List.flatMap_cons, ih tail_nil]
    cases kept : keep head with
    | true => simp [kept]
    | false => simp [kept, head_nil kept]

/-- What has been recorded gives every name the choice of its entry. -/
theorem Explored.definitions {done : List (Mention × Entry)}
    (explored : Explored context root [] done progress) (grammar : Definitions) :
    (∀ found ∈ done,
      (progress.definitions grammar).get? found.1.name = some found.2.choice) ∧
      ∀ name, (∀ found ∈ done, found.1.name ≠ name) →
        (progress.definitions grammar).get? name = grammar.get? name := by
  have subject_eq (found : Mention × Entry) (mem : found ∈ done) :
      found.2.subject.subject? = some found.1.name :=
    subject?_of_entry (explored.entry_eq found mem).2
  have distinct : (done.map (·.1.name)).Nodup := by
    simpa [Function.comp_def] using explored.distinct
  have distinct_filter (keep : Mention × Entry → Bool) :
      ((done.filter keep).map (·.1.name)).Nodup :=
    distinct.sublist (List.filter_sublist.map _)
  have name_ne {bare full : Mention × Entry}
      (bare_mem : bare ∈ done.filter (·.2.alternatives.isEmpty))
      (full_mem : full ∈ done.filter (!·.2.alternatives.isEmpty)) :
      full.1.name ≠ bare.1.name := by
    intro same
    obtain ⟨bare_mem, empty⟩ := List.mem_filter.mp bare_mem
    obtain ⟨full_mem, not_empty⟩ := List.mem_filter.mp full_mem
    rw [List.inj_on_of_nodup_map distinct full_mem bare_mem same] at not_empty
    simp [empty] at not_empty
  have pairs_eq : progress.pairs = (done.filter (!·.2.alternatives.isEmpty)).flatMap fun found =>
      found.2.alternatives.map fun alternative => (found.2.subject, alternative) := by
    rw [explored.pairs_eq]
    exact flatMap_eq_flatMap_filter fun found _ empty => by simpa using empty
  have pairs_records : Records (done.filter (!·.2.alternatives.isEmpty)) ∅
      (Definitions.ofPairs progress.pairs) := by
    rw [Definitions.ofPairs, pairs_eq, List.foldl_flatMap]
    refine records_foldl (distinct_filter _) (fun found mem definitions fresh => ?_)
      fun _ _ => Table.get?_empty _
    obtain ⟨mem, some_alternative⟩ := List.mem_filter.mp mem
    exact records_alternatives (subject_eq found mem) (by simpa using some_alternative) fresh
  have bare_records : Records (done.filter (·.2.alternatives.isEmpty))
      (Definitions.ofPairs progress.pairs) (progress.bare.foldl (fun definitions subject =>
        match subject.subject? with
        | some name => Definitions.addAlternatives definitions name subject []
        | none => definitions) (Definitions.ofPairs progress.pairs)) := by
    rw [explored.bare_eq, List.foldl_map]
    refine records_foldl (distinct_filter _) (fun found mem definitions fresh => ?_)
      fun found mem => ?_
    · obtain ⟨mem, empty⟩ := List.mem_filter.mp mem
      rw [List.isEmpty_iff] at empty
      simp only [subject_eq found mem]
      refine ⟨List.forall_mem_singleton.mpr ?_, fun name others => ?_⟩
      · simp [Definitions.addAlternatives, Definitions.entry, fresh, Entry.choice, empty,
          OrderedSet.insertAll, OrderedSet.ofList]
      · have different : name ≠ found.1.name := fun same =>
          others _ (List.mem_singleton_self _) same.symm
        simp [Definitions.addAlternatives, different]
    · exact pairs_records.2 _ fun other other_mem => name_ne mem other_mem
  have get?_eq (name : String) : (progress.definitions grammar).get? name =
      ((progress.bare.foldl (fun definitions subject =>
        match subject.subject? with
        | some name => Definitions.addAlternatives definitions name subject []
        | none => definitions) (Definitions.ofPairs progress.pairs)).get? name).or
          (grammar.get? name) :=
    get?_foldl_grammar _ _ _
  refine ⟨fun found mem => ?_, fun name others => ?_⟩
  · rw [get?_eq]
    cases empty : found.2.alternatives.isEmpty with
    | true => rw [bare_records.1 found (List.mem_filter.mpr ⟨mem, empty⟩), Option.some_or]
    | false =>
      have full_mem : found ∈ done.filter (!·.2.alternatives.isEmpty) :=
        List.mem_filter.mpr ⟨mem, by simp [empty]⟩
      rw [bare_records.2 _ fun other other_mem => (name_ne other_mem full_mem).symm,
        pairs_records.1 found full_mem, Option.some_or]
  · rw [get?_eq, bare_records.2 name fun found mem => others found (List.mem_filter.mp mem).1,
      pairs_records.2 name fun found mem => others found (List.mem_filter.mp mem).1,
      Table.get?_empty, Option.none_or]

/-- Whether no name has entries in two uses in which it is met. -/
def Context.OneKind (context : Context) (root : List Mention) : Prop :=
  ∀ mention other, context.Meets root mention → context.Meets root other →
    mention.name = other.name → context.entryOf? mention ≠ none → context.entryOf? other ≠ none →
      mention = other

/-- When nothing is being expanded, every name which is met has been recorded in one of its uses. -/
theorem Explored.mem_of_meets {done : List (Mention × Entry)}
    (explored : Explored context root [] done progress) (one_kind : context.OneKind root)
    (visited : ∀ mention ∈ root, mention.name ∈ progress.visited) {mention : Mention}
    (meets : context.Meets root mention) :
    (∃ found ∈ done, found.1.name = mention.name) ∧
      ∀ entry, context.entryOf? mention = some entry → (mention, entry) ∈ done := by
  have recorded {mention : Mention} (meets : context.Meets root mention)
      (mem : mention.name ∈ progress.visited) : (∃ found ∈ done, found.1.name = mention.name) ∧
        ∀ entry, context.entryOf? mention = some entry → (mention, entry) ∈ done := by
    have name_mem := explored.visited_iff.mp mem
    rw [List.nil_append, List.map_map] at name_mem
    obtain ⟨⟨other, found⟩, found_mem, name_eq⟩ := List.mem_map.mp name_mem
    refine ⟨⟨_, found_mem, name_eq⟩, fun entry entry_eq => ?_⟩
    obtain ⟨other_meets, found_eq⟩ := explored.entry_eq _ found_mem
    obtain rfl := one_kind _ _ other_meets meets name_eq (by simp [found_eq]) (by simp [entry_eq])
    obtain rfl := Option.some.inj (entry_eq.symm.trans found_eq)
    exact found_mem
  obtain ⟨first, first_mem, path⟩ := meets
  induction path with
  | refl => exact recorded ⟨first, first_mem, .refl⟩ (visited first first_mem)
  | tail path leads ih =>
    obtain ⟨entry, entry_eq, next_mem⟩ := leads
    exact recorded ⟨first, first_mem, path.tail ⟨entry, entry_eq, next_mem⟩⟩
      (explored.closed _ (ih.2 entry entry_eq) _ next_mem)

/-- Reifying a type gives its symbol and what has been recorded when every name in it has been
visited.  It fails only if some name has no entry for a use in which it is met. -/
theorem reify_ends (context : Context) (type : Ty) :
    match type.reify context with
    | .ok reified => reified.symbol = type.symbol ∧ ∃ done progress,
        Explored context type.symbol.mentions [] done progress ∧
        (∀ mention ∈ type.symbol.mentions, mention.name ∈ progress.visited) ∧
        reified.definitions = progress.definitions context.grammar
    | .error failure => context.Fails type.symbol.mentions failure := by
  have start : Explored context type.symbol.mentions [] [] {} :=
    ⟨by simp, rfl, rfl, by simp, by simp, by simp⟩
  have ends : Ends (symbolOf context type) {} (fun symbol after => symbol = type.symbol ∧
      Visited context type.symbol.mentions [] {} type.symbol.mentions after)
      (context.Fails type.symbol.mentions) := by
    rw [symbolOf, symbolWith_eq]
    refine (forM_ends (fun mention mem {_ progress} explored _ => visitWithin_ends _
      ⟨mention, mem, .refl⟩ explored ?_) start).bind fun _ after visited => ?_
    · have := Finset.card_filter_le context.names (· ∉ progress.visited)
      have := context.card_names_le
      simp only [Context.unvisited]
      omega
    · exact ends_pure ⟨rfl, visited⟩
  unfold Ends at ends
  unfold Ty.reify
  split at ends
  · next run_eq =>
    rw [show (symbolOf context type).run {} = _ from run_eq]
    obtain ⟨rfl, -, visited, done, explored⟩ := ends
    exact ⟨rfl, done, _, explored, visited, rfl⟩
  · next run_eq =>
    rw [show (symbolOf context type).run {} = _ from run_eq]
    exact ends

/-- Reifying a type gives its symbol and the choices of the names which are met, besides what the
grammar has for others.  It fails only if some name has no entry for a use in which it is met. -/
theorem reify_spec (context : Context) (type : Ty)
    (one_kind : context.OneKind type.symbol.mentions) :
    match type.reify context with
    | .ok reified => reified.symbol = type.symbol ∧
        (∀ mention, context.Meets type.symbol.mentions mention →
          ∃ other, context.Meets type.symbol.mentions other ∧ other.name = mention.name ∧
            context.entryOf? other ≠ none) ∧
        (∀ mention entry, context.Meets type.symbol.mentions mention →
          context.entryOf? mention = some entry →
            reified.definitions.get? mention.name = some entry.choice) ∧
        ∀ name, (∀ mention, context.Meets type.symbol.mentions mention → mention.name ≠ name) →
          reified.definitions.get? name = context.grammar.get? name
    | .error _ => context.Lacks type.symbol.mentions := by
  have ends := reify_ends context type
  split at ends
  · next reified _ =>
    obtain ⟨symbol_eq, done, progress, explored, visited, definitions_eq⟩ := ends
    rw [definitions_eq]
    obtain ⟨known, others⟩ := explored.definitions context.grammar
    refine ⟨symbol_eq, fun mention meets => ?_, fun mention entry meets entry_eq => ?_,
      fun name different => others name fun found mem =>
        different found.1 (explored.entry_eq found mem).1⟩
    · obtain ⟨⟨found, found_mem, name_eq⟩, -⟩ := explored.mem_of_meets one_kind visited meets
      obtain ⟨found_meets, entry_eq⟩ := explored.entry_eq found found_mem
      exact ⟨found.1, found_meets, name_eq, by simp [entry_eq]⟩
    · exact known _ ((explored.mem_of_meets one_kind visited meets).2 entry entry_eq)
  · exact ends.lacks

end Reification.Reify
