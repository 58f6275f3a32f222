import Reification.Proofs.Adequacy

/-!
# Names which are not reached

A reconstruction asks for the alternatives of those names only which are reached from its symbol.  So
it runs in the same way with all definitions which agree on these: whatever else they define, and
whatever they say of the subjects of choices, of which a reconstruction takes no notice.
-/

namespace Reification.Reconstruct

section Congr

/-- What is done for a symbol depends on the types of the names in it and on its nonterminals. -/
theorem compositional_eq : Compositional fun {_} _ building building' => building = building' where
  pure _ := rfl
  bind first second := by rw [first, funext second]
  owner _ := rfl
  constructor _ _ _ := rfl
  alias_ := id

theorem declareConstructors_congr {fieldsOf fieldsOf' : List Symbol → Building (List (Field Ty))}
    (owner : DataRef Ty) {productions : List Production}
    (fields : ∀ production ∈ productions, production.name.isSome →
      fieldsOf production.symbols = fieldsOf' production.symbols) :
    declareConstructors fieldsOf owner productions =
      declareConstructors fieldsOf' owner productions := by
  induction productions with
  | nil => rfl
  | cons production productions ih =>
    obtain ⟨head, tail⟩ := List.forall_mem_cons.mp fields
    unfold declareConstructors
    rcases name_eq : production.name with _ | name
    · simp only [ih tail]
    · simp only [ih tail, head (by simp [name_eq])]

end Congr

variable {resolve resolve' : Resolver} {symbol visited : Symbol} {name : String} {depth : Nat}

theorem namedWith_congr {expand expand' : String → Symbol → Building Ty}
    (same : resolve' name = resolve name)
    (expands : ∀ production, (resolve name).first? = some production →
      expand' name production.subject = expand name production.subject) :
    namedWith resolve' expand' name = namedWith resolve expand name := by
  funext actuals
  unfold namedWith
  congr 1
  funext world
  rw [same]
  split
  · rfl
  · split
    · next production first_eq => rw [expands production first_eq]
    · rfl

theorem declareFor_congr (same : resolve' name = resolve name)
    (contents : ∀ content ∈ contentsOf resolve name,
      typeWithin resolve' depth content = typeWithin resolve depth content) :
    declareFor resolve' depth name = declareFor resolve depth name := by
  have subject_eq : subjectOf? resolve' name = subjectOf? resolve name := by
    simp only [subjectOf?, same]
  funext formals
  unfold declareFor
  rw [subject_eq, same]
  split
  · next other parameters alias_eq =>
    have body_eq : bodyType (typeWithin resolve' depth) (resolve name) =
        bodyType (typeWithin resolve depth) (resolve name) := by
      unfold bodyType
      split
      · next content content_eq =>
        exact contents content (mem_contentsOf_of_body alias_eq content_eq)
      · rfl
    simp only [declareAlias_eq, body_eq]
  · next no_alias =>
    have constructors_eq (declared : DataRef Ty) :
        declareConstructors (fieldsWithin resolve' depth) declared (resolve name).toList =
          declareConstructors (fieldsWithin resolve depth) declared (resolve name).toList :=
      declareConstructors_congr declared fun production mem named => compositional_eq.fieldsWith
        fun content content_mem =>
          contents content (mem_contentsOf_of_field no_alias mem named content_mem)
    simp only [declareData, constructors_eq]

/-- Whether two resolvers agree on the names and nonterminals which are reached from a symbol. -/
structure AgreeFrom (resolve resolve' : Resolver) (symbol : Symbol) : Prop where
  names : ∀ name, Reaches resolve symbol name → resolve' name = resolve name
  sorts : ∀ name, MeetsSort resolve symbol name → resolve' name = resolve name

/-- All symbols which a reconstruction goes through have the same types if all names which are
reached are expanded in the same way. -/
theorem AgreeFrom.typeWithin_eq (agree : AgreeFrom resolve resolve' symbol)
    (expands : ∀ name, Reaches resolve symbol name → ∀ production,
      (resolve name).first? = some production →
        expandWithin resolve' depth name production.subject =
          expandWithin resolve depth name production.subject)
    (goes : GoesThrough resolve symbol visited) :
    typeWithin resolve' depth visited = typeWithin resolve depth visited := by
  refine compositional_eq.typeWith (fun name names actuals => ?_) fun name mem => ?_
  · have reaches := goes.reaches names
    rw [namedWith_congr (agree.names name reaches) (expands name reaches)]
  · unfold sortWith
    rw [agree.sorts name ⟨visited, goes, mem⟩]

/-- Every name which is reached is expanded in the same way. -/
theorem AgreeFrom.expandWithin_eq (agree : AgreeFrom resolve resolve' symbol) (depth : Nat)
    (name : String) (reaches : Reaches resolve symbol name) (production : Production)
    (first_eq : (resolve name).first? = some production) :
    expandWithin resolve' depth name production.subject =
      expandWithin resolve depth name production.subject := by
  induction depth generalizing name production with
  | zero => rfl
  | succ depth ih =>
    have same := agree.names name reaches
    have parts {part : Symbol} (mem : part ∈ formalsOf resolve name ++ contentsOf resolve name) :
        typeWithin resolve' depth part = typeWithin resolve depth part :=
      agree.typeWithin_eq ih (.inr ⟨name, reaches, mem⟩)
    have formals_eq : formalsOf resolve' name = formalsOf resolve name := by
      simp only [formalsOf, subjectOf?, same]
    have types_eq : typesWithin resolve' depth (formalsOf resolve name) =
        typesWithin resolve depth (formalsOf resolve name) :=
      compositional_eq.typesWith fun formal mem => parts (List.mem_append_left _ mem)
    rw [Reconstruct.expandWithin_eq first_eq, Reconstruct.expandWithin_eq (same ▸ first_eq),
      formals_eq, types_eq, declareFor_congr same fun content mem =>
        parts (List.mem_append_right _ mem)]

/-- The alternatives of names which are not reached make no difference at any depth. -/
theorem AgreeFrom.typeWithin_symbol (agree : AgreeFrom resolve resolve' symbol) (depth : Nat) :
    typeWithin resolve' depth symbol = typeWithin resolve depth symbol :=
  agree.typeWithin_eq (agree.expandWithin_eq depth) (.inl rfl)

/-- Two resolvers agree if they do on a list of names which is closed under mentions. -/
theorem AgreeFrom.of_closed {names : List String}
    (start : ∀ mention ∈ symbol.mentions, mention.name ∈ names)
    (closed : ∀ user ∈ names, ∀ mention ∈ mentionsOf resolve user, mention.name ∈ names)
    (same : ∀ name ∈ names, resolve' name = resolve name) : AgreeFrom resolve resolve' symbol where
  names _ reaches := same _ (reaches.mem_of_closed start closed)
  sorts name meets := by
    obtain ⟨visited, rfl | ⟨user, reaches, visited_mem⟩, sort_mem⟩ := meets
    · exact same name (start (.sort name) sort_mem)
    · exact same name (closed user (reaches.mem_of_closed start closed) (.sort name)
        (Symbol.mem_mentionsOfAll visited_mem sort_mem))

/-- A reconstruction ends in the same way, with the same type or the same error and in the same
world, or not at all, with all definitions which give the same alternatives to the names which are
reached from its symbol. -/
theorem reconstruct_endsAlike {definitions others : Definitions} {symbol : Symbol}
    (agree : AgreeFrom definitions.alternativesOf others.alternativesOf symbol) (world : World) :
    (Reified.reconstruct ⟨symbol, definitions⟩).EndsAlike (Reified.reconstruct ⟨symbol, others⟩)
      world := by
  have deeper := typeOf_endsAlike_deeper
    (le_max_left (maxDepth definitions) (maxDepth others)) symbol world
  have others_deeper := typeOf_endsAlike_deeper
    (le_max_right (maxDepth definitions) (maxDepth others)) symbol world
  rw [agree.typeWithin_symbol] at others_deeper
  exact deeper.trans others_deeper.symm

/-! Ships with a port, an alias, and a flag, a nonterminal.  Crews belong to no ship. -/

namespace Fleet

def ship : Production where
  subject := .dataRef "Ship" []
  name := some "ship"
  symbols := [.list (.dataRef "Ship" []), .aliasRef "Port" [], .sort "Flag"]

def port : Production where
  subject := .aliasRef "Port" []
  symbols := [.tuple [.prim .str, .dataRef "Ship" []]]

def flag : Production where
  subject := .sort "Flag"
  symbols := [.prim .str, .sort "Flag"]

def crew : Production where
  subject := .dataRef "Crew" []
  name := some "crew"
  symbols := [.dataRef "Ship" []]

def definitions : Definitions where
  entries := [("Crew", ⟨.dataRef "Crew" [], .ofList [crew]⟩),
    ("Flag", ⟨.sort "Flag", .ofList [flag]⟩),
    ("Port", ⟨.aliasRef "Port" [], .ofList [port]⟩), ("Ship", ⟨.dataRef "Ship" [], .ofList [ship]⟩)]
  increasing := by decide

/-- The crews are gone, there are wrecks, and the choices of the others have subjects which do not
suit them. -/
def others : Definitions where
  entries := [("Crew", ⟨.dataRef "Crew" [], ∅⟩), ("Flag", ⟨.prim .int, .ofList [flag]⟩),
    ("Port", ⟨.dataRef "Port" [.sort "Flag"], .ofList [port]⟩),
    ("Ship", ⟨.aliasRef "Crew" [], .ofList [ship]⟩), ("Wreck", ⟨.sort "Wreck", .ofList [ship]⟩)]
  increasing := by decide

theorem agreeFrom :
    AgreeFrom definitions.alternativesOf others.alternativesOf (.dataRef "Ship" []) := by
  have closed : ∀ user ∈ ["Flag", "Port", "Ship"],
      ∀ mention ∈ mentionsOf definitions.alternativesOf user,
        mention.name ∈ ["Flag", "Port", "Ship"] := by decide
  exact .of_closed (by decide) closed (by decide)

theorem ship_run_eq :
    AgreeFrom definitions.alternativesOf others.alternativesOf (.dataRef "Ship" []) ∧
      (Reified.reconstruct ⟨.dataRef "Ship" [], definitions⟩).run.run {} =
        (Reified.reconstruct ⟨.dataRef "Ship" [], others⟩).run.run {} := by
  refine ⟨agreeFrom, (reconstruct_endsAlike agreeFrom {}).resolve_left fun ⟨endless, _⟩ => ?_⟩
  have succeeds : ((Reified.reconstruct ⟨.dataRef "Ship" [], definitions⟩).run.run {}).1.toBool =
      true := by decide +kernel
  rw [endless] at succeeds
  cases succeeds

end Fleet

end Reification.Reconstruct
