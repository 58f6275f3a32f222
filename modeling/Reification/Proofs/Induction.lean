import Reification.Ty

/-!
# Induction on types and symbols

Types and symbols are nested in lists and fields.  The principles of this module have one case for
each constructor, in which the claim is known of every part.
-/

namespace Reification

/-- A claim about all types follows from the claim for each kind of type. -/
@[elab_as_elim]
theorem Ty.induction {P : Ty → Prop}
    (prim : ∀ primitive, P (.prim primitive))
    (list : ∀ element, P element → P (.list element))
    (set : ∀ element, P element → P (.set element))
    (map : ∀ key value, P key → P value → P (.map key value))
    (tuple : ∀ fields, (∀ field ∈ fields, P field.type) → P (.tuple fields))
    (func : ∀ result arguments, P result → (∀ field ∈ arguments, P field.type) →
      P (.func result arguments))
    (reified : ∀ inner, P inner → P (.reified inner))
    (parameter : ∀ name bound, P bound → P (.parameter name bound))
    (dataRef : ∀ object name parameters, (∀ type ∈ parameters, P type) →
      P (.dataRef ⟨object, name, parameters⟩))
    (aliasRef : ∀ object name parameters, (∀ type ∈ parameters, P type) →
      P (.aliasRef ⟨object, name, parameters⟩))
    (constructor : ∀ object owner ownerName parameters name fields attributes,
      (∀ type ∈ parameters, P type) → (∀ field ∈ fields, P field.type) →
      P (.constructor ⟨object, ⟨owner, ownerName, parameters⟩, name, fields, attributes⟩))
    (sort : ∀ name, P (.sort name)) (type : Ty) : P type :=
  @Ty.rec P (fun fields => ∀ field ∈ fields, P field.type)
    (fun reference => ∀ type ∈ reference.parameters, P type)
    (fun reference => ∀ type ∈ reference.parameters, P type)
    (fun reference => (∀ type ∈ reference.owner.parameters, P type) ∧
      ∀ field ∈ reference.fields, P field.type)
    (fun field => P field.type) (fun types => ∀ type ∈ types, P type)
    prim list set map tuple func reified parameter
    (fun ⟨object, name, parameters⟩ => dataRef object name parameters)
    (fun ⟨object, name, parameters⟩ => aliasRef object name parameters)
    (fun ⟨object, ⟨owner, ownerName, parameters⟩, name, fields, attributes⟩ ⟨known, fields_known⟩ =>
      constructor object owner ownerName parameters name fields attributes known fields_known)
    sort (fun _ mem => nomatch mem)
    (fun _ _ head_known tail_known => List.forall_mem_cons.mpr ⟨head_known, tail_known⟩)
    (fun _ _ _ known => known) (fun _ _ _ known => known)
    (fun _ _ _ _ _ known fields_known => ⟨known, fields_known⟩) (fun _ _ known => known)
    (fun _ mem => nomatch mem)
    (fun _ _ head_known tail_known => List.forall_mem_cons.mpr ⟨head_known, tail_known⟩) type

/-- A claim about all symbols follows from the claim for each kind of symbol. -/
@[elab_as_elim]
theorem Symbol.induction {P : Symbol → Prop}
    (prim : ∀ primitive, P (.prim primitive))
    (label : ∀ name inner, P inner → P (.label name inner))
    (list : ∀ element, P element → P (.list element))
    (set : ∀ element, P element → P (.set element))
    (map : ∀ key value, P key → P value → P (.map key value))
    (tuple : ∀ fields, (∀ field ∈ fields, P field) → P (.tuple fields))
    (func : ∀ result arguments, P result → (∀ field ∈ arguments, P field) →
      P (.func result arguments))
    (reified : ∀ inner, P inner → P (.reified inner))
    (parameter : ∀ name bound, P bound → P (.parameter name bound))
    (dataRef : ∀ name parameters, (∀ symbol ∈ parameters, P symbol) → P (.dataRef name parameters))
    (aliasRef : ∀ name parameters, (∀ symbol ∈ parameters, P symbol) →
      P (.aliasRef name parameters))
    (constructor : ∀ owner name fields, P owner → (∀ field ∈ fields, P field) →
      P (.constructor owner name fields))
    (sort : ∀ name, P (.sort name)) (symbol : Symbol) : P symbol :=
  @Symbol.rec P (fun symbols => ∀ symbol ∈ symbols, P symbol)
    prim label list set map tuple func reified parameter dataRef aliasRef constructor sort
    (fun _ mem => nomatch mem)
    (fun _ _ head_known tail_known => List.forall_mem_cons.mpr ⟨head_known, tail_known⟩) symbol

end Reification
