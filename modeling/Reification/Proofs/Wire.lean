import Reification.Proofs.Induction
import Reification.Proofs.Reading
import Reification.Wire.Value

/-!
# The wire loses nothing

Whatever is written to the wire is read back from it, if no more brackets are nested in its text
than readers enter.  Only a production without a name whose subject has a label is read as another
one: the label becomes its name.
-/

namespace Reification

namespace Json

mutual

/-- The number of nested brackets in a tree. -/
def nesting : Json → Nat
  | array items => nestingOfAll items + 1
  | object members => nestingOfMembers members + 1
  | _ => 0

/-- The greatest number of nested brackets in some trees. -/
def nestingOfAll : List Json → Nat
  | [] => 0
  | item :: items => max item.nesting (nestingOfAll items)

/-- The greatest number of nested brackets in the values of some members. -/
def nestingOfMembers : List (Literal × Json) → Nat
  | [] => 0
  | (_, value) :: members => max value.nesting (nestingOfMembers members)

end

section Nesting

variable {depth : Nat}

theorem nestingOfAll_le_iff {items : List Json} :
    nestingOfAll items ≤ depth ↔ ∀ item ∈ items, item.nesting ≤ depth := by
  induction items with
  | nil => simp [nestingOfAll]
  | cons item items ih => rw [nestingOfAll, Nat.max_le, ih, List.forall_mem_cons]

theorem nestingOfMembers_le_iff {members : List (Literal × Json)} :
    nestingOfMembers members ≤ depth ↔ ∀ member ∈ members, member.2.nesting ≤ depth := by
  induction members with
  | nil => simp [nestingOfMembers]
  | cons member members ih => rw [nestingOfMembers, Nat.max_le, ih, List.forall_mem_cons]

/-- A reader enters an array before it reads the items. -/
theorem exists_of_nesting_array {items : List Json} (shallow : (array items).nesting ≤ depth) :
    ∃ inner, depth = inner + 1 ∧ ∀ item ∈ items, item.nesting ≤ inner := by
  obtain ⟨inner, rfl⟩ := Nat.exists_eq_add_of_le' (Nat.one_le_of_lt shallow)
  exact ⟨inner, rfl, nestingOfAll_le_iff.mp (Nat.le_of_succ_le_succ shallow)⟩

/-- A reader enters a record before it reads the fields. -/
theorem exists_of_nesting_record {members : List (String × Json)}
    (shallow : (record members).nesting ≤ depth) :
    ∃ inner, depth = inner + 1 ∧ ∀ member ∈ members, member.2.nesting ≤ inner := by
  obtain ⟨inner, rfl⟩ := Nat.exists_eq_add_of_le' (Nat.one_le_of_lt shallow)
  have each := nestingOfMembers_le_iff.mp (Nat.le_of_succ_le_succ shallow)
  exact ⟨inner, rfl, fun member mem => each _ (List.mem_map_of_mem mem)⟩

/-- A reader enters a variant before it reads the content. -/
theorem exists_of_nesting_variant {name : String} {content : Json}
    (shallow : (variant name content).nesting ≤ depth) :
    ∃ inner, depth = inner + 1 ∧ content.nesting ≤ inner := by
  obtain ⟨inner, rfl, each⟩ := exists_of_nesting_record shallow
  exact ⟨inner, rfl, each _ (List.mem_singleton_self _)⟩

/-- A reader enters a variant and the record in it before it reads the fields. -/
theorem exists_of_nesting_fields {name : String} {members : List (String × Json)}
    (shallow : (variant name (record members)).nesting ≤ depth) :
    ∃ inner, depth = inner + 2 ∧ ∀ member ∈ members, member.2.nesting ≤ inner := by
  obtain ⟨outer, rfl, record_shallow⟩ := exists_of_nesting_variant shallow
  obtain ⟨inner, rfl, each⟩ := exists_of_nesting_record record_shallow
  exact ⟨inner, rfl, each⟩

end Nesting

/-- Whether a tree consists of texts, of arrays and records of such trees and of nothing else. -/
inductive IsTextual : Json → Prop where
  | null : IsTextual null
  | text (content : String) : IsTextual (text content)
  | array {items : List Json} (items_textual : ∀ item ∈ items, IsTextual item) :
    IsTextual (array items)
  | record {members : List (String × Json)}
    (members_textual : ∀ member ∈ members, IsTextual member.2) : IsTextual (record members)

theorem IsTextual.variant {content : Json} (textual : content.IsTextual) (name : String) :
    (variant name content).IsTextual :=
  .record fun member mem => by rwa [List.mem_singleton.mp mem]

theorem areReadable_iff {depth : Nat} {items : List Json} :
    areReadable depth items = true ↔ ∀ item ∈ items, item.isReadable depth = true := by
  induction items with
  | nil => simp [areReadable]
  | cons item items ih => simp [areReadable, ih]

theorem membersAreReadable_iff {depth : Nat} {members : List (Literal × Json)} :
    membersAreReadable depth members = true ↔
      ∀ member ∈ members, member.1.isSome = true ∧ member.2.isReadable depth = true := by
  induction members with
  | nil => simp [membersAreReadable]
  | cons member members ih => simp [membersAreReadable, ih]

/-- A textual tree can be read if it is not too deep. -/
theorem IsTextual.isReadable {json : Json} (textual : json.IsTextual) {depth : Nat}
    (shallow : json.nesting ≤ depth) : json.isReadable depth = true := by
  induction textual generalizing depth with
  | null | text => rfl
  | array _ ih =>
    obtain ⟨inner, rfl, each⟩ := exists_of_nesting_array shallow
    exact areReadable_iff.mpr fun item mem => ih item mem (each item mem)
  | record _ ih =>
    obtain ⟨inner, rfl, each⟩ := exists_of_nesting_record shallow
    refine membersAreReadable_iff.mpr fun member mem => ?_
    obtain ⟨⟨key, value⟩, member_mem, rfl⟩ := List.mem_map.mp mem
    exact ⟨rfl, ih _ member_mem (each _ member_mem)⟩

end Json

/-- Items which are read back one by one are read back together. -/
theorem mapM_map_eq_some {α β : Type} {write : α → β} {read? : β → Option α} {items : List α}
    (read_eq : ∀ item ∈ items, read? (write item) = some item) :
    (items.map write).mapM read? = some items := by
  induction items with
  | nil => rfl
  | cons item items ih =>
    obtain ⟨head_eq, tail_eq⟩ := List.forall_mem_cons.mp read_eq
    simp [List.mapM_cons, head_eq, ih tail_eq]

namespace Symbol

theorem toJsonAll_eq (symbols : List Symbol) : toJsonAll symbols = symbols.map toJson := by
  induction symbols with
  | nil => rfl
  | cons symbol symbols ih => rw [toJsonAll, ih, List.map_cons]

/-- Two fields of a record. -/
theorem textual_pair {one other : String} {first second : Json} (first_textual : first.IsTextual)
    (second_textual : second.IsTextual) :
    (Json.record [(one, first), (other, second)]).IsTextual :=
  .record (List.forall_mem_cons.mpr ⟨first_textual, List.forall_mem_singleton.mpr second_textual⟩)

theorem textual_array {symbols : List Symbol}
    (all : ∀ symbol ∈ symbols, symbol.toJson.IsTextual) :
    (Json.array (toJsonAll symbols)).IsTextual := by
  rw [toJsonAll_eq]
  exact .array (List.forall_mem_map.mpr all)

theorem toJson_textual (symbol : Symbol) : symbol.toJson.IsTextual := by
  induction symbol using Symbol.induction with
  | prim primitive => exact .text _
  | label name inner ih => exact (textual_pair (.text name) ih).variant "label"
  | list element ih => exact ih.variant "list"
  | set element ih => exact ih.variant "set"
  | map key value ih_key ih_value => exact (textual_pair ih_key ih_value).variant "map"
  | tuple fields ih => exact (textual_array ih).variant "tuple"
  | func result arguments ih ih_arguments =>
    exact (textual_pair ih (textual_array ih_arguments)).variant "func"
  | reified inner ih => exact ih.variant "reified"
  | parameter name bound ih => exact (textual_pair (.text name) ih).variant "parameter"
  | dataRef name parameters ih => exact (textual_pair (.text name) (textual_array ih)).variant "adt"
  | aliasRef name parameters ih =>
    exact (textual_pair (.text name) (textual_array ih)).variant "alias"
  | constructor owner name fields ih ih_fields =>
    exact (Json.IsTextual.record (List.forall_mem_cons.mpr ⟨ih, List.forall_mem_cons.mpr
      ⟨.text name, List.forall_mem_singleton.mpr (textual_array ih_fields)⟩⟩)).variant "cons"
  | sort name =>
    exact (Json.IsTextual.record (List.forall_mem_singleton.mpr (.text name))).variant "sort"

theorem listOfJson?_toJsonAll {depth : Nat} {symbols : List Symbol}
    (read_eq : ∀ symbol ∈ symbols, ∀ depth, symbol.toJson.nesting ≤ depth →
      ofJson? depth symbol.toJson = some symbol)
    (shallow : (Json.array (toJsonAll symbols)).nesting ≤ depth) :
    listOfJson? depth (.array (toJsonAll symbols)) = some symbols := by
  obtain ⟨inner, rfl, each⟩ := Json.exists_of_nesting_array shallow
  rw [toJsonAll_eq] at each ⊢
  exact mapM_map_eq_some fun symbol mem =>
    read_eq symbol mem inner (each _ (List.mem_map_of_mem mem))

/-- A symbol is read back from its tree. -/
theorem ofJson?_toJson (symbol : Symbol) : ∀ depth, symbol.toJson.nesting ≤ depth →
    ofJson? depth symbol.toJson = some symbol := by
  induction symbol using Symbol.induction with
  | prim primitive =>
    intro depth _
    have name_eq : ofJson? depth (.text primitive.name) =
        (Primitive.ofName? primitive.name).map prim := by
      cases depth <;> rfl
    rw [toJson, name_eq, Primitive.ofName?_name, Option.map_some]
  | label name inner ih =>
    intro depth shallow
    obtain ⟨depth, rfl, each⟩ := Json.exists_of_nesting_fields shallow
    change (ofJson? depth inner.toJson).bind (fun inner => some (label name inner)) = _
    rw [ih depth (each ("symbol", _) (by simp)), Option.bind_some]
  | list element ih =>
    intro depth shallow
    obtain ⟨depth, rfl, content_shallow⟩ := Json.exists_of_nesting_variant shallow
    change (ofJson? depth element.toJson).map list = _
    rw [ih depth content_shallow, Option.map_some]
  | set element ih =>
    intro depth shallow
    obtain ⟨depth, rfl, content_shallow⟩ := Json.exists_of_nesting_variant shallow
    change (ofJson? depth element.toJson).map set = _
    rw [ih depth content_shallow, Option.map_some]
  | map key value ih_key ih_value =>
    intro depth shallow
    obtain ⟨depth, rfl, each⟩ := Json.exists_of_nesting_fields shallow
    change (ofJson? depth key.toJson).bind (fun key =>
      (ofJson? depth value.toJson).bind fun value => some (map key value)) = _
    rw [ih_key depth (each ("from", _) (by simp)), ih_value depth (each ("to", _) (by simp))]
    rfl
  | tuple fields ih =>
    intro depth shallow
    obtain ⟨depth, rfl, content_shallow⟩ := Json.exists_of_nesting_variant shallow
    change (listOfJson? depth (.array (toJsonAll fields))).map tuple = _
    rw [listOfJson?_toJsonAll ih content_shallow, Option.map_some]
  | func result arguments ih ih_arguments =>
    intro depth shallow
    obtain ⟨depth, rfl, each⟩ := Json.exists_of_nesting_fields shallow
    change (ofJson? depth result.toJson).bind (fun result =>
      (listOfJson? depth (.array (toJsonAll arguments))).bind fun arguments =>
        some (func result arguments)) = _
    rw [ih depth (each ("ret", _) (by simp)),
      listOfJson?_toJsonAll ih_arguments (each ("parameters", _) (by simp))]
    rfl
  | reified inner ih =>
    intro depth shallow
    obtain ⟨depth, rfl, content_shallow⟩ := Json.exists_of_nesting_variant shallow
    change (ofJson? depth inner.toJson).map reified = _
    rw [ih depth content_shallow, Option.map_some]
  | parameter name bound ih =>
    intro depth shallow
    obtain ⟨depth, rfl, each⟩ := Json.exists_of_nesting_fields shallow
    change (ofJson? depth bound.toJson).bind (fun bound => some (parameter name bound)) = _
    rw [ih depth (each ("bound", _) (by simp)), Option.bind_some]
  | dataRef name parameters ih =>
    intro depth shallow
    obtain ⟨depth, rfl, each⟩ := Json.exists_of_nesting_fields shallow
    change (listOfJson? depth (.array (toJsonAll parameters))).bind (fun parameters =>
      some (dataRef name parameters)) = _
    rw [listOfJson?_toJsonAll ih (each ("parameters", _) (by simp)), Option.bind_some]
  | aliasRef name parameters ih =>
    intro depth shallow
    obtain ⟨depth, rfl, each⟩ := Json.exists_of_nesting_fields shallow
    change (listOfJson? depth (.array (toJsonAll parameters))).bind (fun parameters =>
      some (aliasRef name parameters)) = _
    rw [listOfJson?_toJsonAll ih (each ("parameters", _) (by simp)), Option.bind_some]
  | constructor owner name fields ih ih_fields =>
    intro depth shallow
    obtain ⟨depth, rfl, each⟩ := Json.exists_of_nesting_fields shallow
    change (ofJson? depth owner.toJson).bind (fun owner =>
      (listOfJson? depth (.array (toJsonAll fields))).bind fun fields =>
        some (constructor owner name fields)) = _
    rw [ih depth (each ("adt", _) (by simp)),
      listOfJson?_toJsonAll ih_fields (each ("parameters", _) (by simp))]
    rfl
  | sort name =>
    intro depth shallow
    obtain ⟨depth, rfl, -⟩ := Json.exists_of_nesting_fields shallow
    rfl

end Symbol

namespace Attribute

theorem toJson_textual (entry : Attribute) : entry.toJson.IsTextual := by
  cases entry with
  | tag text => exact (Json.IsTextual.text text).variant "tag"
  | assoc associativity => exact (Json.IsTextual.text associativity.name).variant "assoc"
  | bracket => exact .text "bracket"

/-- An attribute is read back from its tree. -/
theorem ofJson?_toJson (entry : Attribute) {depth : Nat}
    (shallow : entry.toJson.nesting ≤ depth) :
    ofJson? depth entry.toJson = some entry := by
  cases entry with
  | tag text =>
    obtain ⟨depth, rfl, -⟩ := Json.exists_of_nesting_variant shallow
    rfl
  | assoc associativity =>
    obtain ⟨depth, rfl, -⟩ := Json.exists_of_nesting_variant shallow
    change (Associativity.ofJson? depth (.text associativity.name)).map assoc = _
    cases associativity <;> cases depth <;> rfl
  | bracket => cases depth <;> rfl

theorem setToJson_textual (attributes : OrderedSet Attribute) :
    (setToJson attributes).IsTextual :=
  .array (List.forall_mem_map.mpr fun entry _ => toJson_textual entry)

/-- A set of attributes is read back from its array. -/
theorem setOfJson?_setToJson (attributes : OrderedSet Attribute) {depth : Nat}
    (shallow : (setToJson attributes).nesting ≤ depth) :
    setOfJson? depth (setToJson attributes) = some attributes := by
  obtain ⟨depth, rfl, each⟩ := Json.exists_of_nesting_array shallow
  have read_eq : (attributes.toList.map toJson).mapM (ofJson? depth) = some attributes.toList :=
    mapM_map_eq_some fun entry mem => ofJson?_toJson entry (each _ (List.mem_map_of_mem mem))
  change ((attributes.toList.map toJson).mapM (ofJson? depth)).map OrderedSet.ofList = _
  rw [read_eq, Option.map_some, OrderedSet.ofList_toList]

end Attribute

namespace Draft

theorem textual_name (name : Option String) : ((name.map Json.text).getD .null).IsTextual := by
  cases name with
  | none => exact .null
  | some name => exact .text name

theorem nameOfMember?_name (name : Option String) :
    nameOfMember? (some ((name.map Json.text).getD .null)) = some name := by
  cases name <;> rfl

theorem toJson_textual (draft : Draft) : draft.toJson.IsTextual :=
  .record (List.forall_mem_cons.mpr ⟨draft.subject.toJson_textual, List.forall_mem_cons.mpr
    ⟨textual_name draft.name, List.forall_mem_cons.mpr
      ⟨Symbol.textual_array fun symbol _ => symbol.toJson_textual, List.forall_mem_singleton.mpr
        (Attribute.setToJson_textual draft.attributes)⟩⟩⟩)

section Members

variable {depth : Nat} {members : List (Literal × Json)} {layout : Layout}

/-- What a draft is read from in some layout. -/
theorem ofMembers?_eq_some {subjectJson : Json} {subject : Symbol} {name : Option String}
    {symbols : List Symbol} {attributes : OrderedSet Attribute}
    (distinct : Json.haveDistinct members layout.keys = true)
    (member_eq : Json.member? members layout.subjectKey = some subjectJson)
    (subject_eq : Symbol.ofJson? depth subjectJson = some subject)
    (name_eq : nameOfMember? (Json.member? members "name") = some name)
    (symbols_eq : symbolsOfMember? layout depth (Json.member? members layout.symbolsKey) =
      some symbols)
    (attributes_eq : attributesOfMember? depth (Json.member? members "attributes") =
      some attributes) :
    ofMembers? depth members layout = some { layout, subject, name, symbols, attributes } := by
  simp [ofMembers?, distinct, member_eq, subject_eq, name_eq, symbols_eq, attributes_eq]

/-- A layout does not fit members without the key of its subject. -/
theorem ofMembers?_eq_none (missing : Json.member? members layout.subjectKey = none) :
    ofMembers? depth members layout = none := by
  simp [ofMembers?, missing]

/-- The first layout is tried first. -/
theorem findSome?_eq_some {draft : Draft}
    (own : ofMembers? depth members .definition = some draft) :
    Layout.all.findSome? (ofMembers? depth members) = some draft := by
  rw [Layout.all, List.findSome?_cons, own]

end Members

/-- A draft is read back from its tree: no layout which is tried before its own has its keys. -/
theorem ofJson?_toJson (draft : Draft) {depth : Nat} (shallow : draft.toJson.nesting ≤ depth) :
    ofJson? depth draft.toJson = some draft := by
  rw [ofJson?.eq_def, if_pos (draft.toJson_textual.isReadable shallow)]
  obtain ⟨depth, rfl, each⟩ := Json.exists_of_nesting_record shallow
  obtain ⟨layout, subject, name, symbols, attributes⟩ := draft
  have subject_eq := subject.ofJson?_toJson depth (each (layout.subjectKey, _) (.head _))
  have symbols_eq := Symbol.listOfJson?_toJsonAll (fun symbol _ => symbol.ofJson?_toJson)
    (each (layout.symbolsKey, .array (Symbol.toJsonAll symbols)) (.tail _ (.tail _ (.head _))))
  have attributes_eq := Attribute.setOfJson?_setToJson attributes
    (each ("attributes", _) (.tail _ (.tail _ (.tail _ (.head _)))))
  have own : ofMembers? depth [(some layout.subjectKey, subject.toJson),
      (some "name", (name.map Json.text).getD .null),
      (some layout.symbolsKey, .array (Symbol.toJsonAll symbols)),
      (some "attributes", Attribute.setToJson attributes)] layout =
        some { layout, subject, name, symbols, attributes } := by
    cases layout <;>
      exact ofMembers?_eq_some rfl rfl subject_eq (nameOfMember?_name name) symbols_eq attributes_eq
  change Layout.all.findSome? (ofMembers? depth [(some layout.subjectKey, subject.toJson),
    (some "name", (name.map Json.text).getD .null),
    (some layout.symbolsKey, .array (Symbol.toJsonAll symbols)),
    (some "attributes", Attribute.setToJson attributes)]) = _
  cases layout with
  | definition => exact findSome?_eq_some own
  | data =>
    rw [Layout.all, List.findSome?_cons, ofMembers?_eq_none rfl, List.findSome?_cons, own]
  | sort =>
    rw [Layout.all, List.findSome?_cons, ofMembers?_eq_none rfl, List.findSome?_cons,
      ofMembers?_eq_none rfl, List.findSome?_cons, own]

end Draft

namespace Production

/-- Whether a production is not the draft of another one: a label of its subject would become its
name. -/
def IsNormal (production : Production) : Prop :=
  production.name = none → production.subject.label? = none

theorem liftLabel_of_isNormal {production : Production} (normal : production.IsNormal) :
    production.liftLabel = production := by
  unfold liftLabel
  split
  · next name_eq subject_eq =>
    have label_eq := normal name_eq
    rw [subject_eq] at label_eq
    cases label_eq
  · rfl

theorem toJson_textual (production : Production) : production.toJson.IsTextual := by
  refine .record fun member mem => ?_
  simp only [List.mem_append, List.mem_singleton, Option.mem_toList] at mem
  obtain ((rfl | name_mem) | rfl) | attributes_mem := mem
  · exact production.subject.toJson_textual
  · obtain ⟨name, -, rfl⟩ := Option.map_eq_some_iff.mp name_mem
    exact .text name
  · exact Symbol.textual_array fun symbol _ => symbol.toJson_textual
  · split at attributes_mem
    · cases attributes_mem
    · rw [List.mem_singleton.mp attributes_mem]
      exact Attribute.setToJson_textual _

/-- A production is read as its canonical draft. -/
theorem draft_ofJson?_toJson (production : Production) {depth : Nat}
    (shallow : production.toJson.nesting ≤ depth) :
    Draft.ofJson? depth production.toJson = some (.ofProduction production) := by
  rw [Draft.ofJson?.eq_def, if_pos (production.toJson_textual.isReadable shallow)]
  obtain ⟨depth, rfl, each⟩ := Json.exists_of_nesting_record shallow
  obtain ⟨subject, name, symbols, attributes⟩ := production
  have subject_eq := subject.ofJson?_toJson depth (each ("def", _) (by simp))
  have symbols_eq := Symbol.listOfJson?_toJsonAll (fun symbol _ => symbol.ofJson?_toJson)
    (each ("symbols", .array (Symbol.toJsonAll symbols)) (by simp))
  have attributes_eq : Draft.attributesOfMember? depth (if attributes.isEmpty then none
      else some (Attribute.setToJson attributes)) = some attributes := by
    split
    · next empty =>
      exact congrArg some (OrderedSet.toList_inj.mp (List.isEmpty_iff.mp empty).symm)
    · next not_empty =>
      exact Attribute.setOfJson?_setToJson attributes
        (each ("attributes", _) (by simp [not_empty, Attribute.setToJson]))
  have name_eq : Draft.nameOfMember? (name.map Json.text) = some name := by
    cases name <;> rfl
  have own : Draft.ofMembers? depth (([("def", subject.toJson)] ++
      (name.map fun name => ("name", Json.text name)).toList ++
      [("symbols", Json.array (Symbol.toJsonAll symbols))] ++
      if attributes.isEmpty then [] else [("attributes", Attribute.setToJson attributes)]).map
        fun member => (some member.1, member.2)) .definition =
      some { layout := .definition, subject, name, symbols, attributes } := by
    cases name <;> cases empty : attributes.isEmpty <;> rw [empty] at attributes_eq <;>
      exact Draft.ofMembers?_eq_some rfl rfl subject_eq name_eq symbols_eq attributes_eq
  exact Draft.findSome?_eq_some own

/-- A production is read back from its tree. -/
theorem ofJson?_toJson {production : Production} (normal : production.IsNormal) {depth : Nat}
    (shallow : production.toJson.nesting ≤ depth) :
    ofJson? depth production.toJson = some production := by
  rw [ofJson?, draft_ofJson?_toJson production shallow, Option.map_some]
  exact congrArg some (liftLabel_of_isNormal normal)

/-- A set of productions is read back from its array. -/
theorem setOfJson?_toJson {productions : OrderedSet Production}
    (normal : ∀ production ∈ productions, production.IsNormal) {depth : Nat}
    (shallow : (Json.array (productions.toList.map toJson)).nesting ≤ depth) :
    setOfJson? depth (.array (productions.toList.map toJson)) = some productions := by
  obtain ⟨depth, rfl, each⟩ := Json.exists_of_nesting_array shallow
  have read_eq : (productions.toList.map toJson).mapM (ofJson? depth) = some productions.toList :=
    mapM_map_eq_some fun production mem =>
      ofJson?_toJson (normal production mem) (each _ (List.mem_map_of_mem mem))
  change ((productions.toList.map toJson).mapM (ofJson? depth)).map OrderedSet.ofList = _
  rw [read_eq, Option.map_some, OrderedSet.ofList_toList]

end Production

namespace Choice

/-- Whether all alternatives are normal. -/
def IsNormal (choice : Choice) : Prop := ∀ production ∈ choice.alternatives, production.IsNormal

/-- A choice is read back from its tree. -/
theorem ofJson?_toJson {choice : Choice} (normal : choice.IsNormal) {depth : Nat}
    (shallow : choice.toJson.nesting ≤ depth) : ofJson? depth choice.toJson = some choice := by
  obtain ⟨depth, rfl, each⟩ := Json.exists_of_nesting_record shallow
  change (Symbol.ofJson? depth choice.subject.toJson).bind (fun subject =>
    (Production.setOfJson? depth (.array (choice.alternatives.toList.map Production.toJson))).bind
      fun alternatives => some ({ subject, alternatives } : Choice)) = _
  rw [choice.subject.ofJson?_toJson depth (each ("def", _) (by simp)),
    Production.setOfJson?_toJson normal (each ("alternatives", _) (by simp))]
  rfl

end Choice

namespace Definitions

/-- Whether all choices are normal. -/
def AreNormal (definitions : Definitions) : Prop :=
  ∀ entry ∈ definitions.entries, entry.2.IsNormal

/-- Definitions are read back from their tree. -/
theorem ofJson?_toJson {definitions : Definitions} (normal : AreNormal definitions) {depth : Nat}
    (shallow : (toJson definitions).nesting ≤ depth) :
    ofJson? depth (toJson definitions) = some definitions := by
  obtain ⟨depth, rfl, each⟩ := Json.exists_of_nesting_record shallow
  have read_eq : (definitions.entries.map fun entry => (some entry.1, entry.2.toJson)).mapM
      (entryOfMember? depth) = some definitions.entries :=
    mapM_map_eq_some fun entry mem => by
      have choice_eq := Choice.ofJson?_toJson (normal entry mem) (each _ (List.mem_map_of_mem mem))
      simp [entryOfMember?, choice_eq]
  change (((definitions.entries.map _).map _).mapM (entryOfMember? depth)).map Table.ofList = _
  rw [List.map_map]
  change ((definitions.entries.map fun entry => (some entry.1, entry.2.toJson)).mapM
    (entryOfMember? depth)).map Table.ofList = _
  rw [read_eq, Option.map_some, Table.ofList_entries]

end Definitions

namespace Digits

theorem signOfJson?_sign (number : Int) :
    signOfJson? (.integer number.sign) = some number.sign := by
  have bounded : -1 ≤ number.sign ∧ number.sign ≤ 1 := by
    obtain negative | zero | positive := Int.lt_trichotomy number 0
    · simp [Int.sign_eq_neg_one_of_neg negative]
    · simp [zero]
    · simp [Int.sign_eq_one_of_pos positive]
  rw [signOfJson?, if_pos bounded]

/-- An integer is read back from its tree, whatever its size. -/
theorem ofJson?_toJson (number : Int) {depth : Nat} (shallow : (toJson number).nesting ≤ depth) :
    ofJson? depth (toJson number) = some number := by
  obtain ⟨outer, rfl, each⟩ := Json.exists_of_nesting_array shallow
  obtain ⟨depth, rfl, -⟩ := Json.exists_of_nesting_array (each (.array _) (.tail _ (.head _)))
  have digits_eq : ((ofNat number.natAbs).map (Json.integer ∘ Int.ofNat)).mapM digitOfJson? =
      some (ofNat number.natAbs) := mapM_map_eq_some fun digit mem => by
    have bounded : (0 : Int) ≤ Int.ofNat digit ∧ Int.ofNat digit < base :=
      ⟨Int.natCast_nonneg digit, Int.ofNat_lt.mpr (lt_base_of_mem_ofNat _ digit mem)⟩
    rw [Function.comp_apply, digitOfJson?, if_pos bounded]
    rfl
  change (signOfJson? (.integer number.sign)).bind (fun sign =>
    (((ofNat number.natAbs).map (Json.integer ∘ Int.ofNat)).mapM digitOfJson?).bind fun digits =>
      some (sign * toNat digits)) = _
  rw [signOfJson?_sign, digits_eq, Option.bind_some, Option.bind_some, toNat_ofNat,
    Int.sign_mul_natAbs]

end Digits

namespace Reified

/-- A reified type is read back from its tree. -/
theorem ofJson?_toJson {reified : Reified} (normal : Definitions.AreNormal reified.definitions)
    {depth : Nat} (shallow : reified.toJson.nesting ≤ depth) :
    ofJson? depth reified.toJson = some reified := by
  obtain ⟨depth, rfl, each⟩ := Json.exists_of_nesting_record shallow
  change (Symbol.ofJson? depth reified.symbol.toJson).bind (fun symbol =>
    (Definitions.ofJson? depth (Definitions.toJson reified.definitions)).bind fun definitions =>
      some ({ symbol, definitions } : Reified)) = _
  rw [reified.symbol.ofJson?_toJson depth (each ("symbol", _) (by simp)),
    Definitions.ofJson?_toJson normal (each ("definitions", _) (.tail _ (.head _)))]
  rfl

end Reified

namespace Value

mutual

/-- Whether all productions in a value are normal. -/
def IsNormal : Value → Prop
  | list items => AreNormal items
  | production content => content.IsNormal
  | type reified => Definitions.AreNormal reified.definitions
  | _ => True

/-- Whether all productions in some values are normal. -/
def AreNormal : List Value → Prop
  | [] => True
  | value :: values => value.IsNormal ∧ AreNormal values

end

mutual

/-- A value is read back from its tree. -/
theorem ofJson?_toJson : ∀ (value : Value), value.IsNormal → ∀ depth,
    value.toJson.nesting ≤ depth → ofJson? depth value.toJson = some value
  | bool truth, _, depth, shallow => by
    obtain ⟨depth, rfl, -⟩ := Json.exists_of_nesting_variant shallow
    rfl
  | int number, _, depth, shallow => by
    obtain ⟨depth, rfl, content_shallow⟩ := Json.exists_of_nesting_variant shallow
    change (Digits.ofJson? depth (Digits.toJson number)).map int = _
    rw [Digits.ofJson?_toJson number content_shallow, Option.map_some]
  | str text, _, depth, shallow => by
    obtain ⟨depth, rfl, -⟩ := Json.exists_of_nesting_variant shallow
    rfl
  | list items, normal, depth, shallow => by
    obtain ⟨outer, rfl, content_shallow⟩ := Json.exists_of_nesting_variant shallow
    obtain ⟨depth, rfl, each⟩ := Json.exists_of_nesting_array content_shallow
    change ((toJsonAll items).mapM (ofJson? depth)).map list = _
    rw [mapM_toJsonAll items normal depth each, Option.map_some]
  | symbol content, _, depth, shallow => by
    obtain ⟨depth, rfl, content_shallow⟩ := Json.exists_of_nesting_variant shallow
    change (Symbol.ofJson? depth content.toJson).map symbol = _
    rw [content.ofJson?_toJson depth content_shallow, Option.map_some]
  | production content, normal, depth, shallow => by
    obtain ⟨depth, rfl, content_shallow⟩ := Json.exists_of_nesting_variant shallow
    change (Production.ofJson? depth content.toJson).map production = _
    rw [Production.ofJson?_toJson normal content_shallow, Option.map_some]
  | type reified, normal, depth, shallow => by
    obtain ⟨depth, rfl, content_shallow⟩ := Json.exists_of_nesting_variant shallow
    change (Reified.ofJson? depth reified.toJson).map type = _
    rw [Reified.ofJson?_toJson normal content_shallow, Option.map_some]

/-- Some values are read back from their trees. -/
theorem mapM_toJsonAll : ∀ (values : List Value), AreNormal values → ∀ depth,
    (∀ json ∈ toJsonAll values, json.nesting ≤ depth) →
      (toJsonAll values).mapM (ofJson? depth) = some values
  | [], _, _, _ => rfl
  | value :: values, normal, depth, each => by
    obtain ⟨head_shallow, tail_shallow⟩ := List.forall_mem_cons.mp each
    rw [toJsonAll, List.mapM_cons, ofJson?_toJson value normal.1 depth head_shallow,
      mapM_toJsonAll values normal.2 depth tail_shallow]
    rfl

end

end Value

/-- Whether something that is written with `toJson` is what its text of one line denotes, if no more
brackets are nested in it than readers enter. -/
def Survives {α : Type} (toJson : α → Json) (ofJson? : Nat → Json → Option α) (content : α) :
    Prop :=
  (toJson content).nesting ≤ Json.maxDepth →
    (Json.parse? (toJson content).compact).bind (ofJson? Json.maxDepth) = some content

theorem survives_of_read_eq {α : Type} {toJson : α → Json} {ofJson? : Nat → Json → Option α}
    {content : α} (read_eq : (toJson content).nesting ≤ Json.maxDepth →
      ofJson? Json.maxDepth (toJson content) = some content) : Survives toJson ofJson? content := by
  intro shallow
  rw [Json.parse?_compact, Option.bind_some, read_eq shallow]

/-- Everything that is written to the wire is read back from it. -/
theorem wire_survives :
    (∀ symbol, Survives Symbol.toJson Symbol.ofJson? symbol) ∧
    (∀ entry, Survives Attribute.toJson Attribute.ofJson? entry) ∧
    (∀ draft, Survives Draft.toJson Draft.ofJson? draft) ∧
    (∀ production : Production, production.IsNormal →
      Survives Production.toJson Production.ofJson? production) ∧
    (∀ choice : Choice, choice.IsNormal → Survives Choice.toJson Choice.ofJson? choice) ∧
    (∀ definitions : Definitions, Definitions.AreNormal definitions →
      Survives Definitions.toJson Definitions.ofJson? definitions) ∧
    (∀ reified : Reified, Definitions.AreNormal reified.definitions →
      Survives Reified.toJson Reified.ofJson? reified) ∧
    (∀ value : Value, value.IsNormal → Survives Value.toJson Value.ofJson? value) :=
  ⟨fun symbol => survives_of_read_eq (symbol.ofJson?_toJson _),
    fun entry => survives_of_read_eq entry.ofJson?_toJson,
    fun draft => survives_of_read_eq draft.ofJson?_toJson,
    fun _ normal => survives_of_read_eq (Production.ofJson?_toJson normal),
    fun _ normal => survives_of_read_eq (Choice.ofJson?_toJson normal),
    fun _ normal => survives_of_read_eq (Definitions.ofJson?_toJson normal),
    fun _ normal => survives_of_read_eq (Reified.ofJson?_toJson normal),
    fun value normal => survives_of_read_eq (value.ofJson?_toJson normal _)⟩

/-! A list of a text, an integer and a reified type, whose definitions have rules. -/

namespace Mixture

def sum : Production where
  subject := .label "result" (.sort "Sum")
  name := some "\"+\" ∑"
  symbols := [.label "left" (.prim .int), .list (.dataRef "T" [])]
  attributes := .ofList [.tag "\x07", .assoc .nonAssoc, .bracket]

def definitions : Definitions :=
  ⟨[("Empty", ⟨.dataRef "Empty" [], ∅⟩), ("Sum", ⟨.sort "Sum", .ofList [sum]⟩)], by decide⟩

def value : Value :=
  .list [.str "ä\n\\", .int (-340282366920938463463374607431768211455),
    .type ⟨.set (.sort "Sum"), definitions⟩, .production { subject := .sort "Sum" }]

theorem isNormal : value.IsNormal := by
  refine ⟨trivial, trivial, fun entry mem => ?_, fun _ => rfl, trivial⟩
  simp only [definitions, List.mem_cons, List.not_mem_nil, or_false] at mem
  obtain rfl | rfl := mem
  · exact fun production mem => absurd mem List.not_mem_nil
  · intro production mem
    obtain rfl := List.mem_singleton.mp (OrderedSet.mem_ofList.mp mem)
    intro name_eq
    cases name_eq

theorem value_survives : value.IsNormal ∧ value.toJson.nesting ≤ Json.maxDepth ∧
    (Json.parse? value.toJson.compact).bind (Value.ofJson? Json.maxDepth) = some value := by
  have shallow : value.toJson.nesting ≤ Json.maxDepth := by decide +kernel
  exact ⟨isNormal, shallow, wire_survives.2.2.2.2.2.2.2 value isNormal shallow⟩

end Mixture

end Reification
