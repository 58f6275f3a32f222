import Mathlib.Data.Finset.Card
import Mathlib.Logic.Relation
import Reification.Proofs.Induction
import Reification.Reconstruct
import Reification.Reify

/-!
# Mentions

The names in a symbol are listed in the order in which reifying meets them: those in parameters
come before the name to which the parameters are given.  Through the alternatives of a name its
mentions lead to further names.
-/

namespace Reification

/-- The name of a mention, unless it is that of a nonterminal. -/
def Mention.declared? : Mention → Option String
  | dataRef name | aliasRef name => some name
  | sort _ => none

theorem Mention.name_of_declared {mention : Mention} {name : String}
    (declared : mention.declared? = some name) : mention.name = name := by
  cases mention with
  | dataRef | aliasRef => exact Option.some.inj declared
  | sort => cases declared

namespace Symbol

mutual

/-- The mentions in a symbol. -/
def mentions : Symbol → List Mention
  | prim _ => []
  | label _ inner => inner.mentions
  | list element => element.mentions
  | set element => element.mentions
  | map key value => key.mentions ++ value.mentions
  | tuple fields => mentionsOfAll fields
  | func result arguments => result.mentions ++ mentionsOfAll arguments
  | reified inner => inner.mentions
  | parameter _ bound => bound.mentions
  | dataRef name parameters => mentionsOfAll parameters ++ [.dataRef name]
  | aliasRef name parameters => mentionsOfAll parameters ++ [.aliasRef name]
  | constructor owner _ fields => owner.mentions ++ mentionsOfAll fields
  | sort name => [.sort name]

/-- The mentions in some symbols. -/
def mentionsOfAll : List Symbol → List Mention
  | [] => []
  | symbol :: symbols => symbol.mentions ++ mentionsOfAll symbols

end

theorem mentionsOfAll_eq (symbols : List Symbol) :
    mentionsOfAll symbols = symbols.flatMap mentions := by
  induction symbols with
  | nil => rfl
  | cons symbol symbols ih => simp [mentionsOfAll, ih]

theorem mentionsOfAll_append (symbols others : List Symbol) :
    mentionsOfAll (symbols ++ others) = mentionsOfAll symbols ++ mentionsOfAll others := by
  simp [mentionsOfAll_eq]

theorem mem_mentionsOfAll {symbols : List Symbol} {symbol : Symbol} {mention : Mention}
    (mem : symbol ∈ symbols) (mention_mem : mention ∈ symbol.mentions) :
    mention ∈ mentionsOfAll symbols :=
  mentionsOfAll_eq symbols ▸ List.mem_flatMap.mpr ⟨symbol, mem, mention_mem⟩

theorem mentions_map (key value : Symbol) :
    (map key value).mentions = key.mentions ++ value.mentions := rfl

theorem mentions_func (result : Symbol) (arguments : List Symbol) :
    (func result arguments).mentions = result.mentions ++ mentionsOfAll arguments := rfl

theorem mentions_dataRef (name : String) (parameters : List Symbol) :
    (dataRef name parameters).mentions = mentionsOfAll parameters ++ [.dataRef name] := rfl

theorem mentions_aliasRef (name : String) (parameters : List Symbol) :
    (aliasRef name parameters).mentions = mentionsOfAll parameters ++ [.aliasRef name] := rfl

theorem mentions_constructor (owner : Symbol) (name : String) (fields : List Symbol) :
    (constructor owner name fields).mentions = owner.mentions ++ mentionsOfAll fields := rfl

/-- Whether a symbol names a data type or an alias. -/
def Names (symbol : Symbol) (name : String) : Prop :=
  ∃ mention ∈ symbol.mentions, mention.declared? = some name

section Names

variable {name : String}

@[simp]
theorem not_names_prim {primitive : Primitive} : ¬(prim primitive).Names name := by
  rintro ⟨_, mem, -⟩
  cases mem

@[simp]
theorem not_names_sort {other : String} : ¬(sort other).Names name := by
  rintro ⟨_, mem, declared⟩
  cases List.mem_singleton.mp mem
  cases declared

@[simp]
theorem names_label {label : String} {inner : Symbol} :
    (Symbol.label label inner).Names name ↔ inner.Names name := Iff.rfl

@[simp]
theorem names_list {element : Symbol} : (list element).Names name ↔ element.Names name := Iff.rfl

@[simp]
theorem names_set {element : Symbol} : (set element).Names name ↔ element.Names name := Iff.rfl

@[simp]
theorem names_reified {inner : Symbol} : (reified inner).Names name ↔ inner.Names name := Iff.rfl

@[simp]
theorem names_parameter {formal : String} {bound : Symbol} :
    (parameter formal bound).Names name ↔ bound.Names name := Iff.rfl

@[simp]
theorem names_map {key value : Symbol} :
    (map key value).Names name ↔ key.Names name ∨ value.Names name := by
  simp [Names, mentions_map, or_and_right, exists_or]

theorem exists_mem_mentionsOfAll_iff {symbols : List Symbol} :
    (∃ mention ∈ mentionsOfAll symbols, mention.declared? = some name) ↔
      ∃ symbol ∈ symbols, symbol.Names name := by
  simp only [mentionsOfAll_eq, List.mem_flatMap, Names]
  exact ⟨fun ⟨mention, ⟨symbol, mem, part⟩, eq⟩ => ⟨symbol, mem, mention, part, eq⟩,
    fun ⟨symbol, mem, mention, part, eq⟩ => ⟨mention, ⟨symbol, mem, part⟩, eq⟩⟩

@[simp]
theorem names_tuple {fields : List Symbol} :
    (tuple fields).Names name ↔ ∃ field ∈ fields, field.Names name :=
  exists_mem_mentionsOfAll_iff

@[simp]
theorem names_func {result : Symbol} {arguments : List Symbol} :
    (func result arguments).Names name ↔
      result.Names name ∨ ∃ field ∈ arguments, field.Names name := by
  rw [← exists_mem_mentionsOfAll_iff]
  simp [Names, mentions_func, or_and_right, exists_or]

@[simp]
theorem names_dataRef {other : String} {parameters : List Symbol} :
    (dataRef other parameters).Names name ↔
      other = name ∨ ∃ symbol ∈ parameters, symbol.Names name := by
  rw [← exists_mem_mentionsOfAll_iff, or_comm]
  simp [Names, mentions_dataRef, or_and_right, exists_or, Mention.declared?]

@[simp]
theorem names_aliasRef {other : String} {parameters : List Symbol} :
    (aliasRef other parameters).Names name ↔
      other = name ∨ ∃ symbol ∈ parameters, symbol.Names name := by
  rw [← exists_mem_mentionsOfAll_iff, or_comm]
  simp [Names, mentions_aliasRef, or_and_right, exists_or, Mention.declared?]

@[simp]
theorem names_constructor {owner : Symbol} {label : String} {fields : List Symbol} :
    (constructor owner label fields).Names name ↔
      owner.Names name ∨ ∃ field ∈ fields, field.Names name := by
  rw [← exists_mem_mentionsOfAll_iff]
  simp [Names, mentions_constructor, or_and_right, exists_or]

end Names

end Symbol

namespace Reconstruct

variable (resolve : Resolver)

/-- The symbol of what a name is declared as. -/
def subjectOf? (name : String) : Option Symbol :=
  (resolve name).first?.map (·.subject.withoutLabels)

/-- Whether a name is declared as an alias. -/
def IsAlias (name : String) : Prop :=
  ∃ other parameters, subjectOf? resolve name = some (.aliasRef other parameters)

/-- The symbols of the formal parameters of a name. -/
def formalsOf (name : String) : List Symbol :=
  match subjectOf? resolve name with
  | some (.aliasRef _ parameters) | some (.dataRef _ parameters) => parameters
  | _ => []

/-- The symbols of the body of an alias, or else those of the fields of all constructors. -/
def contentsOf (name : String) : List Symbol :=
  match subjectOf? resolve name with
  | some (.aliasRef _ _) => (bodySymbol? (resolve name)).toList
  | some _ => ((resolve name).toList.filter (·.name.isSome)).flatMap (·.symbols)
  | none => []

/-- Whether the alternatives of a name mention another one. -/
def Leads (name other : String) : Prop :=
  ∃ symbol ∈ formalsOf resolve name ++ contentsOf resolve name, symbol.Names other

/-- Whether a name is mentioned in a symbol or in what its names lead to. -/
def Reaches (symbol : Symbol) (name : String) : Prop :=
  ∃ first, symbol.Names first ∧ Relation.ReflTransGen (Leads resolve) first name

/-- Whether a reconstruction goes through a symbol: it is the given one, or it is found in the formal
parameters, in the body or in the fields of a name which is reached. -/
def GoesThrough (symbol visited : Symbol) : Prop :=
  visited = symbol ∨ ∃ name, Reaches resolve symbol name ∧
    visited ∈ formalsOf resolve name ++ contentsOf resolve name

/-- Whether a reconstruction meets a nonterminal. -/
def MeetsSort (symbol : Symbol) (name : String) : Prop :=
  ∃ visited, GoesThrough resolve symbol visited ∧ .sort name ∈ visited.mentions

/-- Whether the formal parameters of a name lead back to it. -/
def ReachesItself (name : String) : Prop :=
  ∃ formal ∈ formalsOf resolve name, Reaches resolve formal name

variable {resolve}

theorem first?_of_isAlias {name : String} (is_alias : IsAlias resolve name) :
    (resolve name).first? ≠ none := by
  obtain ⟨_, _, subject_eq⟩ := is_alias
  intro none_eq
  simp [subjectOf?, none_eq] at subject_eq

theorem mem_names_of_first? {definitions : Definitions} {name : String}
    (some_alternative : (definitions.alternativesOf name).first? ≠ none) :
    name ∈ definitions.names.toFinset := by
  rcases get_eq : definitions.get? name with _ | choice
  · simp [Definitions.alternativesOf, get_eq, OrderedSet.first?] at some_alternative
  · exact List.mem_toFinset.mpr
      (List.mem_map.mpr ⟨(name, choice), Table.get?_eq_some_iff.mp get_eq, rfl⟩)

theorem card_names_le (definitions : Definitions) :
    definitions.names.toFinset.card ≤ definitions.size := by
  refine (List.toFinset_card_le _).trans ?_
  rw [Table.names, List.length_map, Table.size]

/-- A name without alternatives has neither formal parameters nor contents. -/
theorem first?_of_mem {part : Symbol} {name : String}
    (mem : part ∈ formalsOf resolve name ++ contentsOf resolve name) :
    (resolve name).first? ≠ none := by
  intro none_eq
  simp [formalsOf, contentsOf, subjectOf?, none_eq] at mem

theorem mem_contentsOf_of_body {name other : String} {parameters : List Symbol} {symbol : Symbol}
    (subject_eq : subjectOf? resolve name = some (.aliasRef other parameters))
    (body_eq : bodySymbol? (resolve name) = some symbol) : symbol ∈ contentsOf resolve name := by
  simp [contentsOf, subject_eq, body_eq]

theorem mem_contentsOf_of_field {name : String} {production : Production} {symbol : Symbol}
    (no_alias : ∀ other parameters, subjectOf? resolve name ≠ some (.aliasRef other parameters))
    (mem : production ∈ (resolve name).toList) (named : production.name.isSome)
    (symbol_mem : symbol ∈ production.symbols) : symbol ∈ contentsOf resolve name := by
  obtain ⟨first, first_eq⟩ : ∃ first, (resolve name).first? = some first :=
    Option.ne_none_iff_exists'.mp (mt List.head?_eq_none_iff.mp (List.ne_nil_of_mem mem))
  have subject_eq : subjectOf? resolve name = some first.subject.withoutLabels := by
    rw [subjectOf?, first_eq, Option.map_some]
  unfold contentsOf
  split
  · next alias_eq => exact absurd alias_eq (no_alias _ _)
  · exact List.mem_flatMap.mpr ⟨production, List.mem_filter.mpr ⟨mem, named⟩, symbol_mem⟩
  · next none_eq => simp [subject_eq] at none_eq

theorem Reaches.leads {symbol : Symbol} {name other : String}
    (reaches : Reaches resolve symbol name) (leads : Leads resolve name other) :
    Reaches resolve symbol other := by
  obtain ⟨first, names, path⟩ := reaches
  exact ⟨first, names, path.tail leads⟩

theorem Reaches.trans {symbol part : Symbol} {name other : String}
    (reaches : Reaches resolve symbol name)
    (mem : part ∈ formalsOf resolve name ++ contentsOf resolve name)
    (part_reaches : Reaches resolve part other) : Reaches resolve symbol other := by
  obtain ⟨first, names, path⟩ := reaches
  obtain ⟨second, part_names, part_path⟩ := part_reaches
  exact ⟨first, names, (path.tail ⟨part, mem, part_names⟩).trans part_path⟩

/-- What the symbols in the alternatives of a name reach is led to by the name. -/
theorem Reaches.of_mem {part : Symbol} {name other : String}
    (mem : part ∈ formalsOf resolve name ++ contentsOf resolve name)
    (reaches : Reaches resolve part other) : Relation.ReflTransGen (Leads resolve) name other := by
  obtain ⟨first, names, path⟩ := reaches
  exact .head ⟨part, mem, names⟩ path

/-- The names in the symbols which a reconstruction goes through are reached. -/
theorem GoesThrough.reaches {symbol visited : Symbol} {name : String}
    (goes : GoesThrough resolve symbol visited) (names : visited.Names name) :
    Reaches resolve symbol name := by
  rcases goes with rfl | ⟨other, reaches, mem⟩
  · exact ⟨name, names, .refl⟩
  · exact reaches.leads ⟨visited, mem, names⟩

theorem GoesThrough.reaches_of_reaches {symbol visited : Symbol} {name : String}
    (goes : GoesThrough resolve symbol visited) (reaches : Reaches resolve visited name) :
    Reaches resolve symbol name := by
  obtain ⟨first, names, path⟩ := reaches
  obtain ⟨start, start_names, start_path⟩ := goes.reaches names
  exact ⟨start, start_names, start_path.trans path⟩

section First

variable {name other : String} {production : Production} {parameters : List Symbol}

theorem formalsOf_eq_of_alias (first_eq : (resolve name).first? = some production)
    (subject_eq : production.subject.withoutLabels = .aliasRef other parameters) :
    formalsOf resolve name = parameters := by
  simp [formalsOf, subjectOf?, first_eq, subject_eq]

theorem contentsOf_eq_of_alias (first_eq : (resolve name).first? = some production)
    (subject_eq : production.subject.withoutLabels = .aliasRef other parameters) :
    contentsOf resolve name = (bodySymbol? (resolve name)).toList := by
  simp [contentsOf, subjectOf?, first_eq, subject_eq]

theorem formalsOf_eq_of_data (first_eq : (resolve name).first? = some production)
    (subject_eq : production.subject.withoutLabels = .dataRef other parameters) :
    formalsOf resolve name = parameters := by
  simp [formalsOf, subjectOf?, first_eq, subject_eq]

theorem formalsOf_eq_nil (first_eq : (resolve name).first? = some production)
    (no_alias : ∀ other parameters,
      production.subject.withoutLabels ≠ .aliasRef other parameters)
    (no_data : ∀ other parameters, production.subject.withoutLabels ≠ .dataRef other parameters) :
    formalsOf resolve name = [] := by
  simp only [formalsOf, subjectOf?, first_eq, Option.map_some]
  cases subject_eq : production.subject.withoutLabels <;> simp_all

theorem contentsOf_eq_of_not_alias (first_eq : (resolve name).first? = some production)
    (no_alias : ∀ other parameters,
      production.subject.withoutLabels ≠ .aliasRef other parameters) :
    contentsOf resolve name =
      ((resolve name).toList.filter (·.name.isSome)).flatMap (·.symbols) := by
  simp only [contentsOf, subjectOf?, first_eq, Option.map_some]

end First

end Reconstruct

end Reification
