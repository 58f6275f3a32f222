import Reification.OrderedSet
import Reification.Symbol

/-!
# Productions

A production is one alternative of a data type, an alias or a syntax nonterminal.  Producers lay
productions out in different ways; such a draft is normalized into a production, which is where the
label of a subject becomes the name that the draft lacks.
-/

namespace Reification

/-- How an operator groups with itself. -/
inductive Associativity where
  | left
  | right
  | nonAssoc
  deriving DecidableEq, Inhabited, Repr

/-- The position of an associativity in the order. -/
def Associativity.rank : Associativity → Nat
  | left => 0
  | right => 1
  | nonAssoc => 2

/-- Metadata attached to a production. -/
inductive Attribute where
  /-- A free-form tag such as a documentation text. -/
  | tag (text : String)
  | assoc (associativity : Associativity)
  /-- The production only groups other syntax. -/
  | bracket
  deriving DecidableEq, Inhabited, Repr

namespace Attribute

/-- An attribute is spelled by a number for its kind and its part. -/
def spelling : Attribute → List Nat
  | tag text => 0 :: Spelled.spell text
  | assoc associativity => [1, associativity.rank]
  | bracket => [2]

theorem spelling_append_inj {left right : Attribute} {restLeft restRight : List Nat}
    (words_eq : left.spelling ++ restLeft = right.spelling ++ restRight) :
    left = right ∧ restLeft = restRight := by
  cases left <;> cases right <;> simp [spelling] at words_eq ⊢
  · exact Spelled.spell_append_inj words_eq
  · next one other =>
    refine ⟨?_, words_eq.2⟩
    cases one <;> cases other <;> simp_all [Associativity.rank]
  · exact words_eq

instance : Spelled Attribute := ⟨spelling, spelling_append_inj⟩

instance : Ord Attribute := Spelled.order Attribute

instance : Std.TransOrd Attribute := Spelled.transOrd

instance : Std.LawfulEqOrd Attribute := Spelled.lawfulEqOrd

end Attribute

/-- One alternative of a data type, an alias or a syntax nonterminal.

For a constructor, `subject` is the symbol of its data type, `name` is the name of the constructor
and `symbols` are its labeled fields.  An alias has one production without a name, whose only symbol
is the aliased one. -/
structure Production where
  /-- The symbol of what the production is an alternative of. -/
  subject : Symbol
  name : Option String := none
  symbols : List Symbol := []
  attributes : OrderedSet Attribute := ∅
  deriving DecidableEq, Inhabited

namespace Production

/-- The name under which a production is kept. -/
def subject? (production : Production) : Option String := production.subject.subject?

/-- A production is spelled by its subject, name, symbols and attributes. -/
def spelling (production : Production) : List Nat :=
  Spelled.spell production.subject ++ (Spelled.spell production.name ++
    (Spelled.spell production.symbols ++ Spelled.spell production.attributes.toList))

theorem spelling_append_inj {left right : Production} {restLeft restRight : List Nat}
    (words_eq : left.spelling ++ restLeft = right.spelling ++ restRight) :
    left = right ∧ restLeft = restRight := by
  simp only [spelling, List.append_assoc] at words_eq
  obtain ⟨subjects_eq, names_first⟩ := Spelled.spell_append_inj words_eq
  obtain ⟨names_eq, symbols_first⟩ := Spelled.spell_append_inj names_first
  obtain ⟨symbols_eq, attributes_first⟩ := Spelled.spell_append_inj symbols_first
  obtain ⟨attributes_eq, rests_eq⟩ := Spelled.spell_append_inj attributes_first
  refine ⟨?_, rests_eq⟩
  cases left
  cases right
  simp_all [OrderedSet.toList_inj]

instance : Spelled Production := ⟨spelling, spelling_append_inj⟩

instance : Ord Production := Spelled.order Production

instance : Std.TransOrd Production := Spelled.transOrd

instance : Std.LawfulEqOrd Production := Spelled.lawfulEqOrd

/-- The production of an alias. -/
def ofAlias (subject aliased : Symbol) : Production := { subject, symbols := [aliased] }

/-- A name which is given as a label of the subject is moved to where names belong. -/
def liftLabel (production : Production) : Production :=
  match production.name, production.subject with
  | none, .label name inner => { production with name := some name, subject := inner }
  | _, _ => production

end Production

/-- The ways in which productions are laid out.  They differ in where the subject and the symbols
are found. -/
inductive Layout where
  /-- The canonical layout, keyed by the definition. -/
  | definition
  /-- A layout keyed by the data type. -/
  | data
  /-- The layout of type checkers: a sort and its parameters. -/
  | sort
  deriving DecidableEq, Inhabited, Repr

/-- A production as it was laid out. -/
structure Draft where
  layout : Layout
  subject : Symbol
  name : Option String := none
  symbols : List Symbol := []
  attributes : OrderedSet Attribute := ∅
  deriving DecidableEq, Inhabited

namespace Draft

/-- The production which a draft stands for. -/
def normalize (draft : Draft) : Production :=
  Production.liftLabel
    { subject := draft.subject
      name := draft.name
      symbols := draft.symbols
      attributes := draft.attributes }

/-- The canonical draft of a production. -/
def ofProduction (production : Production) : Draft where
  layout := .definition
  subject := production.subject
  name := production.name
  symbols := production.symbols
  attributes := production.attributes

end Draft

end Reification
