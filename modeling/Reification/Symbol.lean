import Reification.Primitive
import Reification.Spelling

/-!
# Symbols

A symbol describes the shape of a type.  References to data types, aliases and syntax nonterminals
are leaves which carry only a name and type parameters; what the names stand for is found in a
separate table of definitions.  Hence a symbol is finite even if the type it describes is recursive.
-/

namespace Reification

/-- The symbolic description of the shape of a type. -/
inductive Symbol where
  | prim (primitive : Primitive)
  /-- A symbol with the label of the field it describes. -/
  | label (name : String) (inner : Symbol)
  | list (element : Symbol)
  | set (element : Symbol)
  | map (key value : Symbol)
  | tuple (fields : List Symbol)
  | func (result : Symbol) (arguments : List Symbol)
  /-- The type of reified types. -/
  | reified (inner : Symbol)
  /-- A type parameter with its upper bound. -/
  | parameter (name : String) (bound : Symbol)
  | dataRef (name : String) (parameters : List Symbol)
  | aliasRef (name : String) (parameters : List Symbol)
  /-- A constructor of the data type which `owner` describes. -/
  | constructor (owner : Symbol) (name : String) (fields : List Symbol)
  /-- A syntax nonterminal. -/
  | sort (name : String)
  deriving Inhabited

namespace Symbol

/-- The symbol within all outer labels. -/
def withoutLabels : Symbol → Symbol
  | label _ inner => inner.withoutLabels
  | symbol => symbol

/-- The outermost label. -/
def label? : Symbol → Option String
  | label name _ => some name
  | _ => none

/-- The primitive type which a symbol stands for. -/
def primitive? : Symbol → Option Primitive
  | prim primitive => some primitive
  | _ => none

/-- The name under which definitions of a symbol are kept: labels do not matter, and a constructor
belongs to its owner. -/
def subject? : Symbol → Option String
  | label _ inner => inner.subject?
  | dataRef name _ | aliasRef name _ | sort name => some name
  | constructor owner _ _ => owner.subject?
  | _ => none

theorem subject?_withoutLabels (symbol : Symbol) :
    symbol.withoutLabels.subject? = symbol.subject? := by
  induction symbol using withoutLabels.induct with
  | case1 name inner ih => simpa [withoutLabels, subject?] using ih
  | case2 symbol no_label => cases symbol <;> simp_all [withoutLabels]

mutual

/-- A symbol is spelled by a number for its kind and its parts in the order of the wire format. -/
def spelling : Symbol → List Nat
  | prim primitive => [primitive.rank]
  | label name inner => 11 :: (Spelled.spell name ++ inner.spelling)
  | list element => 12 :: element.spelling
  | set element => 13 :: element.spelling
  | map key value => 14 :: (key.spelling ++ value.spelling)
  | tuple fields => 15 :: spellingAll fields
  | func result arguments => 16 :: (result.spelling ++ spellingAll arguments)
  | reified inner => 17 :: inner.spelling
  | parameter name bound => 18 :: (Spelled.spell name ++ bound.spelling)
  | dataRef name parameters => 19 :: (Spelled.spell name ++ spellingAll parameters)
  | aliasRef name parameters => 20 :: (Spelled.spell name ++ spellingAll parameters)
  | constructor owner name fields =>
    21 :: (owner.spelling ++ (Spelled.spell name ++ spellingAll fields))
  | sort name => 22 :: Spelled.spell name

/-- The spelling of a list of symbols. -/
def spellingAll : List Symbol → List Nat
  | [] => [0]
  | symbol :: symbols => 1 :: (symbol.spelling ++ spellingAll symbols)

end

mutual

theorem spelling_append_inj : ∀ {left right : Symbol} {restLeft restRight : List Nat},
    left.spelling ++ restLeft = right.spelling ++ restRight → left = right ∧ restLeft = restRight
  | prim primitive, right, restLeft, restRight, words_eq => by
    have rank_lt := primitive.rank_lt
    cases right <;> simp [spelling] at words_eq <;> try omega
    exact ⟨congrArg prim (Primitive.rank_injective words_eq.1), words_eq.2⟩
  | label name inner, right, restLeft, restRight, words_eq => by
    cases right <;> simp [spelling] at words_eq
    case prim other => exact absurd words_eq.1 (by have := other.rank_lt; omega)
    case label =>
      obtain ⟨rfl, tails_eq⟩ := Spelled.spell_append_inj words_eq
      obtain ⟨rfl, rests_eq⟩ := spelling_append_inj tails_eq
      exact ⟨rfl, rests_eq⟩
  | list element, right, restLeft, restRight, words_eq => by
    cases right <;> simp [spelling] at words_eq
    case prim other => exact absurd words_eq.1 (by have := other.rank_lt; omega)
    case list =>
      obtain ⟨rfl, rests_eq⟩ := spelling_append_inj words_eq
      exact ⟨rfl, rests_eq⟩
  | set element, right, restLeft, restRight, words_eq => by
    cases right <;> simp [spelling] at words_eq
    case prim other => exact absurd words_eq.1 (by have := other.rank_lt; omega)
    case set =>
      obtain ⟨rfl, rests_eq⟩ := spelling_append_inj words_eq
      exact ⟨rfl, rests_eq⟩
  | map key value, right, restLeft, restRight, words_eq => by
    cases right <;> simp [spelling] at words_eq
    case prim other => exact absurd words_eq.1 (by have := other.rank_lt; omega)
    case map =>
      obtain ⟨rfl, tails_eq⟩ := spelling_append_inj words_eq
      obtain ⟨rfl, rests_eq⟩ := spelling_append_inj tails_eq
      exact ⟨rfl, rests_eq⟩
  | tuple fields, right, restLeft, restRight, words_eq => by
    cases right <;> simp [spelling] at words_eq
    case prim other => exact absurd words_eq.1 (by have := other.rank_lt; omega)
    case tuple =>
      obtain ⟨rfl, rests_eq⟩ := spellingAll_append_inj words_eq
      exact ⟨rfl, rests_eq⟩
  | func result arguments, right, restLeft, restRight, words_eq => by
    cases right <;> simp [spelling] at words_eq
    case prim other => exact absurd words_eq.1 (by have := other.rank_lt; omega)
    case func =>
      obtain ⟨rfl, tails_eq⟩ := spelling_append_inj words_eq
      obtain ⟨rfl, rests_eq⟩ := spellingAll_append_inj tails_eq
      exact ⟨rfl, rests_eq⟩
  | reified inner, right, restLeft, restRight, words_eq => by
    cases right <;> simp [spelling] at words_eq
    case prim other => exact absurd words_eq.1 (by have := other.rank_lt; omega)
    case reified =>
      obtain ⟨rfl, rests_eq⟩ := spelling_append_inj words_eq
      exact ⟨rfl, rests_eq⟩
  | parameter name bound, right, restLeft, restRight, words_eq => by
    cases right <;> simp [spelling] at words_eq
    case prim other => exact absurd words_eq.1 (by have := other.rank_lt; omega)
    case parameter =>
      obtain ⟨rfl, tails_eq⟩ := Spelled.spell_append_inj words_eq
      obtain ⟨rfl, rests_eq⟩ := spelling_append_inj tails_eq
      exact ⟨rfl, rests_eq⟩
  | dataRef name parameters, right, restLeft, restRight, words_eq => by
    cases right <;> simp [spelling] at words_eq
    case prim other => exact absurd words_eq.1 (by have := other.rank_lt; omega)
    case dataRef =>
      obtain ⟨rfl, tails_eq⟩ := Spelled.spell_append_inj words_eq
      obtain ⟨rfl, rests_eq⟩ := spellingAll_append_inj tails_eq
      exact ⟨rfl, rests_eq⟩
  | aliasRef name parameters, right, restLeft, restRight, words_eq => by
    cases right <;> simp [spelling] at words_eq
    case prim other => exact absurd words_eq.1 (by have := other.rank_lt; omega)
    case aliasRef =>
      obtain ⟨rfl, tails_eq⟩ := Spelled.spell_append_inj words_eq
      obtain ⟨rfl, rests_eq⟩ := spellingAll_append_inj tails_eq
      exact ⟨rfl, rests_eq⟩
  | constructor owner name fields, right, restLeft, restRight, words_eq => by
    cases right <;> simp [spelling] at words_eq
    case prim other => exact absurd words_eq.1 (by have := other.rank_lt; omega)
    case constructor =>
      obtain ⟨rfl, tails_eq⟩ := spelling_append_inj words_eq
      obtain ⟨rfl, fields_eq⟩ := Spelled.spell_append_inj tails_eq
      obtain ⟨rfl, rests_eq⟩ := spellingAll_append_inj fields_eq
      exact ⟨rfl, rests_eq⟩
  | sort name, right, restLeft, restRight, words_eq => by
    cases right <;> simp [spelling] at words_eq
    case prim other => exact absurd words_eq.1 (by have := other.rank_lt; omega)
    case sort =>
      obtain ⟨rfl, rests_eq⟩ := Spelled.spell_append_inj words_eq
      exact ⟨rfl, rests_eq⟩

theorem spellingAll_append_inj : ∀ {left right : List Symbol} {restLeft restRight : List Nat},
    spellingAll left ++ restLeft = spellingAll right ++ restRight →
      left = right ∧ restLeft = restRight
  | [], right, restLeft, restRight, words_eq => by
    cases right <;> simp [spellingAll] at words_eq
    exact ⟨rfl, words_eq⟩
  | symbol :: symbols, right, restLeft, restRight, words_eq => by
    cases right <;> simp [spellingAll] at words_eq
    obtain ⟨rfl, tails_eq⟩ := spelling_append_inj words_eq
    obtain ⟨rfl, rests_eq⟩ := spellingAll_append_inj tails_eq
    exact ⟨rfl, rests_eq⟩

end

instance : Spelled Symbol := ⟨spelling, spelling_append_inj⟩

instance : Ord Symbol := Spelled.order Symbol

instance : Std.TransOrd Symbol := Spelled.transOrd

instance : Std.LawfulEqOrd Symbol := Spelled.lawfulEqOrd

instance : DecidableEq Symbol := fun left right =>
  decidable_of_iff (Spelled.spell left = Spelled.spell right)
    ⟨Spelled.spell_injective, congrArg Spelled.spell⟩

end Symbol

end Reification
