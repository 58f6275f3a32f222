import Reification.Production

/-!
# The order of symbols, attributes and productions

Values are ordered by their kinds and, within a kind, part by part: texts by the code points of
their characters, lists and sets as words in a dictionary, and an absent name before every present
one.  This is how the words compare by which values are spelled.  The order is strict and total, and
it agrees with equality.
-/

namespace Reification

/-- Whether a comparison orders values strictly and totally and agrees with their equality. -/
structure IsStrictTotal {α : Type} (comparison : α → α → Ordering) : Prop where
  eq_iff : ∀ left right, comparison left right = .eq ↔ left = right
  gt_iff : ∀ left right, comparison left right = .gt ↔ comparison right left = .lt
  asymm : ∀ left right, comparison left right = .lt → comparison right left ≠ .lt
  trans : ∀ left middle right, comparison left middle = .lt → comparison middle right = .lt →
    comparison left right = .lt
  total : ∀ left right, comparison left right = .lt ∨ left = right ∨ comparison right left = .lt

theorem isStrictTotal_compare {α : Type} [Ord α] [Std.TransOrd α] [Std.LawfulEqOrd α] :
    IsStrictTotal (compare : α → α → Ordering) where
  eq_iff _ _ := Std.LawfulEqCmp.compare_eq_iff_eq
  gt_iff _ _ := Std.OrientedCmp.gt_iff_lt
  asymm left right less := by
    rw [Std.OrientedCmp.gt_iff_lt.mpr less]
    simp
  trans _ _ _ := Std.TransCmp.lt_trans
  total left right := by
    rcases comparison_eq : compare left right with _ | _ | _
    · exact .inl rfl
    · exact .inr (.inl (Std.LawfulEqCmp.eq_of_compare comparison_eq))
    · exact .inr (.inr (Std.OrientedCmp.gt_iff_lt.mp comparison_eq))

namespace Spelled

theorem compare_append_left (front left right : List Nat) :
    compare (front ++ left) (front ++ right) = compare left right := by
  induction front with
  | nil => rfl
  | cons number front ih => simp [List.compare_cons_cons, ih]

theorem compare_cons_self (number : Nat) (left right : List Nat) :
    compare (number :: left) (number :: right) = compare left right :=
  compare_append_left [number] left right

/-- Different numbers decide a comparison. -/
theorem compare_then_of_ne {number other : Nat} (distinct : number ≠ other) (rest : Ordering) :
    (compare number other).then rest = compare number other := by
  cases comparison_eq : compare number other with
  | eq => exact absurd (Std.LawfulEqCmp.eq_of_compare comparison_eq) distinct
  | lt | gt => rfl

/-- If neither of two words begins with the other, what follows them does not matter. -/
theorem compare_append_append {left right : List Nat} (not_front : ∀ rest, left ++ rest ≠ right)
    (not_behind : ∀ rest, right ++ rest ≠ left) (restLeft restRight : List Nat) :
    compare (left ++ restLeft) (right ++ restRight) = compare left right := by
  induction left generalizing right with
  | nil => exact absurd rfl (not_front right)
  | cons number left ih =>
    cases right with
    | nil => exact absurd rfl (not_behind (number :: left))
    | cons other right =>
      rw [List.cons_append, List.cons_append]
      by_cases same : number = other
      · subst same
        rw [List.compare_cons_cons, List.compare_cons_cons,
          ih (fun rest equal => not_front rest (congrArg (number :: ·) equal))
            fun rest equal => not_behind rest (congrArg (number :: ·) equal)]
      · simp only [List.compare_cons_cons, compare_then_of_ne same]

/-- A value at the front of a word is compared before what follows it. -/
theorem compare_spell_append {α : Type} [Spelled α] (left right : α)
    (restLeft restRight : List Nat) :
    compare (spell left ++ restLeft) (spell right ++ restRight) =
      (compare (spell left) (spell right)).then (compare restLeft restRight) := by
  by_cases same : left = right
  · subst same
    rw [compare_append_left, Std.compare_self]
    rfl
  · have not_front {one other : α} (distinct : one ≠ other) (rest : List Nat) :
        spell one ++ rest ≠ spell other := fun equal =>
      distinct (spell_append_inj (equal.trans (List.append_nil _).symm)).1
    rw [compare_append_append (not_front same) (not_front (Ne.symm same))]
    cases comparison_eq : compare (spell left) (spell right) with
    | eq => exact absurd (spell_injective (Std.LawfulEqCmp.eq_of_compare comparison_eq)) same
    | lt | gt => rfl

end Spelled

/-- Texts are compared by the code points of their characters. -/
def Text.compareCodes (left right : String) : Ordering :=
  compare (left.toList.map Char.toNat) (right.toList.map Char.toNat)

/-- An absent value comes before every present one. -/
def compareOptions {α : Type} (comparison : α → α → Ordering) : Option α → Option α → Ordering
  | none, none => .eq
  | none, some _ => .lt
  | some _, none => .gt
  | some left, some right => comparison left right

namespace Spelled

theorem compare_spellText (left right : String) :
    compare (spell left) (spell right) = Text.compareCodes left right := by
  show compare (spellText left) (spellText right) = _
  rw [spellText, spellText, Text.compareCodes]
  generalize left.toList = left
  generalize right.toList = right
  induction left generalizing right with
  | nil =>
    cases right with
    | nil => rfl
    | cons other right =>
      have less : compare 0 (other.toNat + 1) = .lt := Nat.compare_eq_lt.mpr (Nat.succ_pos _)
      simp [List.compare_cons_cons, less]
  | cons char left ih =>
    cases right with
    | nil =>
      have greater : compare (char.toNat + 1) 0 = .gt := Nat.compare_eq_gt.mpr (Nat.succ_pos _)
      simp [List.compare_cons_cons, greater]
    | cons other right =>
      have codes_eq : compare (char.toNat + 1) (other.toNat + 1) =
          compare char.toNat other.toNat := by
        simp [Nat.compare_eq_ite_lt]
      simp only [List.map_cons, List.cons_append, List.compare_cons_cons, codes_eq, ih]

theorem compare_spellOption {α : Type} [Spelled α] {comparison : α → α → Ordering}
    (values_eq : ∀ left right, compare (spell left) (spell right) = comparison left right)
    (left right : Option α) :
    compare (spell left) (spell right) = compareOptions comparison left right := by
  show compare (spellOption left) (spellOption right) = _
  cases left with
  | none => cases right <;> rfl
  | some value =>
    cases right with
    | none => rfl
    | some other =>
      rw [spellOption, spellOption, List.compare_cons_cons, values_eq]
      rfl

/-- Lists are compared as words in a dictionary. -/
theorem compare_spellList {α : Type} [Spelled α] {comparison : α → α → Ordering}
    (values_eq : ∀ left right, compare (spell left) (spell right) = comparison left right)
    (left right : List α) :
    compare (spell left) (spell right) = List.compareLex comparison left right := by
  show compare (spellList left) (spellList right) = _
  induction left generalizing right with
  | nil => cases right <;> rfl
  | cons value left ih =>
    cases right with
    | nil => rfl
    | cons other right =>
      rw [spellList, spellList, List.compare_cons_cons, compare_spell_append, values_eq, ih,
        List.compareLex_cons_cons]
      rfl

end Spelled

namespace Attribute

/-- The position of the kind of an attribute. -/
def kind : Attribute → Nat
  | tag _ => 0
  | assoc _ => 1
  | bracket => 2

/-- Attributes of one kind are compared by what they hold. -/
def compareContents : Attribute → Attribute → Ordering
  | tag text, tag other => Text.compareCodes text other
  | assoc associativity, assoc other => compare associativity.rank other.rank
  | _, _ => .eq

theorem exists_spelling_eq (entry : Attribute) : ∃ word, entry.spelling = entry.kind :: word := by
  cases entry <;> exact ⟨_, rfl⟩

theorem compare_of_kind_eq {left right : Attribute} (same : left.kind = right.kind) :
    compare left right = left.compareContents right := by
  show compare left.spelling right.spelling = _
  cases left with
  | tag text =>
    cases right with
    | tag other =>
      rw [spelling, spelling, Spelled.compare_cons_self, Spelled.compare_spellText, compareContents]
    | _ => simp [kind] at same
  | assoc associativity =>
    cases right with
    | assoc other =>
      rw [spelling, spelling, Spelled.compare_cons_self, List.compare_cons_cons, compareContents]
      simp
    | _ => simp [kind] at same
  | bracket =>
    cases right with
    | bracket => rfl
    | _ => simp [kind] at same

/-- Attributes are compared by their kinds first. -/
theorem compare_eq (left right : Attribute) : compare left right =
    (compare left.kind right.kind).then (left.compareContents right) := by
  by_cases same : left.kind = right.kind
  · rw [compare_of_kind_eq same, same, Std.compare_self]
    rfl
  · obtain ⟨_, left_eq⟩ := left.exists_spelling_eq
    obtain ⟨_, right_eq⟩ := right.exists_spelling_eq
    show compare left.spelling right.spelling = _
    rw [left_eq, right_eq, List.compare_cons_cons, Spelled.compare_then_of_ne same,
      Spelled.compare_then_of_ne same]

end Attribute

namespace Symbol

/-- A part of a symbol. -/
inductive Part where
  | text (content : String)
  | symbol (content : Symbol)
  | symbols (contents : List Symbol)

namespace Part

/-- The position of the form of a part. -/
def form : Part → Nat
  | text _ => 0
  | symbol _ => 1
  | symbols _ => 2

/-- Parts of one form are compared as texts, as symbols or as lists of symbols. -/
def compareContents : Part → Part → Ordering
  | text left, text right => Text.compareCodes left right
  | symbol left, symbol right => compare left right
  | symbols left, symbols right => List.compareLex compare left right
  | _, _ => .eq

/-- The word of a part. -/
def spelling : Part → List Nat
  | text content => Spelled.spell content
  | symbol content => Spelled.spell content
  | symbols contents => Spelled.spell contents

theorem compare_spelling_append {left right : Part} (same : left.form = right.form)
    (restLeft restRight : List Nat) :
    compare (left.spelling ++ restLeft) (right.spelling ++ restRight) =
      (left.compareContents right).then (compare restLeft restRight) := by
  cases left with
  | text content =>
    cases right with
    | text other =>
      rw [spelling, spelling, Spelled.compare_spell_append, Spelled.compare_spellText,
        compareContents]
    | _ => simp [form] at same
  | symbol content =>
    cases right with
    | symbol other => exact Spelled.compare_spell_append content other restLeft restRight
    | _ => simp [form] at same
  | symbols contents =>
    cases right with
    | symbols others =>
      rw [spelling, spelling, Spelled.compare_spell_append,
        Spelled.compare_spellList fun _ _ => rfl]
      rfl
    | _ => simp [form] at same

/-- Parts which correspond in their forms are compared one by one. -/
theorem compare_flatMap_spelling {left right : List Part}
    (same : left.map form = right.map form) :
    compare (left.flatMap spelling) (right.flatMap spelling) =
      List.compareLex compareContents left right := by
  induction left generalizing right with
  | nil =>
    cases right with
    | nil => rfl
    | cons other right => simp at same
  | cons part left ih =>
    cases right with
    | nil => simp at same
    | cons other right =>
      obtain ⟨same, rest_same⟩ := List.cons.inj same
      rw [List.flatMap_cons, List.flatMap_cons, compare_spelling_append same, ih rest_same,
        List.compareLex_cons_cons]

end Part

/-- The position of the kind of a symbol; each primitive type is a kind of its own. -/
def kind : Symbol → Nat
  | prim primitive => primitive.rank
  | label .. => 11
  | list _ => 12
  | set _ => 13
  | map .. => 14
  | tuple _ => 15
  | func .. => 16
  | reified _ => 17
  | parameter .. => 18
  | dataRef .. => 19
  | aliasRef .. => 20
  | constructor .. => 21
  | sort _ => 22

/-- The parts of a symbol in the order of the wire format. -/
def parts : Symbol → List Part
  | prim _ => []
  | label name inner => [.text name, .symbol inner]
  | list element | set element => [.symbol element]
  | map key value => [.symbol key, .symbol value]
  | tuple fields => [.symbols fields]
  | func result arguments => [.symbol result, .symbols arguments]
  | reified inner => [.symbol inner]
  | parameter name bound => [.text name, .symbol bound]
  | dataRef name parameters | aliasRef name parameters => [.text name, .symbols parameters]
  | constructor owner name fields => [.symbol owner, .text name, .symbols fields]
  | sort name => [.text name]

/-- The forms of the parts of a kind of symbols. -/
def formsOfKind : Nat → List Nat
  | 11 | 18 => [0, 1]
  | 12 | 13 | 17 => [1]
  | 14 => [1, 1]
  | 15 => [2]
  | 16 => [1, 2]
  | 19 | 20 => [0, 2]
  | 21 => [1, 0, 2]
  | 22 => [0]
  | _ => []

theorem map_form_parts (symbol : Symbol) : symbol.parts.map Part.form = formsOfKind symbol.kind := by
  cases symbol with
  | prim primitive => cases primitive <;> rfl
  | _ => rfl

theorem spellingAll_eq (symbols : List Symbol) : spellingAll symbols = Spelled.spell symbols := by
  show _ = Spelled.spellList symbols
  induction symbols with
  | nil => rfl
  | cons symbol symbols ih =>
    rw [spellingAll, Spelled.spellList, ih]
    rfl

/-- A symbol is spelled by its kind and its parts. -/
theorem spelling_eq (symbol : Symbol) :
    symbol.spelling = symbol.kind :: symbol.parts.flatMap Part.spelling := by
  have spelling_eq_spell (symbol : Symbol) : symbol.spelling = Spelled.spell symbol := rfl
  cases symbol <;>
    simp [spelling, kind, parts, Part.spelling, spellingAll_eq, spelling_eq_spell]

/-- Symbols are compared by their kinds and then part by part. -/
theorem compare_eq (left right : Symbol) : compare left right =
    (compare left.kind right.kind).then
      (List.compareLex Part.compareContents left.parts right.parts) := by
  show compare left.spelling right.spelling = _
  rw [spelling_eq, spelling_eq, List.compare_cons_cons]
  by_cases same : left.kind = right.kind
  · have forms_eq : left.parts.map Part.form = right.parts.map Part.form := by
      rw [map_form_parts, map_form_parts, same]
    rw [Part.compare_flatMap_spelling forms_eq]
  · rw [Spelled.compare_then_of_ne same, Spelled.compare_then_of_ne same]

end Symbol

namespace Production

/-- Productions are compared by their subjects, names, symbols and attributes. -/
theorem compare_eq (left right : Production) : compare left right =
    (compare left.subject right.subject).then
      ((compareOptions Text.compareCodes left.name right.name).then
        ((List.compareLex compare left.symbols right.symbols).then
          (List.compareLex compare left.attributes.toList right.attributes.toList))) := by
  show compare left.spelling right.spelling = _
  rw [spelling, spelling, Spelled.compare_spell_append, Spelled.compare_spell_append,
    Spelled.compare_spell_append, Spelled.compare_spellOption Spelled.compare_spellText,
    Spelled.compare_spellList fun _ _ => rfl, Spelled.compare_spellList fun _ _ => rfl]
  rfl

end Production

end Reification
