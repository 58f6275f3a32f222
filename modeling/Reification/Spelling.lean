/-!
# Orders from spellings

A value is spelled as a word of natural numbers such that no spelling is the beginning of another.
Values are ordered as their words are, so they compare part by part in the order in which the parts
are spelled.  Since a word determines the value at its front, the order is total and two values
compare equal only if they are the same.
-/

namespace Reification

/-- Values which are spelled as words of numbers. -/
class Spelled (α : Type) where
  /-- The word of a value. -/
  spell : α → List Nat
  /-- A word which begins with a spelling determines the value and the remaining word. -/
  spell_append_inj : ∀ {left right : α} {restLeft restRight : List Nat},
    spell left ++ restLeft = spell right ++ restRight → left = right ∧ restLeft = restRight

namespace Spelled

variable {α : Type} [Spelled α]

theorem spell_injective {left right : α} (words_eq : spell left = spell right) : left = right := by
  have extended_eq : spell left ++ [] = spell right ++ [] := by rw [words_eq]
  exact (spell_append_inj extended_eq).1

/-- Values are compared as their words. -/
abbrev order (α : Type) [Spelled α] : Ord α where
  compare left right := compare (spell left) (spell right)

theorem transOrd : @Std.TransOrd α (order α) :=
  have words : Std.TransOrd (List Nat) := inferInstance
  @Std.TransCmp.mk α _ (@Std.OrientedCmp.mk α _ words.eq_swap) words.isLE_trans

theorem lawfulEqOrd : @Std.LawfulEqOrd α (order α) :=
  have words : Std.LawfulEqOrd (List Nat) := inferInstance
  @Std.LawfulEqCmp.mk α _ (@Std.ReflCmp.mk α _ words.compare_self)
    fun equal => spell_injective (words.eq_of_compare equal)

/-- A list is spelled with a one before each element and a zero at its end, so that a list comes
before its extensions. -/
def spellList : List α → List Nat
  | [] => [0]
  | value :: values => 1 :: (spell value ++ spellList values)

theorem spellList_append_inj {left right : List α} {restLeft restRight : List Nat}
    (words_eq : spellList left ++ restLeft = spellList right ++ restRight) :
    left = right ∧ restLeft = restRight := by
  induction left generalizing right with
  | nil =>
    cases right with
    | nil => simpa [spellList] using words_eq
    | cons value values => simp [spellList] at words_eq
  | cons value values ih =>
    cases right with
    | nil => simp [spellList] at words_eq
    | cons other others =>
      simp only [spellList, List.cons_append, List.append_assoc, List.cons.injEq,
        true_and] at words_eq
      obtain ⟨rfl, tails_eq⟩ := spell_append_inj words_eq
      obtain ⟨rfl, rests_eq⟩ := ih tails_eq
      exact ⟨rfl, rests_eq⟩

instance instList : Spelled (List α) where
  spell := spellList
  spell_append_inj := spellList_append_inj

/-- An absent value is spelled before every present one. -/
def spellOption : Option α → List Nat
  | none => [0]
  | some value => 1 :: spell value

instance instOption : Spelled (Option α) where
  spell := spellOption
  spell_append_inj {left right _ _} words_eq := by
    cases left <;> cases right <;> simp [spellOption] at words_eq ⊢
    · exact words_eq
    · exact spell_append_inj words_eq

/-- A text is spelled by the code points of its characters, each one greater, and a zero at its
end. -/
def spellText (text : String) : List Nat :=
  text.toList.map (fun char => char.toNat + 1) ++ [0]

theorem spellChars_append_inj {left right : List Char} {restLeft restRight : List Nat}
    (words_eq : left.map (fun char => char.toNat + 1) ++ 0 :: restLeft =
      right.map (fun char => char.toNat + 1) ++ 0 :: restRight) :
    left = right ∧ restLeft = restRight := by
  induction left generalizing right with
  | nil =>
    cases right with
    | nil => simpa using words_eq
    | cons char chars => simp at words_eq
  | cons char chars ih =>
    cases right with
    | nil => simp at words_eq
    | cons other others =>
      simp only [List.map_cons, List.cons_append, List.cons.injEq, Nat.add_right_cancel_iff]
        at words_eq
      obtain ⟨rfl, rests_eq⟩ := ih words_eq.2
      exact ⟨by rw [Char.toNat_inj.mp words_eq.1], rests_eq⟩

instance instString : Spelled String where
  spell := spellText
  spell_append_inj {left right _ _} words_eq := by
    simp only [spellText, List.append_assoc, List.cons_append, List.nil_append] at words_eq
    obtain ⟨chars_eq, rests_eq⟩ := spellChars_append_inj words_eq
    exact ⟨String.toList_inj.mp chars_eq, rests_eq⟩

end Spelled

end Reification
