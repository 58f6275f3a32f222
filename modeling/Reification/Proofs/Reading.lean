import Mathlib.Data.List.Basic
import Reification.Json.Printer
import Reification.Json.Reader

/-!
# Reading what has been written

A tree is read back from its text of one line.  Every part of the text is read up to where it ends,
whatever stands behind it; only a number has to be followed by a character which belongs to none.
-/

namespace Reification.Json

/-! ### Literals -/

/-- The piece as which a written character is read. -/
def pieceOf (char : Char) : Piece :=
  match char with
  | '\x08' | '\x0c' | '\n' | '\r' | '\t' => .char char
  | char => if char < ' ' then .unit char.toNat else .char char

theorem hexUnit?_hexChar : ∀ unit < 32,
    hexUnit? '0' '0' (hexChar (unit / 16)) (hexChar (unit % 16)) = some unit := by
  decide

theorem readPieces_of_visible {char : Char} (no_quote : char ≠ '"') (no_backslash : char ≠ '\\')
    (visible : ¬char < ' ') (rest : List Char) :
    readPieces (char :: rest) =
      (readPieces rest).map fun (pieces, rest) => (.char char :: pieces, rest) := by
  rw [readPieces.eq_def]
  split
  · next chars_eq => cases chars_eq
  · next chars_eq => exact absurd (List.cons.inj chars_eq).1 no_quote
  · next chars_eq => exact absurd (List.cons.inj chars_eq).1 no_backslash
  · next chars_eq => exact absurd (List.cons.inj chars_eq).1 no_backslash
  · next chars_eq =>
    obtain ⟨rfl, rfl⟩ := List.cons.inj chars_eq
    rw [if_neg visible]

/-- A written character is read as one piece. -/
theorem readPieces_escapeChar (char : Char) (rest : List Char) :
    readPieces (escapeChar char ++ rest) =
      (readPieces rest).map fun (pieces, rest) => (pieceOf char :: pieces, rest) := by
  unfold escapeChar
  split
  iterate 7 · rfl
  · next no_quote no_backslash no_backspace no_feed no_line no_return no_tab =>
    have piece_eq : pieceOf char = if char < ' ' then .unit char.toNat else .char char := by
      unfold pieceOf
      split <;> first | contradiction | rfl
    rw [piece_eq]
    split
    · next control =>
      have unit_eq := hexUnit?_hexChar char.toNat control
      simp only [List.cons_append, List.nil_append]
      rw [readPieces, unit_eq]
    · next visible => exact readPieces_of_visible no_quote no_backslash visible rest

theorem readPieces_escape (chars rest : List Char) :
    readPieces (chars.flatMap escapeChar ++ '"' :: rest) = some (chars.map pieceOf, rest) := by
  induction chars with
  | nil => rfl
  | cons char chars ih =>
    rw [List.flatMap_cons, List.append_assoc, readPieces_escapeChar, ih]
    rfl

/-- A unit which is no half of a surrogate pair is a character of its own. -/
theorem joinPieces_unit {unit : Nat} (no_leading : isLeading unit = false)
    (no_trailing : isTrailing unit = false) (pieces : List Piece) :
    joinPieces (.unit unit :: pieces) = (joinPieces pieces).map (Char.ofNat unit :: ·) := by
  cases pieces with
  | nil => simp [joinPieces, no_leading, no_trailing]
  | cons piece pieces => cases piece <;> simp [joinPieces, no_leading, no_trailing]

theorem joinPieces_pieceOf (char : Char) (pieces : List Piece) :
    joinPieces (pieceOf char :: pieces) = (joinPieces pieces).map (char :: ·) := by
  unfold pieceOf
  split
  iterate 5 · rfl
  · split
    · next control =>
      have small : char.toNat < 32 := control
      rw [joinPieces_unit, Char.ofNat_toNat]
      · simp only [isLeading, Bool.and_eq_false_iff, decide_eq_false_iff_not]
        omega
      · simp only [isTrailing, Bool.and_eq_false_iff, decide_eq_false_iff_not]
        omega
    · rfl

theorem joinPieces_map_pieceOf (chars : List Char) :
    joinPieces (chars.map pieceOf) = some chars := by
  induction chars with
  | nil => rfl
  | cons char chars ih => rw [List.map_cons, joinPieces_pieceOf, ih, Option.map_some]

/-- Half of a surrogate pair is read as a literal which holds one. -/
theorem readLiteral_half (rest : List Char) :
    readLiteral ('\\' :: 'u' :: 'd' :: '8' :: '0' :: '0' :: '"' :: rest) = some (none, rest) := by
  have unit_eq : hexUnit? 'd' '8' '0' '0' = some 0xD800 := by decide
  simp [readLiteral, readPieces, unit_eq, joinPieces, isLeading]

/-- A literal is read back behind its opening quote. -/
theorem exists_quoteLiteral (literal : Literal) (rest : List Char) :
    ∃ body, quoteLiteral literal ++ rest = '"' :: body ∧
      readLiteral body = some (literal, rest) := by
  cases literal with
  | none =>
    refine ⟨_, ?_, readLiteral_half rest⟩
    delta quoteLiteral
    simp
  | some text =>
    refine ⟨text.toList.flatMap escapeChar ++ '"' :: rest, ?_, ?_⟩
    · delta quoteLiteral
      simp [quote]
    · rw [readLiteral, readPieces_escape]
      simp [joinPieces_map_pieceOf]

/-! ### Numbers -/

/-- Whether characters cannot continue a number which stands before them. -/
def EndsNumber (chars : List Char) : Prop :=
  ∀ char ∈ chars.head?, char = ',' ∨ char = ']' ∨ char = '\x7d'

theorem EndsNumber.not_isDigit {chars : List Char} (ends : EndsNumber chars) :
    ∀ char ∈ chars.head?, char.isDigit = false := by
  intro char mem
  obtain rfl | rfl | rfl := ends char mem <;> rfl

theorem readDigits_append {digits rest : List Char} (some_digit : digits ≠ [])
    (are_digits : ∀ char ∈ digits, char.isDigit = true)
    (ends : ∀ char ∈ rest.head?, char.isDigit = false) :
    readDigits (digits ++ rest) = some (digits, rest) := by
  have take_rest : rest.takeWhile Char.isDigit = [] := by
    cases rest with
    | nil => rfl
    | cons char rest => simp [ends char rfl]
  have drop_rest : rest.dropWhile Char.isDigit = rest := by
    cases rest with
    | nil => rfl
    | cons char rest => simp [ends char rfl]
  rw [readDigits, List.takeWhile_append_of_pos are_digits, List.dropWhile_append_of_pos are_digits,
    take_rest, drop_rest, List.append_nil]
  cases digits with
  | nil => contradiction
  | cons => rfl

theorem isDigit_of_mem_toDigits {number : Nat} {char : Char}
    (mem : char ∈ Nat.toDigits 10 number) : char.isDigit = true :=
  Nat.isDigit_of_mem_toDigits (by decide) (by decide) mem

/-- The digits of a number do not begin with zero, unless they are the only one of zero. -/
theorem head?_toDigits_ne_zero {number : Nat} (positive : 0 < number) :
    (Nat.toDigits 10 number).head? ≠ some '0' := by
  induction number using Nat.strongRecOn with
  | ind number ih =>
    rw [Nat.toDigits_eq_if (by decide)]
    split
    · next small =>
      have each : ∀ number < 10, 0 < number → Nat.digitChar number ≠ '0' := by decide
      simpa using each number small positive
    · next large =>
      rw [List.head?_append_of_ne_nil _ Nat.toDigits_ne_nil]
      exact ih (number / 10) (by omega) (by omega)

theorem readWhole_toDigits {number : Nat} {rest : List Char}
    (ends : ∀ char ∈ rest.head?, char.isDigit = false) :
    readWhole (Nat.toDigits 10 number ++ rest) = some (Nat.toDigits 10 number, rest) := by
  have no_zero : ¬((Nat.toDigits 10 number).head? = some '0' ∧
      (Nat.toDigits 10 number).length > 1) := by
    rintro ⟨head_eq, long⟩
    obtain rfl | positive := number.eq_zero_or_pos
    · simp at long
    · exact head?_toDigits_ne_zero positive head_eq
  simp only [readWhole, readDigits_append Nat.toDigits_ne_nil
    (fun _ => isDigit_of_mem_toDigits) ends, Option.bind_eq_bind, Option.bind_some]
  rw [if_neg no_zero]

theorem ofDigits_toDigits (number : Nat) : Decimal.ofDigits (Nat.toDigits 10 number) = number := by
  simpa [Decimal.ofDigits, Nat.ofDigitChars_eq_foldl, Nat.mul_comm]
    using Nat.ofDigitChars_ten_toDigits (n := number)

/-- The sign and the digits of an integer. -/
theorem toList_toString_int (number : Int) : (toString number).toList =
    if 0 ≤ number then Nat.toDigits 10 number.natAbs
    else '-' :: Nat.toDigits 10 number.natAbs := by
  rw [Int.toString_eq_repr, Int.repr_eq_if]
  split
  · rw [Nat.toList_repr, show number.toNat = number.natAbs by omega]
  · rw [String.toList_append, Nat.toList_repr, show (-number).toNat = number.natAbs by omega]
    rfl

theorem EndsNumber.readFraction {rest : List Char} (ends : EndsNumber rest) :
    readFraction rest = some (none, rest) := by
  cases rest with
  | nil => rfl
  | cons char rest => obtain rfl | rfl | rfl := ends char rfl <;> rfl

theorem EndsNumber.readExponent {rest : List Char} (ends : EndsNumber rest) :
    readExponent rest = some (none, rest) := by
  cases rest with
  | nil => rfl
  | cons char rest => obtain rfl | rfl | rfl := ends char rfl <;> rfl

theorem readUnsigned_integer {negative : Bool} {number : Nat} {rest : List Char}
    (proper : ¬(negative ∧ number = 0)) (ends : EndsNumber rest) :
    readUnsigned negative (Nat.toDigits 10 number ++ rest) =
      some (integer (if negative then -number else number), rest) := by
  simp only [readUnsigned, readWhole_toDigits ends.not_isDigit, ends.readFraction,
    ends.readExponent, Option.bind_eq_bind, Option.bind_some, Option.getD_none, List.append_nil,
    ofDigits_toDigits]
  rw [if_pos ⟨rfl, rfl, proper⟩]
  rfl

theorem readExponent_of_isDigit {digit : Char} (is_digit : digit.isDigit = true)
    (rest : List Char) :
    readExponent ('e' :: digit :: rest) = readExponentDigits false (digit :: rest) := by
  have no_plus : digit ≠ '+' := by
    rintro rfl
    cases is_digit
  have no_minus : digit ≠ '-' := by
    rintro rfl
    cases is_digit
  rw [readExponent.eq_def]
  split <;> simp_all

theorem readExponentDigits_toDigits (negative : Bool) (size : Nat) {rest : List Char}
    (ends : EndsNumber rest) : readExponentDigits negative (Nat.toDigits 10 size ++ rest) =
      some (some (if negative then -(size : Int) else size), rest) := by
  have digits_eq := readDigits_append (Nat.toDigits_ne_nil (n := size) (b := 10))
    (fun _ => isDigit_of_mem_toDigits) ends.not_isDigit
  simp only [readExponentDigits, digits_eq, Option.map_some, ofDigits_toDigits]

theorem readExponent_toString (exponent : Int) {rest : List Char} (ends : EndsNumber rest) :
    readExponent ('e' :: ((toString exponent).toList ++ rest)) = some (some exponent, rest) := by
  rw [toList_toString_int]
  split
  · next nonneg =>
    obtain ⟨digit, digits, cons_eq⟩ := List.exists_cons_of_ne_nil
      (Nat.toDigits_ne_nil (n := exponent.natAbs) (b := 10))
    have is_digit : digit.isDigit = true :=
      isDigit_of_mem_toDigits (cons_eq ▸ List.mem_cons_self ..)
    rw [cons_eq, List.cons_append, readExponent_of_isDigit is_digit, ← List.cons_append, ← cons_eq,
      readExponentDigits_toDigits false _ ends, if_neg Bool.false_ne_true,
      Int.natAbs_of_nonneg nonneg]
  · next negative =>
    rw [List.cons_append, readExponent, readExponentDigits_toDigits true _ ends, if_pos rfl,
      Int.ofNat_natAbs_of_nonpos (by omega), Int.neg_neg]

theorem readUnsigned_decimal (negative : Bool) (significand : Nat) (exponent : Int)
    {rest : List Char} (ends : EndsNumber rest) :
    readUnsigned negative
        (Nat.toDigits 10 significand ++ 'e' :: ((toString exponent).toList ++ rest)) =
      some (decimal { negative, significand, exponent }, rest) := by
  have whole_eq : readWhole
      (Nat.toDigits 10 significand ++ 'e' :: ((toString exponent).toList ++ rest)) =
        some (Nat.toDigits 10 significand, 'e' :: ((toString exponent).toList ++ rest)) :=
    readWhole_toDigits (by simp)
  have fraction_eq : readFraction ('e' :: ((toString exponent).toList ++ rest)) =
    some (none, 'e' :: ((toString exponent).toList ++ rest)) := rfl
  simp only [readUnsigned, whole_eq, fraction_eq, readExponent_toString exponent ends,
    Option.bind_eq_bind, Option.bind_some, Option.getD_none, List.append_nil, ofDigits_toDigits]
  simp

/-! ### Trees -/

/-- The characters of a written number behind its sign are read as a value. -/
theorem readValue_of_isDigit {digit : Char} (is_digit : digit.isDigit = true) (fuel : Nat)
    (rest : List Char) :
    readValue (fuel + 1) (digit :: rest) = readUnsigned false (digit :: rest) := by
  rw [readValue.eq_def]
  dsimp only
  split <;> first | rfl | (rename_i chars_eq; cases chars_eq; cases is_digit)

theorem readValue_toDigits (number fuel : Nat) (rest : List Char) :
    readValue (fuel + 1) (Nat.toDigits 10 number ++ rest) =
      readUnsigned false (Nat.toDigits 10 number ++ rest) := by
  obtain ⟨digit, digits, cons_eq⟩ := List.exists_cons_of_ne_nil
    (Nat.toDigits_ne_nil (n := number) (b := 10))
  have is_digit : digit.isDigit = true :=
    isDigit_of_mem_toDigits (cons_eq ▸ List.mem_cons_self ..)
  rw [cons_eq, List.cons_append, readValue_of_isDigit is_digit]

/-- The sign, the digits and the exponent of a decimal number. -/
theorem compactChars_decimal (number : Decimal) : (decimal number).compactChars =
    (if number.negative then ['-'] else []) ++
      (Nat.toDigits 10 number.significand ++ 'e' :: (toString number.exponent).toList) := by
  change number.toText.toList = _
  rw [Decimal.toText]
  cases number.negative <;> simp

theorem isBlank_of_isDigit {digit : Char} (is_digit : digit.isDigit = true) :
    isBlank digit = false ∧ digit ≠ ']' := by
  refine ⟨?_, ?_⟩
  · by_contra blank
    simp only [isBlank, Bool.not_eq_false, Bool.or_eq_true, beq_iff_eq] at blank
    obtain ((rfl | rfl) | rfl) | rfl := blank <;> cases is_digit
  · rintro rfl
    cases is_digit

/-- The text of a tree begins with no blank and with no closing bracket. -/
theorem exists_compactChars (json : Json) : ∃ first rest, json.compactChars = first :: rest ∧
    isBlank first = false ∧ first ≠ ']' := by
  have digits (number : Nat) (tail : List Char) : ∃ first rest,
      Nat.toDigits 10 number ++ tail = first :: rest ∧ isBlank first = false ∧ first ≠ ']' := by
    obtain ⟨digit, digits, cons_eq⟩ := List.exists_cons_of_ne_nil
      (Nat.toDigits_ne_nil (n := number) (b := 10))
    refine ⟨digit, digits ++ tail, by rw [cons_eq, List.cons_append], isBlank_of_isDigit ?_⟩
    exact isDigit_of_mem_toDigits (cons_eq ▸ List.mem_cons_self ..)
  cases json with
  | null => exact ⟨'n', _, rfl, by decide, by decide⟩
  | bool truth =>
    cases truth
    · exact ⟨'f', _, rfl, by decide, by decide⟩
    · exact ⟨'t', _, rfl, by decide, by decide⟩
  | integer number =>
    change ∃ first rest, (toString number).toList = first :: rest ∧ _
    rw [toList_toString_int]
    split
    · simpa using digits number.natAbs []
    · exact ⟨'-', _, rfl, by decide, by decide⟩
  | decimal number =>
    rw [compactChars_decimal]
    cases number.negative
    · exact digits number.significand _
    · exact ⟨'-', _, rfl, by decide, by decide⟩
  | string literal =>
    obtain ⟨body, quote_eq, -⟩ := exists_quoteLiteral literal []
    exact ⟨'"', body, (List.append_nil _).symm.trans quote_eq, by decide, by decide⟩
  | array items => exact ⟨'[', _, rfl, by decide, by decide⟩
  | object members => exact ⟨'\x7b', _, rfl, by decide, by decide⟩

theorem skipBlanks_cons {first : Char} (no_blank : isBlank first = false) (rest : List Char) :
    skipBlanks (first :: rest) = first :: rest := by
  rw [skipBlanks, List.dropWhile_cons_of_neg (by simp [no_blank])]

theorem skipBlanks_compactChars (json : Json) (rest : List Char) :
    skipBlanks (json.compactChars ++ rest) = json.compactChars ++ rest := by
  obtain ⟨first, tail, chars_eq, no_blank, -⟩ := exists_compactChars json
  rw [chars_eq, List.cons_append, skipBlanks_cons no_blank]

theorem endsNumber_cons {first : Char} (ends : first = ',' ∨ first = ']' ∨ first = '\x7d')
    (rest : List Char) : EndsNumber (first :: rest) := by
  rintro char ⟨⟩
  exact ends

theorem compactChars_ne_nil (json : Json) : json.compactChars ≠ [] := by
  obtain ⟨first, rest, chars_eq, -⟩ := exists_compactChars json
  simp [chars_eq]

/-- The text of items begins with that of the first one. -/
theorem exists_compactItems (item : Json) (items : List Json) :
    ∃ rest, compactItems (item :: items) = item.compactChars ++ rest := by
  cases items with
  | nil => exact ⟨[], (List.append_nil _).symm⟩
  | cons next items => exact ⟨',' :: compactItems (next :: items), rfl⟩

/-- The text of members begins with the quote of the first key. -/
theorem exists_compactMembers (member : Literal × Json) (members : List (Literal × Json))
    (rest : List Char) :
    ∃ tail, compactMembers (member :: members) ++ rest = '"' :: tail := by
  obtain ⟨key, value⟩ := member
  cases members with
  | nil =>
    obtain ⟨body, quote_eq, -⟩ := exists_quoteLiteral key (':' :: value.compactChars ++ rest)
    exact ⟨body, by rw [← quote_eq]; exact List.append_assoc ..⟩
  | cons next members =>
    obtain ⟨body, quote_eq, -⟩ := exists_quoteLiteral key
      (':' :: (value.compactChars ++ ',' :: compactMembers (next :: members)) ++ rest)
    exact ⟨body, by rw [← quote_eq]; exact List.append_assoc ..⟩

section Step

variable {fuel : Nat} {rest : List Char}

theorem readValue_integer (number : Int) (ends : EndsNumber rest) :
    readValue (fuel + 1) ((integer number).compactChars ++ rest) = some (integer number, rest) := by
  change readValue (fuel + 1) ((toString number).toList ++ rest) = _
  rw [toList_toString_int]
  split
  · next nonneg =>
    rw [readValue_toDigits, readUnsigned_integer (by simp) ends, if_neg Bool.false_ne_true,
      Int.natAbs_of_nonneg nonneg]
  · next negative =>
    change readUnsigned true (Nat.toDigits 10 number.natAbs ++ rest) = _
    rw [readUnsigned_integer (by simp; omega) ends, if_pos rfl,
      Int.ofNat_natAbs_of_nonpos (by omega), Int.neg_neg]

theorem readValue_decimal (number : Decimal) (ends : EndsNumber rest) :
    readValue (fuel + 1) ((decimal number).compactChars ++ rest) = some (decimal number, rest) := by
  obtain ⟨negative, significand, exponent⟩ := number
  rw [compactChars_decimal]
  cases negative with
  | false =>
    simp only [Bool.false_eq_true, if_false, List.nil_append, List.append_assoc, List.cons_append]
    rw [readValue_toDigits, readUnsigned_decimal false significand exponent ends]
  | true =>
    simp only [if_true, List.append_assoc, List.cons_append, List.nil_append]
    exact readUnsigned_decimal true significand exponent ends

theorem readValue_string (literal : Literal) :
    readValue (fuel + 1) ((string literal).compactChars ++ rest) = some (string literal, rest) := by
  obtain ⟨body, quote_eq, literal_eq⟩ := exists_quoteLiteral literal rest
  change readValue (fuel + 1) (quoteLiteral literal ++ rest) = _
  rw [quote_eq]
  change (readLiteral body).map _ = _
  rw [literal_eq, Option.map_some]

theorem readValue_array {items : List Json} {item : Json} {tail : List Char}
    (items_eq : readItems fuel (item.compactChars ++ tail) = some (items, rest)) :
    readValue (fuel + 1) ('[' :: (item.compactChars ++ tail)) = some (array items, rest) := by
  rw [readValue, skipBlanks_compactChars]
  obtain ⟨first, after, chars_eq, -, no_bracket⟩ := exists_compactChars item
  split
  · next cons_eq => simp [chars_eq, no_bracket] at cons_eq
  · rw [items_eq, Option.map_some]

theorem readValue_object {members : List (Literal × Json)} {tail : List Char}
    (members_eq : readMembers fuel ('"' :: tail) = some (members, rest)) :
    readValue (fuel + 1) ('\x7b' :: '"' :: tail) = some (object members, rest) := by
  change (readMembers fuel ('"' :: tail)).map _ = _
  rw [members_eq, Option.map_some]

theorem readItems_last {item : Json} {chars : List Char}
    (item_eq : readValue fuel chars = some (item, ']' :: rest)) :
    readItems (fuel + 1) chars = some ([item], rest) := by
  rw [readItems, item_eq]
  rfl

theorem readItems_more {item next : Json} {items : List Json} {chars tail : List Char}
    (item_eq : readValue fuel chars = some (item, ',' :: (next.compactChars ++ tail)))
    (items_eq : readItems fuel (next.compactChars ++ tail) = some (items, rest)) :
    readItems (fuel + 1) chars = some (item :: items, rest) := by
  rw [readItems, item_eq]
  change (readItems fuel (skipBlanks (next.compactChars ++ tail))).map _ = _
  rw [skipBlanks_compactChars, items_eq, Option.map_some]

theorem readMembers_last {key : Literal} {value : Json}
    (value_eq : readValue fuel (value.compactChars ++ '\x7d' :: rest) =
      some (value, '\x7d' :: rest)) :
    readMembers (fuel + 1) (quoteLiteral key ++ ':' :: (value.compactChars ++ '\x7d' :: rest)) =
      some ([(key, value)], rest) := by
  obtain ⟨body, quote_eq, key_eq⟩ :=
    exists_quoteLiteral key (':' :: (value.compactChars ++ '\x7d' :: rest))
  rw [quote_eq, readMembers, key_eq]
  have blankless_eq : skipBlanks (':' :: (value.compactChars ++ '\x7d' :: rest)) =
      ':' :: (value.compactChars ++ '\x7d' :: rest) := rfl
  simp only [blankless_eq, skipBlanks_compactChars, value_eq]
  rfl

theorem readMembers_more {key : Literal} {value : Json} {members : List (Literal × Json)}
    {tail : List Char}
    (value_eq : readValue fuel (value.compactChars ++ ',' :: '"' :: tail) =
      some (value, ',' :: '"' :: tail))
    (members_eq : readMembers fuel ('"' :: tail) = some (members, rest)) :
    readMembers (fuel + 1) (quoteLiteral key ++ ':' :: (value.compactChars ++ ',' :: '"' :: tail)) =
      some ((key, value) :: members, rest) := by
  obtain ⟨body, quote_eq, key_eq⟩ :=
    exists_quoteLiteral key (':' :: (value.compactChars ++ ',' :: '"' :: tail))
  rw [quote_eq, readMembers, key_eq]
  have blankless_eq : skipBlanks (':' :: (value.compactChars ++ ',' :: '"' :: tail)) =
      ':' :: (value.compactChars ++ ',' :: '"' :: tail) := rfl
  simp only [blankless_eq, skipBlanks_compactChars, value_eq]
  change (readMembers fuel ('"' :: tail)).map _ = _
  rw [members_eq, Option.map_some]

end Step

mutual

/-- A tree is read back from its text. -/
theorem readValue_compactChars {fuel : Nat} {rest : List Char} (ends : EndsNumber rest) :
    ∀ json : Json, json.compactChars.length ≤ fuel + 1 →
      readValue (fuel + 1) (json.compactChars ++ rest) = some (json, rest)
  | null, _ => rfl
  | bool true, _ => rfl
  | bool false, _ => rfl
  | integer number, _ => readValue_integer number ends
  | decimal number, _ => readValue_decimal number ends
  | string literal, _ => readValue_string literal
  | array [], _ => rfl
  | array (item :: items), enough => by
    have enough : (compactItems (item :: items) ++ [']']).length ≤ fuel :=
      Nat.le_of_succ_le_succ enough
    rw [List.length_append, List.length_singleton] at enough
    have items_eq : readItems fuel (compactItems (item :: items) ++ ']' :: rest) =
        some (item :: items, rest) :=
      readItems_compactItems (List.cons_ne_nil item items) enough
    obtain ⟨tail, chars_eq⟩ := exists_compactItems item items
    change readValue (fuel + 1) ('[' :: (compactItems (item :: items) ++ [']'] ++ rest)) = _
    rw [List.append_assoc, List.singleton_append]
    rw [chars_eq, List.append_assoc] at items_eq ⊢
    exact readValue_array items_eq
  | object [], _ => rfl
  | object (member :: members), enough => by
    have enough : (compactMembers (member :: members) ++ ['\x7d']).length ≤ fuel :=
      Nat.le_of_succ_le_succ enough
    rw [List.length_append, List.length_singleton] at enough
    have members_eq : readMembers fuel (compactMembers (member :: members) ++ '\x7d' :: rest) =
        some (member :: members, rest) :=
      readMembers_compactMembers (List.cons_ne_nil member members) enough
    obtain ⟨tail, chars_eq⟩ := exists_compactMembers member members ('\x7d' :: rest)
    change readValue (fuel + 1)
      ('\x7b' :: (compactMembers (member :: members) ++ ['\x7d'] ++ rest)) = _
    rw [List.append_assoc, List.singleton_append]
    rw [chars_eq] at members_eq ⊢
    exact readValue_object members_eq

/-- The items of an array are read back from their text. -/
theorem readItems_compactItems {fuel : Nat} {rest : List Char} : ∀ {items : List Json},
    items ≠ [] → (compactItems items).length + 1 ≤ fuel →
      readItems fuel (compactItems items ++ ']' :: rest) = some (items, rest)
  | [], empty, _ => absurd rfl empty
  | [item], _, enough => by
    have enough : item.compactChars.length + 1 ≤ fuel := enough
    have positive := List.length_pos_iff.mpr item.compactChars_ne_nil
    obtain ⟨fuel, rfl⟩ := Nat.exists_eq_add_of_le' (show 2 ≤ fuel by omega)
    exact readItems_last (readValue_compactChars (endsNumber_cons (by simp) rest) item (by omega))
  | item :: next :: items, _, enough => by
    have chars_eq : compactItems (item :: next :: items) =
      item.compactChars ++ ',' :: compactItems (next :: items) := rfl
    have positive := List.length_pos_iff.mpr item.compactChars_ne_nil
    rw [chars_eq, List.length_append, List.length_cons] at enough
    obtain ⟨fuel, rfl⟩ := Nat.exists_eq_add_of_le' (show 2 ≤ fuel by omega)
    have items_eq : readItems (fuel + 1) (compactItems (next :: items) ++ ']' :: rest) =
        some (next :: items, rest) :=
      readItems_compactItems (List.cons_ne_nil next items) (by omega)
    obtain ⟨tail, next_eq⟩ := exists_compactItems next items
    rw [chars_eq, List.append_assoc, List.cons_append]
    rw [next_eq, List.append_assoc] at items_eq ⊢
    exact readItems_more
      (readValue_compactChars (endsNumber_cons (by simp) _) item (by omega)) items_eq

/-- The members of an object are read back from their text. -/
theorem readMembers_compactMembers {fuel : Nat} {rest : List Char} :
    ∀ {members : List (Literal × Json)}, members ≠ [] →
      (compactMembers members).length + 1 ≤ fuel →
      readMembers fuel (compactMembers members ++ '\x7d' :: rest) = some (members, rest)
  | [], empty, _ => absurd rfl empty
  | [(key, value)], _, enough => by
    have chars_eq : compactMembers [(key, value)] = quoteLiteral key ++ ':' :: value.compactChars :=
      rfl
    rw [chars_eq, List.length_append, List.length_cons] at enough
    obtain ⟨fuel, rfl⟩ := Nat.exists_eq_add_of_le' (show 2 ≤ fuel by omega)
    rw [chars_eq, List.append_assoc, List.cons_append]
    exact readMembers_last
      (readValue_compactChars (endsNumber_cons (by simp) rest) value (by omega))
  | (key, value) :: next :: members, _, enough => by
    have chars_eq : compactMembers ((key, value) :: next :: members) = quoteLiteral key ++
      ':' :: (value.compactChars ++ ',' :: compactMembers (next :: members)) := rfl
    rw [chars_eq, List.length_append, List.length_cons, List.length_append, List.length_cons]
      at enough
    obtain ⟨fuel, rfl⟩ := Nat.exists_eq_add_of_le' (show 2 ≤ fuel by omega)
    have members_eq : readMembers (fuel + 1) (compactMembers (next :: members) ++ '\x7d' :: rest) =
        some (next :: members, rest) :=
      readMembers_compactMembers (List.cons_ne_nil next members) (by omega)
    obtain ⟨tail, next_eq⟩ := exists_compactMembers next members ('\x7d' :: rest)
    rw [chars_eq, List.append_assoc, List.cons_append, List.append_assoc, List.cons_append]
    rw [next_eq] at members_eq ⊢
    exact readMembers_more
      (readValue_compactChars (endsNumber_cons (by simp) _) value (by omega)) members_eq

end

/-- A tree is the one which its text denotes. -/
theorem parse?_compact (json : Json) : parse? json.compact = some json := by
  have value_eq : readValue (json.compactChars.length + 1) (json.compactChars ++ []) =
      some (json, []) := readValue_compactChars (by rintro char ⟨⟩) json (Nat.le_succ _)
  have skip_eq := skipBlanks_compactChars json []
  rw [List.append_nil] at value_eq skip_eq
  simp only [parse?, compact, String.toList_ofList, skip_eq, value_eq, Option.bind_eq_bind,
    Option.bind_some]
  rfl

end Reification.Json
