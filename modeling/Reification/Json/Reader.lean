import Reification.Json

/-!
# Reading JSON texts

`Json.parse?` gives the tree of a text which is one JSON value with blanks around it.  The functions
below it consume the beginning of a list of characters and give the rest.  The value parser takes
as fuel a number which is greater than that of the characters, each of which is consumed once.
-/

namespace Reification.Json

/-- Whether a character may stand between tokens. -/
def isBlank (char : Char) : Bool :=
  char == ' ' || char == '\t' || char == '\n' || char == '\r'

/-- The characters from the first one which is no blank. -/
def skipBlanks (chars : List Char) : List Char := chars.dropWhile isBlank

/-- The value of a hexadecimal digit. -/
def hexDigit? (char : Char) : Option Nat :=
  if char.isDigit then some (char.toNat - '0'.toNat)
  else if 'a' ≤ char ∧ char ≤ 'f' then some (char.toNat - 'a'.toNat + 10)
  else if 'A' ≤ char ∧ char ≤ 'F' then some (char.toNat - 'A'.toNat + 10)
  else none

/-- The value of four hexadecimal digits. -/
def hexUnit? (first second third fourth : Char) : Option Nat := do
  let first ← hexDigit? first
  let second ← hexDigit? second
  let third ← hexDigit? third
  let fourth ← hexDigit? fourth
  return ((first * 16 + second) * 16 + third) * 16 + fourth

/-- Whether a unit begins a surrogate pair. -/
def isLeading (unit : Nat) : Bool := 0xD800 ≤ unit && unit < 0xDC00

/-- Whether a unit ends a surrogate pair. -/
def isTrailing (unit : Nat) : Bool := 0xDC00 ≤ unit && unit < 0xE000

/-- The character of a surrogate pair. -/
def pairChar (leading trailing : Nat) : Char :=
  Char.ofNat (0x10000 + (leading - 0xD800) * 0x400 + (trailing - 0xDC00))

/-- The character which an escape of one letter denotes. -/
def shortEscape? : Char → Option Char
  | '"' => some '"'
  | '\\' => some '\\'
  | '/' => some '/'
  | 'b' => some '\x08'
  | 'f' => some '\x0c'
  | 'n' => some '\n'
  | 'r' => some '\r'
  | 't' => some '\t'
  | _ => none

/-- A part of a string literal: a character or an escape of four hexadecimal digits. -/
inductive Piece where
  | char (char : Char)
  | unit (number : Nat)

/-- Reads the pieces of a string after its opening quote. -/
def readPieces : List Char → Option (List Piece × List Char)
  | [] => none
  | '"' :: rest => some ([], rest)
  | '\\' :: 'u' :: first :: second :: third :: fourth :: rest =>
    match hexUnit? first second third fourth with
    | none => none
    | some unit => (readPieces rest).map fun (pieces, rest) => (.unit unit :: pieces, rest)
  | '\\' :: letter :: rest =>
    match shortEscape? letter with
    | none => none
    | some char => (readPieces rest).map fun (pieces, rest) => (.char char :: pieces, rest)
  | char :: rest =>
    if char < ' ' then none
    else (readPieces rest).map fun (pieces, rest) => (.char char :: pieces, rest)

/-- The characters of some pieces, unless half of a surrogate pair is among them. -/
def joinPieces : List Piece → Option (List Char)
  | [] => some []
  | .char char :: pieces => (joinPieces pieces).map (char :: ·)
  | .unit leading :: .unit trailing :: pieces =>
    if isLeading leading then
      if isTrailing trailing then (joinPieces pieces).map (pairChar leading trailing :: ·)
      else none
    else if isTrailing leading then none
    else (joinPieces (.unit trailing :: pieces)).map (Char.ofNat leading :: ·)
  | .unit unit :: pieces =>
    if isLeading unit || isTrailing unit then none
    else (joinPieces pieces).map (Char.ofNat unit :: ·)

/-- Reads a string after its opening quote. -/
def readLiteral (chars : List Char) : Option (Literal × List Char) :=
  (readPieces chars).map fun (pieces, rest) => ((joinPieces pieces).map String.ofList, rest)

/-- Splits off leading digits, of which there must be one. -/
def readDigits (chars : List Char) : Option (List Char × List Char) :=
  match chars.takeWhile Char.isDigit with
  | [] => none
  | digits => some (digits, chars.dropWhile Char.isDigit)

/-- Splits off the digits before a point: more than one digit must not begin with zero. -/
def readWhole (chars : List Char) : Option (List Char × List Char) := do
  let (digits, rest) ← readDigits chars
  if digits.head? = some '0' ∧ digits.length > 1 then none else some (digits, rest)

/-- Reads the digits of a fraction, if there is one. -/
def readFraction : List Char → Option (Option (List Char) × List Char)
  | '.' :: rest => (readDigits rest).map fun (digits, rest) => (some digits, rest)
  | chars => some (none, chars)

/-- Reads the digits of an exponent after its letter and its sign. -/
def readExponentDigits (negative : Bool) (chars : List Char) : Option (Option Int × List Char) :=
  (readDigits chars).map fun (digits, rest) =>
    let size : Int := Decimal.ofDigits digits
    (some (if negative then -size else size), rest)

/-- Reads an exponent, if there is one. -/
def readExponent : List Char → Option (Option Int × List Char)
  | 'e' :: '+' :: rest | 'E' :: '+' :: rest => readExponentDigits false rest
  | 'e' :: '-' :: rest | 'E' :: '-' :: rest => readExponentDigits true rest
  | 'e' :: rest | 'E' :: rest => readExponentDigits false rest
  | chars => some (none, chars)

/-- Reads a number after its sign. -/
def readUnsigned (negative : Bool) (chars : List Char) : Option (Json × List Char) := do
  let (whole, rest) ← readWhole chars
  let (fraction, rest) ← readFraction rest
  let (exponent, rest) ← readExponent rest
  let significand := Decimal.ofDigits (whole ++ fraction.getD [])
  if fraction.isNone ∧ exponent.isNone ∧ ¬(negative ∧ significand = 0) then
    return (integer (if negative then -significand else significand), rest)
  else
    return (decimal
      { negative, significand, exponent := exponent.getD 0 - (fraction.getD []).length }, rest)

mutual

/-- Reads a value which begins with the first character. -/
def readValue : Nat → List Char → Option (Json × List Char)
  | 0, _ => none
  | fuel + 1, chars =>
    match chars with
    | 'n' :: 'u' :: 'l' :: 'l' :: rest => some (null, rest)
    | 't' :: 'r' :: 'u' :: 'e' :: rest => some (bool true, rest)
    | 'f' :: 'a' :: 'l' :: 's' :: 'e' :: rest => some (bool false, rest)
    | '"' :: rest => (readLiteral rest).map fun (literal, rest) => (string literal, rest)
    | '[' :: rest =>
      match skipBlanks rest with
      | ']' :: rest => some (array [], rest)
      | chars => (readItems fuel chars).map fun (items, rest) => (array items, rest)
    | '\x7b' :: rest =>
      match skipBlanks rest with
      | '\x7d' :: rest => some (object [], rest)
      | chars => (readMembers fuel chars).map fun (members, rest) => (object members, rest)
    | '-' :: rest => readUnsigned true rest
    | chars => readUnsigned false chars

/-- Reads the items of an array which has some, and its closing bracket. -/
def readItems : Nat → List Char → Option (List Json × List Char)
  | 0, _ => none
  | fuel + 1, chars =>
    match readValue fuel chars with
    | none => none
    | some (item, rest) =>
      match skipBlanks rest with
      | ']' :: rest => some ([item], rest)
      | ',' :: rest =>
        (readItems fuel (skipBlanks rest)).map fun (items, rest) => (item :: items, rest)
      | _ => none

/-- Reads the members of an object which has some, and its closing bracket. -/
def readMembers : Nat → List Char → Option (List (Literal × Json) × List Char)
  | 0, _ => none
  | fuel + 1, chars =>
    match chars with
    | '"' :: rest =>
      match readLiteral rest with
      | none => none
      | some (key, rest) =>
        match skipBlanks rest with
        | ':' :: rest =>
          match readValue fuel (skipBlanks rest) with
          | none => none
          | some (value, rest) =>
            match skipBlanks rest with
            | '\x7d' :: rest => some ([(key, value)], rest)
            | ',' :: rest =>
              (readMembers fuel (skipBlanks rest)).map fun (members, rest) =>
                ((key, value) :: members, rest)
            | _ => none
        | _ => none
    | _ => none

end

/-- The tree of a text which is one value with blanks around it. -/
def parse? (text : String) : Option Json := do
  let chars := text.toList
  let (value, rest) ← readValue (chars.length + 1) (skipBlanks chars)
  if (skipBlanks rest).isEmpty then some value else none

end Reification.Json
