import Reification.Json

/-!
# Writing JSON texts

A tree is written in one line without blanks, or over several lines with two blanks for each level.
Characters beyond ASCII are written as they are.
-/

namespace Reification.Json

/-- The lowercase hexadecimal digit of a number below sixteen. -/
def hexChar (digit : Nat) : Char :=
  if digit < 10 then Char.ofNat ('0'.toNat + digit) else Char.ofNat ('a'.toNat + (digit - 10))

/-- A character as it is written within quotes: quotes, backslashes and control characters are
escaped. -/
def escapeChar (char : Char) : List Char :=
  match char with
  | '"' => ['\\', '"']
  | '\\' => ['\\', '\\']
  | '\x08' => ['\\', 'b']
  | '\x0c' => ['\\', 'f']
  | '\n' => ['\\', 'n']
  | '\r' => ['\\', 'r']
  | '\t' => ['\\', 't']
  | char =>
    if char < ' ' then
      ['\\', 'u', '0', '0', hexChar (char.toNat / 16), hexChar (char.toNat % 16)]
    else [char]

/-- A text in quotes. -/
def quote (text : String) : List Char :=
  '"' :: (text.toList.flatMap escapeChar ++ ['"'])

/-- A literal in quotes; half of a surrogate pair is written for a literal which holds one. -/
def quoteLiteral : Literal → List Char
  | some text => quote text
  | none => "\"\\ud800\"".toList

mutual

/-- A tree in one line. -/
def compactChars : Json → List Char
  | null => "null".toList
  | bool true => "true".toList
  | bool false => "false".toList
  | integer number => (toString number).toList
  | decimal number => number.toText.toList
  | string literal => quoteLiteral literal
  | array items => '[' :: (compactItems items ++ [']'])
  | object members => '\x7b' :: (compactMembers members ++ ['\x7d'])

/-- The items of an array with commas between them. -/
def compactItems : List Json → List Char
  | [] => []
  | [item] => item.compactChars
  | item :: items => item.compactChars ++ ',' :: compactItems items

/-- The members of an object with commas between them. -/
def compactMembers : List (Literal × Json) → List Char
  | [] => []
  | [(key, value)] => quoteLiteral key ++ ':' :: value.compactChars
  | (key, value) :: members =>
    quoteLiteral key ++ ':' :: (value.compactChars ++ ',' :: compactMembers members)

end

/-- A tree as a text of one line. -/
def compact (json : Json) : String := String.ofList json.compactChars

/-- The beginning of a line at some level. -/
def newLine (level : Nat) : List Char := '\n' :: List.replicate (2 * level) ' '

mutual

/-- A tree over several lines, the first of which has begun already. -/
def prettyChars (level : Nat) : Json → List Char
  | array (item :: items) =>
    '[' :: (prettyItems (level + 1) (item :: items) ++ (newLine level ++ [']']))
  | object (member :: members) =>
    '\x7b' :: (prettyMembers (level + 1) (member :: members) ++ (newLine level ++ ['\x7d']))
  | json => json.compactChars

/-- The items of an array on lines of their own. -/
def prettyItems (level : Nat) : List Json → List Char
  | [] => []
  | [item] => newLine level ++ item.prettyChars level
  | item :: items => newLine level ++ (item.prettyChars level ++ ',' :: prettyItems level items)

/-- The members of an object on lines of their own. -/
def prettyMembers (level : Nat) : List (Literal × Json) → List Char
  | [] => []
  | [(key, value)] => newLine level ++ (quoteLiteral key ++ ':' :: ' ' :: value.prettyChars level)
  | (key, value) :: members =>
    newLine level ++ (quoteLiteral key ++
      ':' :: ' ' :: (value.prettyChars level ++ ',' :: prettyMembers level members))

end

/-- A tree as a text over several lines. -/
def pretty (json : Json) : String := String.ofList (json.prettyChars 0)

end Reification.Json
