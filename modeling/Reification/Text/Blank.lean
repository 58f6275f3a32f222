/-!
# Blank characters

The characters with the property White_Space, and texts without such characters at their end.
-/

namespace Reification.Text

/-- Whether a character is white space. -/
def isBlank (char : Char) : Bool :=
  let code := char.toNat
  (0x09 ≤ code && code ≤ 0x0d) || code == 0x20 || code == 0x85 || code == 0xa0 ||
    code == 0x1680 || (0x2000 ≤ code && code ≤ 0x200a) || code == 0x2028 || code == 0x2029 ||
    code == 0x202f || code == 0x205f || code == 0x3000

/-- Some characters without the white space at their end. -/
def dropBlankEnd (chars : List Char) : List Char := (chars.reverse.dropWhile isBlank).reverse

/-- A text without the white space at its end. -/
def trimEnd (text : String) : String := String.ofList (dropBlankEnd text.toList)

/-- Whether some characters occur next to each other in others. -/
def occursIn (part : List Char) : List Char → Bool
  | [] => part.isEmpty
  | char :: chars => part.isPrefixOf (char :: chars) || occursIn part chars

end Reification.Text
