import Reification.Text.Visible

/-!
# Quoted texts

A text in quotes shows every character: those without a shape of their own stand as their code
point.
-/

namespace Reification.Text

/-- A character as it stands in a quoted text. -/
def escapeChar (char : Char) : String :=
  match char with
  | '\x00' => "\\0"
  | '\t' => "\\t"
  | '\r' => "\\r"
  | '\n' => "\\n"
  | '\\' => "\\\\"
  | '"' => "\\\""
  | char =>
    if isVisible char then char.toString
    else "\\u\x7b" ++ String.ofList (Nat.toDigits 16 char.toNat) ++ "\x7d"

/-- A text in quotes. -/
def quote (text : String) : String :=
  "\"" ++ String.join (text.toList.map escapeChar) ++ "\""

end Reification.Text
