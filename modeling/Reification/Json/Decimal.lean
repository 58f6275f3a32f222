/-!
# Decimal numbers

A number with a fraction or an exponent is a significand times a power of ten.  Readers keep numbers
in 64 bits: the digits of the significand which exceed an unsigned word are dropped, significand and
power are rounded to 53 bits, and a product which rounds beyond the greatest finite number is out of
range.
-/

namespace Reification

/-- The number `significand * 10 ^ exponent`, negated if `negative` is set. -/
structure Decimal where
  negative : Bool
  significand : Nat
  exponent : Int
  deriving DecidableEq, Inhabited, Repr

namespace Decimal

/-- The number which is written with some decimal digits. -/
def ofDigits (digits : List Char) : Nat :=
  digits.foldl (fun number digit => number * 10 + (digit.toNat - '0'.toNat)) 0

/-- Keeps as many leading digits as make a number of 64 bits, and counts the others. -/
def leadingWord (digits : List Char) : Nat × Nat :=
  digits.foldl
    (fun (word, dropped) digit =>
      let extended := word * 10 + (digit.toNat - '0'.toNat)
      if dropped = 0 ∧ extended < Nat.pow 2 64 then (extended, 0) else (word, dropped + 1))
    (0, 0)

/-- The nearest number of 53 significant bits; of two nearest ones that with an even last bit. -/
def roundToDouble (number : Nat) : Nat :=
  if number < Nat.pow 2 53 then number
  else
    let unit := Nat.pow 2 (number.log2 - 52)
    let quotient := number / unit
    let rest := number % unit
    if rest * 2 > unit ∨ (rest * 2 = unit ∧ quotient % 2 = 1) then (quotient + 1) * unit
    else quotient * unit

/-- Whether `significand * 10 ^ exponent` is not too large to be read. -/
def isInRange (significand : Nat) (exponent : Int) : Bool :=
  let (word, dropped) := leadingWord (Nat.toDigits 10 significand)
  let power := exponent + dropped
  word == 0 || power ≤ 0 ||
    (power ≤ 308 &&
      roundToDouble word * roundToDouble (Nat.pow 10 power.toNat) < Nat.pow 2 1024 - Nat.pow 2 970)

/-- A text of the number, which has an exponent so that it is not taken for an integer. -/
def toText (number : Decimal) : String :=
  (if number.negative then "-" else "") ++ toString number.significand ++ "e" ++
    toString number.exponent

end Decimal

end Reification
