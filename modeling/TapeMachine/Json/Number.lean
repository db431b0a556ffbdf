import TapeMachine.Json.Value

/-!
# TapeMachine.Json.Number — reading a number

`Numeral.ofChars?` splits the text of a number by the grammar of RFC 8259.  A numeral without
fraction and exponent whose value fits a signed or an unsigned 64-bit word is an integer; every
other one is a real, and `-0` is a real too, for it is not the integer zero.

A real whose magnitude no double can hold is refused.  The magnitude is the one of a reader that
keeps as many leading digits as fit an unsigned 64-bit word and scales them once by a power of ten,
both factors and the product rounded to doubles.  `Numeral.overflows` computes that exactly in
natural numbers.
-/

namespace TapeMachine

/-- The parts of a number's text. -/
structure Numeral where
  negative : Bool
  /-- Digits before the point, at least one. -/
  whole : List Char
  /-- Digits after the point; `some` digits are at least one. -/
  fraction : Option (List Char)
  /-- Whether the exponent is negative, and its digits, at least one. -/
  exponent : Option (Bool × List Char)
  deriving DecidableEq, Repr, Inhabited

namespace Numeral

/-- The digits at the front of a text, and what follows them. -/
def splitDigits (text : List Char) : List Char × List Char :=
  (text.takeWhile Char.isDigit, text.dropWhile Char.isDigit)

/-- Digits before the point: no leading zero unless the zero stands alone. -/
def isWhole : List Char → Bool
  | [] => false
  | ['0'] => true
  | digit :: _ => digit ≠ '0'

/-- The optional fraction at the front of a text, and what follows it. -/
def splitFraction? : List Char → Option (Option (List Char) × List Char)
  | '.' :: text =>
    let (digits, rest) := splitDigits text
    if digits.isEmpty then none else some (some digits, rest)
  | text => some (none, text)

/-- The optional sign of an exponent: whether it is negative, and what follows it. -/
def splitSign : List Char → Bool × List Char
  | '+' :: text => (false, text)
  | '-' :: text => (true, text)
  | text => (false, text)

/-- The optional exponent that ends a text. -/
def exponentOf? : List Char → Option (Option (Bool × List Char))
  | [] => some none
  | mark :: text =>
    let (negative, text) := splitSign text
    let (digits, rest) := splitDigits text
    if (mark = 'e' ∨ mark = 'E') ∧ digits ≠ [] ∧ rest = [] then some (some (negative, digits))
    else none

/-- The parts of a text that is one number from end to end. -/
def ofChars? (text : List Char) : Option Numeral := do
  let (negative, text) := match text with
    | '-' :: rest => (true, rest)
    | _ => (false, text)
  let (whole, text) := splitDigits text
  guard (isWhole whole)
  let (fraction, text) ← splitFraction? text
  let exponent ← exponentOf? text
  return { negative, whole, fraction, exponent }

/-- The value of a digit string. -/
def valueOf (digits : List Char) : Nat := Nat.ofDigitChars 10 digits 0

/-- Appends digits to a value while it fits an unsigned 64-bit word; gives the digits left over. -/
def absorb (value : Nat) : List Char → Nat × List Char
  | [] => (value, [])
  | digit :: digits =>
    let next := Nat.ofDigitChars 10 [digit] value
    if next < UInt64.size then absorb next digits else (value, digit :: digits)

/-- Rounds to 53 significant bits, a tie to the even neighbour. -/
def roundToDouble (value : Nat) : Nat :=
  let unit := 1 <<< (value.log2 - 52)
  let quotient := value / unit
  let rest := value % unit
  if 2 * rest > unit ∨ (2 * rest = unit ∧ quotient % 2 = 1) then (quotient + 1) * unit
  else quotient * unit

/-- The leading digits as one number, and the power of ten that scales it. -/
def scaled (numeral : Numeral) : Nat × Int :=
  let fraction := numeral.fraction.getD []
  let (value, wholeLeft) := absorb 0 numeral.whole
  let (value, fractionLeft) := absorb value fraction
  let written : Int := match numeral.exponent with
    | some (true, digits) => -valueOf digits
    | some (false, digits) => valueOf digits
    | none => 0
  (value, wholeLeft.length - (fraction.length - fractionLeft.length : Nat) + written)

/-- Whether the magnitude is above every double.  Zero never is, whatever its exponent. -/
def overflows (numeral : Numeral) : Bool :=
  let (value, exponent) := numeral.scaled
  if value = 0 ∨ exponent < 0 then false
  else if 308 < exponent then true
  else 1 <<< 1024 ≤
    roundToDouble (roundToDouble value * roundToDouble (Nat.pow 10 exponent.toNat))

/-- The integer that the numeral spells in plain digits and that fits a 64-bit word. -/
def integer? (numeral : Numeral) : Option Int :=
  if numeral.fraction.isSome ∨ numeral.exponent.isSome then none
  else
    let value := valueOf numeral.whole
    if numeral.negative then
      if 0 < value ∧ Int64.minValue.toInt ≤ -(value : Int) then some (-value) else none
    else if value < UInt64.size then some value else none

end Numeral

/-- The value of a number's text; `none` for a text that is no number, or too large a one. -/
def Json.ofNumber? (text : List Char) : Option Json := do
  let numeral ← Numeral.ofChars? text
  match numeral.integer? with
  | some value => return .integer value
  | none => if numeral.overflows then none else return .real

end TapeMachine
