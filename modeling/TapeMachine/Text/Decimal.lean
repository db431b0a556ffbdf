/-!
# TapeMachine.Text.Decimal — integers in decimal digits

The written form has no leading zero and no plus sign.  The read form, for values typed by a user,
allows both.
-/

namespace TapeMachine

namespace Decimal

/-- The digits of an integer, after a minus sign if it is negative. -/
def write (value : Int) : List Char :=
  if value < 0 then '-' :: Nat.toDigits 10 value.natAbs else Nat.toDigits 10 value.natAbs

/-- The value of a text of digits; `none` for a text without digits, or with anything else. -/
def digits? (text : List Char) : Option Nat :=
  if text ≠ [] ∧ text.all Char.isDigit then some (Nat.ofDigitChars 10 text 0) else none

/-- The value of digits after an optional plus sign. -/
def natural? : List Char → Option Nat
  | '+' :: text => digits? text
  | text => digits? text

/-- The value of digits after an optional sign. -/
def integer? : List Char → Option Int
  | '-' :: text => (digits? text).map fun value => -value
  | text => (natural? text).map Int.ofNat

theorem bounds_of_isDigit {c : Char} (h : c.isDigit = true) : 48 ≤ c.toNat ∧ c.toNat ≤ 57 := by
  simp only [Char.isDigit, Bool.and_eq_true, decide_eq_true_eq] at h
  exact h

end Decimal

end TapeMachine
