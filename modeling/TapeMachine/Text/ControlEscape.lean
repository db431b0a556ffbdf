/-!
# TapeMachine.Text.ControlEscape — control characters spelled out

A terminal obeys some control characters, so a message that holds one could change what its reader
sees.  In an encoded text these characters are spelled by their codes: escape, bell, backspace, form
feed and delete with two hexadecimal digits, and those of the block U+0080 to U+009F with their
code in braces.  Every other character stays as it is, line breaks and tabs among them.

The log that failures are written to is formatted by a library, and this is what is assumed of its
formatter: it spells out these characters of a message and no others.
-/

namespace TapeMachine

namespace ControlEscape

/-- The single control characters that are spelled out. -/
def isSpelled (c : Char) : Bool :=
  c = '\x1b' ∨ c = '\x07' ∨ c = '\x08' ∨ c = '\x0c' ∨ c = '\x7f'

/-- Whether a character is of the control block U+0080 to U+009F, called C1. -/
def isC1 (c : Char) : Bool := 0x80 ≤ c.toNat ∧ c.toNat ≤ 0x9F

/-- The code of a character below U+0100 in two hexadecimal digits. -/
def twoDigits (c : Char) : List Char :=
  [(c.toNat / 16).digitChar, (c.toNat % 16).digitChar]

/-- What stands for one character. -/
def encodeChar (c : Char) : List Char :=
  if isSpelled c then '\\' :: 'x' :: twoDigits c
  else if isC1 c then '\\' :: 'u' :: '\x7b' :: twoDigits c ++ ['\x7d']
  else [c]

/-- The text with its control characters spelled out. -/
def encode (text : String) : String := String.ofList (text.toList.flatMap encodeChar)

theorem encodeChar_of_not_control {c : Char} (spelled : isSpelled c = false)
    (c1 : isC1 c = false) : encodeChar c = [c] := by
  simp [encodeChar, spelled, c1]

end ControlEscape

end TapeMachine
