/-!
# TapeMachine.Text.Utf8 — bytes as text and text as bytes

`Utf8.decode` reads any bytes.  Where they are no UTF-8, each longest run of bytes that starts a
character and cannot be continued by the byte after it, and each byte that starts none, becomes
one replacement character U+FFFD; so text is never refused, and bytes that are UTF-8 are kept.
-/

namespace TapeMachine

namespace Utf8

/-- The character that stands for bytes that are no character. -/
def replacement : Char := Char.ofNat 0xFFFD

/-- A character of which the first bytes have come. -/
structure Pending where
  /-- The bits of the code point so far. -/
  bits : Nat
  /-- Bytes to come, after the next one. -/
  later : Nat
  /-- The least and the greatest byte that may come next. -/
  least : UInt8
  greatest : UInt8
  deriving DecidableEq, Repr, Inhabited

/-- What a byte between characters starts: a character of its own, one with more bytes to come, or
none.  The bounds on the second byte leave out long spellings, surrogates and what lies above
U+10FFFF. -/
def lead (byte : UInt8) : Option (Char ⊕ Pending) :=
  let value := byte.toNat
  if byte ≤ 0x7F then some (.inl (Char.ofNat value))
  else if byte < 0xC2 then none
  else if byte ≤ 0xDF then some (.inr ⟨value - 0xC0, 0, 0x80, 0xBF⟩)
  else if byte = 0xE0 then some (.inr ⟨0, 1, 0xA0, 0xBF⟩)
  else if byte = 0xED then some (.inr ⟨0xD, 1, 0x80, 0x9F⟩)
  else if byte ≤ 0xEF then some (.inr ⟨value - 0xE0, 1, 0x80, 0xBF⟩)
  else if byte = 0xF0 then some (.inr ⟨0, 2, 0x90, 0xBF⟩)
  else if byte ≤ 0xF3 then some (.inr ⟨value - 0xF0, 2, 0x80, 0xBF⟩)
  else if byte = 0xF4 then some (.inr ⟨4, 2, 0x80, 0x8F⟩)
  else none

/-- The decoder: the characters so far, newest first, and the one under way. -/
structure Decoder where
  characters : List Char
  pending : Option Pending
  deriving DecidableEq, Repr, Inhabited

/-- The decoder after a byte that starts a character, or none. -/
def Decoder.start (characters : List Char) (byte : UInt8) : Decoder :=
  match lead byte with
  | some (.inl character) => ⟨character :: characters, none⟩
  | some (.inr pending) => ⟨characters, some pending⟩
  | none => ⟨replacement :: characters, none⟩

/-- The decoder after one more byte. -/
def Decoder.read (decoder : Decoder) (byte : UInt8) : Decoder :=
  match decoder.pending with
  | none => start decoder.characters byte
  | some pending =>
    if pending.least ≤ byte ∧ byte ≤ pending.greatest then
      let bits := 64 * pending.bits + (byte.toNat - 0x80)
      match pending.later with
      | later + 1 => { decoder with pending := some ⟨bits, later, 0x80, 0xBF⟩ }
      | 0 => ⟨Char.ofNat bits :: decoder.characters, none⟩
    else start (replacement :: decoder.characters) byte

/-- The characters of a decoder whose bytes have ended, in order. -/
def Decoder.finish (decoder : Decoder) : List Char :=
  match decoder.pending with
  | none => decoder.characters.reverse
  | some _ => (replacement :: decoder.characters).reverse

/-- The text of a byte sequence. -/
def decode (bytes : List UInt8) : List Char :=
  (bytes.foldl Decoder.read ⟨[], none⟩).finish

/-- The bytes of a text. -/
def encode (text : String) : List UInt8 := text.toUTF8.toList

end Utf8

end TapeMachine
