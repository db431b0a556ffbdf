import TapeMachine.Proofs.Text.Ascii
import TapeMachine.Text.ControlEscape
import TapeMachine.Text.Decimal
import TapeMachine.Text.Lines

/-!
# TapeMachine.Proofs.Text.Printable — text that is shown and stored as it is

Of printable characters none is spelled out, and none ends a line.  In a file each is one byte, and
reading the file gives the characters back (`Utf8.asciiText_encode`).
-/

namespace TapeMachine

/-- The characters from the space to the tilde. -/
def Printable (c : Char) : Prop := 0x20 ≤ c.toNat ∧ c.toNat < 0x7F

instance (c : Char) : Decidable (Printable c) := inferInstanceAs (Decidable (_ ∧ _))

theorem printable_of_isDigit {c : Char} (h : c.isDigit = true) : Printable c := by
  obtain ⟨hleast, hgreatest⟩ := Decimal.bounds_of_isDigit h
  exact ⟨by omega, by omega⟩

theorem printable_of_mem_toString {c : Char} {value : Nat} (h : c ∈ (toString value).toList) :
    Printable c := by
  have hdigits : (toString value).toList = Nat.toDigits 10 value := String.toList_ofList
  rw [hdigits] at h
  exact printable_of_isDigit (Nat.isDigit_of_mem_toDigits (by decide) (by decide) h)

theorem forall_printable {chars : List Char} (h : chars.all (fun c => decide (Printable c)) = true) :
    ∀ c ∈ chars, Printable c := by
  intro c hc
  exact of_decide_eq_true (List.all_eq_true.mp h c hc)

theorem Printable.ne {c d : Char} (h : Printable c) (hd : ¬ Printable d) : c ≠ d := by
  rintro rfl
  exact hd h

/-! ### On the error stream -/

theorem encodeChar_of_printable {c : Char} (h : Printable c) :
    ControlEscape.encodeChar c = [c] := by
  apply ControlEscape.encodeChar_of_not_control
  · simp only [ControlEscape.isSpelled, h.ne (by decide : ¬ Printable '\x1b'),
      h.ne (by decide : ¬ Printable '\x07'), h.ne (by decide : ¬ Printable '\x08'),
      h.ne (by decide : ¬ Printable '\x0c'), h.ne (by decide : ¬ Printable '\x7f')]
    rfl
  · have hlt := h.2
    simp only [ControlEscape.isC1, decide_eq_false_iff_not]
    omega

theorem flatMap_encodeChar_of_printable {chars : List Char} (h : ∀ c ∈ chars, Printable c) :
    chars.flatMap ControlEscape.encodeChar = chars := by
  induction chars with
  | nil => rfl
  | cons c chars ih =>
    obtain ⟨hc, hrest⟩ := List.forall_mem_cons.mp h
    rw [List.flatMap_cons, encodeChar_of_printable hc, ih hrest]
    rfl

theorem encode_of_printable {text : String} (h : ∀ c ∈ text.toList, Printable c) :
    ControlEscape.encode text = text := by
  unfold ControlEscape.encode
  rw [flatMap_encodeChar_of_printable h, String.ofList_toList]

namespace Lines

theorem split_of_printable {chars : List Char} (h : ∀ c ∈ chars, Printable c) (line : List Char) :
    split line chars = [(withoutReturn (chars.reverse ++ line)).reverse] := by
  induction chars generalizing line with
  | nil => rfl
  | cons c chars ih =>
    obtain ⟨hc, hrest⟩ := List.forall_mem_cons.mp h
    have hbreak : c ≠ '\n' := hc.ne (by decide)
    rw [split, if_neg hbreak, ih hrest]
    simp

theorem withoutReturn_of_printable {line : List Char} (h : ∀ c ∈ line, Printable c) :
    withoutReturn line = line := by
  unfold withoutReturn
  split
  · next rest =>
    have hreturn : ¬ Printable '\r' := by decide
    exact absurd (h '\r' List.mem_cons_self) hreturn
  · rfl

theorem ofText_of_printable {text : String} (h : ∀ c ∈ text.toList, Printable c) :
    ofText text = [text] := by
  have hreverse : ∀ c ∈ text.toList.reverse, Printable c := fun c hc => h c (List.mem_reverse.mp hc)
  unfold ofText
  rw [split_of_printable h, List.append_nil, withoutReturn_of_printable hreverse,
    List.reverse_reverse, List.map_singleton, String.ofList_toList]

end Lines

/-! ### In a file -/

namespace Utf8

theorem loop_toList (bytes : ByteArray) (index : Nat) (read : List UInt8) :
    ByteArray.toList.loop bytes index read = read.reverse ++ bytes.data.toList.drop index := by
  fun_induction ByteArray.toList.loop bytes index read with
  | case1 index read hlt ih =>
    have hlt' : index < bytes.data.toList.length := by simpa using hlt
    rw [ih, List.drop_eq_getElem_cons hlt', List.reverse_cons, List.append_assoc]
    simp [ByteArray.get!, hlt]
  | case2 index read hle =>
    have hle' : bytes.data.toList.length ≤ index := by simpa using hle
    rw [List.drop_eq_nil_of_le hle', List.append_nil]

theorem encode_ofList (chars : List Char) :
    encode (String.ofList chars) = chars.flatMap String.utf8EncodeChar := by
  show ByteArray.toList.loop (chars.flatMap String.utf8EncodeChar).toByteArray 0 [] = _
  rw [loop_toList, List.toList_data_toByteArray]
  rfl

/-- The bytes of a text without characters above U+007F. -/
def asciiBytes (chars : List Char) : List UInt8 := chars.map fun c => UInt8.ofNat c.toNat

theorem encode_ascii {chars : List Char} (h : ∀ c ∈ chars, c.toNat < 0x80) :
    encode (String.ofList chars) = asciiBytes chars := by
  rw [encode_ofList]
  induction chars with
  | nil => rfl
  | cons c chars ih =>
    obtain ⟨hc, hrest⟩ := List.forall_mem_cons.mp h
    have hsingle : String.utf8EncodeChar c = [UInt8.ofNat c.toNat] := if_pos (by
      show c.toNat ≤ 127
      omega)
    rw [List.flatMap_cons, hsingle, ih hrest]
    rfl

theorem toNat_ofNat_ascii {c : Char} (h : c.toNat < 0x80) : (UInt8.ofNat c.toNat).toNat = c.toNat := by
  rw [UInt8.toNat_ofNat']
  omega

theorem asciiText_asciiBytes {chars : List Char} (h : ∀ c ∈ chars, c.toNat < 0x80) :
    asciiText (asciiBytes chars) = chars := by
  unfold asciiText asciiBytes
  rw [List.map_map]
  conv => rhs; rw [← List.map_id chars]
  apply List.map_congr_left
  intro c hc
  show Char.ofNat (UInt8.ofNat c.toNat).toNat = c
  rw [toNat_ofNat_ascii (h c hc), Char.ofNat_toNat]

theorem lt_of_mem_asciiBytes {chars : List Char} (h : ∀ c ∈ chars, c.toNat < 0x80) {byte : UInt8}
    (hmem : byte ∈ asciiBytes chars) : byte < 0x80 := by
  obtain ⟨c, hc, rfl⟩ := List.mem_map.mp hmem
  show (UInt8.ofNat c.toNat).toNat < 0x80
  rw [toNat_ofNat_ascii (h c hc)]
  exact h c hc

end Utf8

end TapeMachine
