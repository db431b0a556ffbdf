import Mathlib.Algebra.Order.Ring.Nat
import Mathlib.Tactic.Ring
import TapeMachine.Text.Utf8

/-!
# TapeMachine.Proofs.Text.Ascii — bytes and texts without characters above U+007F

Bytes below 128 are decoded one by one (`decode_ascii`), and every other byte leaves a character
above U+007F in the text (`ascii_of_decode`): the character it belongs to, or a replacement
character.  For the first case, `low` and `high` bound the code points that a character under way
can still become; reading more of it only narrows the bounds.
-/

namespace TapeMachine

namespace Utf8

/-- The text of bytes that are a character each. -/
def asciiText (bytes : List UInt8) : List Char := bytes.map fun byte => Char.ofNat byte.toNat

namespace Pending

/-- The least code point that the character can become. -/
def low (pending : Pending) : Nat :=
  (64 * pending.bits + (pending.least.toNat - 0x80)) * 64 ^ pending.later

/-- A bound on the code points that the character can become. -/
def high (pending : Pending) : Nat :=
  (64 * pending.bits + (pending.greatest.toNat - 0x80) + 1) * 64 ^ pending.later

/-- The character will be one above U+007F, and no surrogate. -/
structure Foreign (pending : Pending) : Prop where
  le_low : 0x80 ≤ pending.low
  isCode : pending.high ≤ 0xD800 ∨ 0xE000 ≤ pending.low ∧ pending.high ≤ 0x110000

/-- The first byte of a character bounds it so that it is foreign. -/
theorem foreign_of_lead {byte : UInt8} {pending : Pending}
    (h : lead byte = some (.inr pending)) : pending.Foreign := by
  unfold lead at h
  dsimp only at h
  simp only [UInt8.le_iff_toNat_le, UInt8.lt_iff_toNat_lt, ← UInt8.toNat_inj,
    UInt8.reduceToNat] at h
  split_ifs at h <;> simp only [Option.some.injEq, Sum.inr.injEq, reduceCtorEq] at h <;> subst h
  all_goals
    constructor <;> simp only [low, high, UInt8.reduceToNat] <;> omega

variable {pending : Pending} {byte : UInt8}

/-- A character under way after one more byte of it. -/
theorem foreign_next {later : Nat} (h : pending.Foreign) (hlater : pending.later = later + 1)
    (hleast : pending.least ≤ byte) (hgreatest : byte ≤ pending.greatest) :
    Foreign ⟨64 * pending.bits + (byte.toNat - 0x80), later, 0x80, 0xBF⟩ := by
  have hbyte : pending.least.toNat ≤ byte.toNat := UInt8.le_iff_toNat_le.mp hleast
  have hbyte' : byte.toNat ≤ pending.greatest.toNat := UInt8.le_iff_toNat_le.mp hgreatest
  -- more of the character narrows the bounds
  have hlow : pending.low ≤
      low ⟨64 * pending.bits + (byte.toNat - 0x80), later, 0x80, 0xBF⟩ := by
    calc pending.low
        = (64 * pending.bits + (pending.least.toNat - 0x80)) * 64 ^ (later + 1) := by
          rw [low, hlater]
      _ ≤ (64 * pending.bits + (byte.toNat - 0x80)) * 64 ^ (later + 1) :=
          Nat.mul_le_mul_right _ (by omega)
      _ = low ⟨64 * pending.bits + (byte.toNat - 0x80), later, 0x80, 0xBF⟩ := by
          simp only [low, UInt8.reduceToNat]
          ring
  have hhigh : high ⟨64 * pending.bits + (byte.toNat - 0x80), later, 0x80, 0xBF⟩ ≤
      pending.high := by
    calc high ⟨64 * pending.bits + (byte.toNat - 0x80), later, 0x80, 0xBF⟩
        = (64 * pending.bits + (byte.toNat - 0x80) + 1) * 64 ^ (later + 1) := by
          simp only [high, UInt8.reduceToNat]
          ring
      _ ≤ (64 * pending.bits + (pending.greatest.toNat - 0x80) + 1) * 64 ^ (later + 1) :=
          Nat.mul_le_mul_right _ (by omega)
      _ = pending.high := by rw [high, hlater]
  obtain ⟨hle, hcode⟩ := h
  exact ⟨by omega, by omega⟩

/-- The last byte of a character makes it. -/
theorem le_toNat_of_last (h : pending.Foreign) (hlater : pending.later = 0)
    (hleast : pending.least ≤ byte) (hgreatest : byte ≤ pending.greatest) :
    0x80 ≤ (Char.ofNat (64 * pending.bits + (byte.toNat - 0x80))).toNat := by
  obtain ⟨hle, hcode⟩ := h
  have hbyte : pending.least.toNat ≤ byte.toNat := UInt8.le_iff_toNat_le.mp hleast
  have hbyte' : byte.toNat ≤ pending.greatest.toNat := UInt8.le_iff_toNat_le.mp hgreatest
  simp only [low, high, hlater, pow_zero, mul_one] at hle hcode
  have hvalid : (64 * pending.bits + (byte.toNat - 0x80)).isValidChar := by
    unfold Nat.isValidChar
    omega
  have htoNat : (Char.ofNat (64 * pending.bits + (byte.toNat - 0x80))).toNat =
      64 * pending.bits + (byte.toNat - 0x80) := by
    rw [Char.ofNat, dif_pos hvalid]
    rfl
  omega

end Pending

/-! ### Reading bytes -/

namespace Decoder

/-- The character under way, if there is one, will be foreign. -/
def Sound (decoder : Decoder) : Prop := ∀ pending ∈ decoder.pending, pending.Foreign

/-- The text will have a character above U+007F. -/
def Foreign (decoder : Decoder) : Prop :=
  decoder.pending.isSome = true ∨ ∃ c ∈ decoder.characters, 0x80 ≤ c.toNat

theorem le_toNat_replacement : 0x80 ≤ replacement.toNat := by decide

theorem sound_start (characters : List Char) (byte : UInt8) : (start characters byte).Sound := by
  unfold start
  split
  · rintro _ ⟨⟩
  · next pending hlead =>
    rintro _ ⟨⟩
    exact Pending.foreign_of_lead hlead
  · rintro _ ⟨⟩

theorem lead_of_ascii {byte : UInt8} (h : byte < 0x80) :
    lead byte = some (.inl (Char.ofNat byte.toNat)) := by
  have hle : byte ≤ 0x7F := by
    rw [UInt8.lt_iff_toNat_lt] at h
    rw [UInt8.le_iff_toNat_le]
    exact Nat.le_of_lt_succ h
  rw [lead, if_pos hle]

theorem lt_of_lead {byte : UInt8} {c : Char} (h : lead byte = some (.inl c)) : byte < 0x80 := by
  unfold lead at h
  dsimp only at h
  split_ifs at h with hle
  · rw [UInt8.le_iff_toNat_le] at hle
    rw [UInt8.lt_iff_toNat_lt]
    exact Nat.lt_succ_of_le hle
  all_goals simp at h

theorem foreign_start {characters : List Char} {byte : UInt8}
    (h : (∃ c ∈ characters, 0x80 ≤ c.toNat) ∨ 0x80 ≤ byte) : (start characters byte).Foreign := by
  unfold start
  split
  · next character hlead =>
    rcases h with ⟨c, hc, hforeign⟩ | h
    · exact .inr ⟨c, List.mem_cons_of_mem _ hc, hforeign⟩
    · exact absurd (lt_of_lead hlead) (UInt8.not_lt.mpr h)
  · exact .inl rfl
  · exact .inr ⟨replacement, List.mem_cons_self, le_toNat_replacement⟩

theorem sound_read {decoder : Decoder} (h : decoder.Sound) (byte : UInt8) :
    (decoder.read byte).Sound := by
  unfold read
  split
  · exact sound_start _ _
  · next pending hpending =>
    split
    · next hwithin =>
      obtain ⟨hleast, hgreatest⟩ := hwithin
      dsimp only
      split
      · next later hlater =>
        intro next hnext
        rw [← Option.some.inj hnext]
        exact Pending.foreign_next (h pending hpending) hlater hleast hgreatest
      · rintro _ ⟨⟩
    · exact sound_start _ _

theorem foreign_read {decoder : Decoder} {byte : UInt8} (hsound : decoder.Sound)
    (h : decoder.Foreign ∨ 0x80 ≤ byte) : (decoder.read byte).Foreign := by
  unfold read
  split
  · next hnone =>
    refine foreign_start (h.imp_left fun hforeign => ?_)
    rcases hforeign with hsome | hforeign
    · rw [hnone] at hsome
      cases hsome
    · exact hforeign
  · next pending hpending =>
    split
    · next hwithin =>
      obtain ⟨hleast, hgreatest⟩ := hwithin
      dsimp only
      split
      · exact .inl rfl
      · next hlast =>
        exact .inr ⟨_, List.mem_cons_self,
          Pending.le_toNat_of_last (hsound pending hpending) hlast hleast hgreatest⟩
    · exact foreign_start (.inl ⟨replacement, List.mem_cons_self, le_toNat_replacement⟩)

theorem foreign_foldl {decoder : Decoder} {bytes : List UInt8} (hsound : decoder.Sound)
    (h : decoder.Foreign ∨ ∃ byte ∈ bytes, 0x80 ≤ byte) : (bytes.foldl read decoder).Foreign := by
  induction bytes generalizing decoder with
  | nil =>
    rcases h with h | ⟨byte, hbyte, -⟩
    · exact h
    · cases hbyte
  | cons byte bytes ih =>
    rw [List.foldl_cons]
    refine ih (sound_read hsound byte) ?_
    rcases h with h | ⟨other, hmem, hother⟩
    · exact .inl (foreign_read hsound (.inl h))
    · rcases List.mem_cons.mp hmem with rfl | hmem
      · exact .inl (foreign_read hsound (.inr hother))
      · exact .inr ⟨other, hmem, hother⟩

theorem exists_mem_finish {decoder : Decoder} (h : decoder.Foreign) :
    ∃ c ∈ decoder.finish, 0x80 ≤ c.toNat := by
  unfold finish
  split
  · next hnone =>
    rcases h with h | ⟨c, hc, hforeign⟩
    · rw [hnone] at h
      cases h
    · exact ⟨c, List.mem_reverse.mpr hc, hforeign⟩
  · exact ⟨replacement, by simp, le_toNat_replacement⟩

theorem foldl_ascii {bytes : List UInt8} (h : ∀ byte ∈ bytes, byte < 0x80)
    (characters : List Char) :
    bytes.foldl read ⟨characters, none⟩ = ⟨(asciiText bytes).reverse ++ characters, none⟩ := by
  induction bytes generalizing characters with
  | nil => rfl
  | cons byte bytes ih =>
    have hread : read ⟨characters, none⟩ byte = ⟨Char.ofNat byte.toNat :: characters, none⟩ := by
      have hlead : lead byte = some (.inl (Char.ofNat byte.toNat)) :=
        lead_of_ascii (h byte List.mem_cons_self)
      simp [read, start, hlead]
    rw [List.foldl_cons, hread, ih fun b hb => h b (List.mem_cons_of_mem _ hb)]
    simp [asciiText]

end Decoder

/-- Bytes below 128 are the characters of the text. -/
theorem decode_ascii {bytes : List UInt8} (h : ∀ byte ∈ bytes, byte < 0x80) :
    decode bytes = asciiText bytes := by
  rw [decode, Decoder.foldl_ascii h]
  simp [Decoder.finish]

/-- A text without characters above U+007F is the text of bytes below 128 alone. -/
theorem ascii_of_decode {bytes : List UInt8} (h : ∀ c ∈ decode bytes, c.toNat < 0x80) :
    ∀ byte ∈ bytes, byte < 0x80 := by
  intro byte hbyte
  by_contra hforeign
  have hsound : Decoder.Sound ⟨[], none⟩ := by
    rintro _ ⟨⟩
  have hread : (bytes.foldl Decoder.read ⟨[], none⟩).Foreign :=
    Decoder.foreign_foldl hsound (.inr ⟨byte, hbyte, UInt8.not_lt.mp hforeign⟩)
  obtain ⟨c, hc, hle⟩ := Decoder.exists_mem_finish hread
  exact absurd (h c hc) (by omega)

end Utf8

end TapeMachine
