import Mathlib.Algebra.Group.Int.Defs
import Mathlib.Algebra.Group.Nat.Defs
import TapeMachine.Machine.Run

/-!
# TapeMachine.Proofs.Machine.Words — registers and the integers they hold

The machine computes a new cursor as a signed 64-bit sum and a new program counter as an unsigned
one.  `toInt_target` says that the first is the sum over the integers as long as that sum is an
index, `toNat_add_distance` that the second is the sum over the integers modulo `2 ^ 64`.
-/

namespace TapeMachine

namespace Machine

theorem toInt_toInt64 {cursor : UInt64} (h : cursor.toNat < 2 ^ 63) :
    cursor.toInt64.toInt = cursor.toNat := by
  show cursor.toBitVec.toInt = cursor.toNat
  rw [BitVec.toInt_eq_toNat_of_lt]
  · rfl
  · show 2 * cursor.toNat < 2 ^ 64
    omega

theorem toNat_toUInt64 (word : Int64) : (word.toUInt64.toNat : Int) = word.toInt % 2 ^ 64 := by
  have h := BitVec.toInt_eq_toNat_cond word.toBitVec
  have hlt := word.toBitVec.isLt
  show (word.toBitVec.toNat : Int) = word.toBitVec.toInt % 2 ^ 64
  split at h <;> omega

/-! ### The next cursor -/

/-- The signed sum of a move does not wrap around. -/
theorem toInt_target {cursor : UInt64} {amount : Int32} (h : cursor.toNat < 2 ^ 63)
    (ht : cursor.toNat + amount.toInt < 2 ^ 63) :
    (cursor.toInt64 + amount.toInt64).toInt = cursor.toNat + amount.toInt := by
  have ha := amount.le_toInt
  rw [Int64.toInt_add, toInt_toInt64 h, Int32.toInt_toInt64]
  exact Int.bmod_eq_of_le (by omega) (by omega)

theorem target_lt_zero_iff {cursor : UInt64} {amount : Int32} (h : cursor.toNat < 2 ^ 63)
    (ht : cursor.toNat + amount.toInt < 2 ^ 63) :
    cursor.toInt64 + amount.toInt64 < 0 ↔ cursor.toNat + amount.toInt < 0 := by
  rw [Int64.lt_iff_toInt_lt, toInt_target h ht]
  rfl

theorem toNat_target {cursor : UInt64} {amount : Int32} (h : cursor.toNat < 2 ^ 63)
    (ht : cursor.toNat + amount.toInt < 2 ^ 63) (h0 : 0 ≤ cursor.toNat + amount.toInt) :
    ((cursor.toInt64 + amount.toInt64).toUInt64.toNat : Int) = cursor.toNat + amount.toInt := by
  rw [toNat_toUInt64, toInt_target h ht]
  omega

/-! ### The next program counter -/

/-- A jump is the sum over the integers, modulo `2 ^ 64`. -/
theorem toNat_add_distance (counter : UInt64) (distance : Int32) :
    ((counter + distance.toInt64.toUInt64).toNat : Int) =
      (counter.toNat + distance.toInt) % 2 ^ 64 := by
  have h := toNat_toUInt64 distance.toInt64
  rw [Int32.toInt_toInt64] at h
  rw [UInt64.toNat_add]
  omega

theorem toNat_add_one {counter : UInt64} (h : counter.toNat + 1 < 2 ^ 64) :
    (counter + 1).toNat = counter.toNat + 1 := by
  rw [UInt64.toNat_add]
  exact Nat.mod_eq_of_lt h

/-- The words of the two jumps around `k` instructions are the numbers meant. -/
theorem toInt_jumps {k : Nat} (h : k + 2 ≤ Int32.maxValue.toInt.toNat) :
    (Int32.ofNat (k + 2)).toInt = k + 2 ∧ (Int32.ofInt (-k)).toInt = -k := by
  have hmax : Int32.maxValue.toInt.toNat = 2 ^ 31 - 1 := rfl
  exact ⟨Int32.toInt_ofNat_of_lt (by omega), Int32.toInt_ofInt_of_le (by omega) (by omega)⟩

end Machine

end TapeMachine
