import Mathlib.Data.List.TakeWhile
import TapeMachine.Proofs.Device.Stdout

/-!
# TapeMachine.Proofs.Device.Refusing — standard output on a device that takes nothing

On such a device an output is written if it can be held back beside those written before it, and
fails otherwise.  What can be held back together is a question of line breaks and lengths
(`Retainable`), and nothing ever reaches the device.
-/

namespace TapeMachine

namespace Stdout

/-- Whether these outputs can be held back together: no line is complete, none of them is sent
unbuffered, and there is room for all of them. -/
def Retainable (outputs : List (List UInt8)) : Prop :=
  (∀ output ∈ outputs, lineBreak ∉ output ∧ output.length < capacity) ∧
    outputs.flatten.length ≤ capacity

instance (outputs : List (List UInt8)) : Decidable (Retainable outputs) :=
  inferInstanceAs (Decidable (_ ∧ _))

/-- Standard output holds these outputs back from a device that takes nothing. -/
structure Holding (stdout : Stdout) (outputs : List (List UInt8)) : Prop where
  full : stdout.device.full = true
  held : stdout.held.toList = outputs.flatten
  retainable : Retainable outputs

/-- The operation fails for lack of space, and the device is as it was. -/
def Refused (result : Except IoError Unit × Stdout) (device : Device) : Prop :=
  ∃ after, result = (.error .noSpaceLeft, after) ∧ after.device = device

theorem holding_onDevice {device : Device} (h : device.full = true) :
    (onDevice device).Holding [] :=
  ⟨h, rfl, by simp, by simp⟩

theorem Holding.lineless {stdout : Stdout} {outputs : List (List UInt8)}
    (h : stdout.Holding outputs) : lineBreak ∉ stdout.held.toList := by
  rw [h.held]
  intro hmem
  obtain ⟨output, houtput, hbreak⟩ := List.mem_flatten.mp hmem
  exact (h.retainable.1 output houtput).1 hbreak

theorem Holding.fits {stdout : Stdout} {outputs : List (List UInt8)}
    (h : stdout.Holding outputs) : stdout.held.toList.length ≤ capacity := by
  rw [h.held]
  exact h.retainable.2

theorem retainable_append_singleton {outputs : List (List UInt8)} (h : Retainable outputs)
    (bytes : List UInt8) : Retainable (outputs ++ [bytes]) ↔
      lineBreak ∉ bytes ∧ bytes.length < capacity ∧
        outputs.flatten.length + bytes.length ≤ capacity := by
  unfold Retainable
  rw [List.forall_mem_append, List.forall_mem_singleton, List.flatten_append,
    List.flatten_singleton, List.length_append, and_iff_right h.1, and_assoc]

/-! ### One operation -/

variable {stdout : Stdout} {bytes : List UInt8}

theorem Refused.andThen {first : Except IoError Unit × Stdout} {device : Device}
    (h : Refused first device) (second : Stdout → Except IoError Unit × Stdout) :
    Refused (andThen first second) device := by
  obtain ⟨after, rfl, hdevice⟩ := h
  exact ⟨after, rfl, hdevice⟩

theorem refused_flush (h : stdout.device.full = true) (hheld : stdout.held.toList ≠ []) :
    Refused stdout.flush stdout.device := by
  refine ⟨stdout, ?_, rfl⟩
  unfold flush Device.send
  rw [if_neg (by simpa using hheld), if_pos h]

theorem flush_of_nothing (hheld : stdout.held.toList = []) :
    stdout.flush = (.ok (), { stdout with held := .empty }) := by
  unfold flush Device.send
  rw [if_pos (by simpa using hheld)]

theorem refused_sendDirectly (h : stdout.device.full = true) (hbytes : bytes ≠ []) :
    Refused (stdout.sendDirectly bytes) stdout.device := by
  refine ⟨stdout, ?_, rfl⟩
  unfold sendDirectly Device.send
  rw [if_neg (by simpa using hbytes), if_pos h]

theorem holdBack_eq (stdout : Stdout) (bytes : List UInt8) : stdout.holdBack bytes =
    andThen (if capacity - stdout.held.toList.length < bytes.length then stdout.flush
      else (.ok (), stdout)) fun between =>
        if capacity ≤ bytes.length then between.sendDirectly bytes
        else (.ok (), { between with held := between.held.append bytes }) := by
  have hlength : stdout.held.bytes.size = stdout.held.toList.length := Array.length_toList.symm
  unfold holdBack
  rw [hlength]

/-- Bytes for which there is room are held back. -/
theorem holdBack_of_room (hsmall : bytes.length < capacity)
    (hfits : stdout.held.toList.length + bytes.length ≤ capacity) :
    stdout.holdBack bytes = (.ok (), { stdout with held := stdout.held.append bytes }) := by
  rw [holdBack_eq, if_neg (by omega)]
  exact if_neg (by omega)

/-- Bytes for which there is no room are refused: to make room the device would have to take those
held back, or the bytes themselves. -/
theorem refused_holdBack (h : stdout.device.full = true)
    (hfits : stdout.held.toList.length ≤ capacity)
    (hroom : ¬ (bytes.length < capacity ∧ stdout.held.toList.length + bytes.length ≤ capacity)) :
    Refused (stdout.holdBack bytes) stdout.device := by
  have hcapacity : capacity = 1024 := rfl
  rw [holdBack_eq]
  by_cases hheld : stdout.held.toList = []
  · have hlength : stdout.held.toList.length = 0 := List.length_eq_zero_iff.mpr hheld
    have hcount : capacity ≤ bytes.length := by omega
    have hbytes : bytes ≠ [] := List.ne_nil_of_length_pos (by omega)
    obtain ⟨between, hmade, hdevice⟩ : ∃ between,
        (if capacity - stdout.held.toList.length < bytes.length then stdout.flush
          else (.ok (), stdout)) = (.ok (), between) ∧ between.device = stdout.device := by
      split
      · exact ⟨_, flush_of_nothing hheld, rfl⟩
      · exact ⟨stdout, rfl, rfl⟩
    rw [hmade, ← hdevice]
    show Refused (if capacity ≤ bytes.length then _ else _) _
    rw [if_pos hcount]
    exact refused_sendDirectly (hdevice ▸ h) hbytes
  · have hlength : 0 < stdout.held.toList.length := List.length_pos_iff.mpr hheld
    rw [if_pos (by omega)]
    exact (refused_flush h hheld).andThen _

/-! ### Batches -/

theorem splitLines_of_lineless (h : lineBreak ∉ bytes) : splitLines bytes = ([], bytes) := by
  have hall : bytes.reverse.takeWhile (· ≠ lineBreak) = bytes.reverse := by
    rw [List.takeWhile_eq_self_iff]
    intro byte hmem
    rw [decide_eq_true_eq]
    rintro rfl
    exact h (List.mem_reverse.mp hmem)
  unfold splitLines
  rw [hall, List.reverse_reverse]
  simp

theorem splitLines_of_mem (h : lineBreak ∈ bytes) : (splitLines bytes).1 ≠ [] := by
  intro hlines
  have happend := splitLines_append bytes
  rw [hlines, List.nil_append] at happend
  rw [← happend] at h
  have hkept := List.mem_takeWhile_imp (List.mem_reverse.mp h)
  simp at hkept

/-- A batch without a line break is held back or refused as a whole. -/
theorem Holding.writeAll_of_lineless {outputs : List (List UInt8)} (h : stdout.Holding outputs)
    (hbytes : lineBreak ∉ bytes) : stdout.writeAll bytes = stdout.holdBack bytes := by
  have hback : stdout.held.bytes.back? ≠ some lineBreak := by
    intro hback
    rw [← Array.getLast?_toList] at hback
    exact h.lineless (List.mem_of_getLast? hback)
  unfold writeAll
  rw [splitLines_of_lineless hbytes]
  show andThen (if _ then _ else _) _ = _
  rw [if_neg hback]
  rfl

/-- A batch with a line break is refused: its lines would have to be sent. -/
theorem Holding.refused_lines {outputs : List (List UInt8)} (h : stdout.Holding outputs)
    (hbytes : lineBreak ∈ bytes) : Refused (stdout.writeAll bytes) stdout.device := by
  have hlines := splitLines_of_mem hbytes
  unfold writeAll
  rcases hsplit : splitLines bytes with ⟨_ | ⟨first, lines⟩, tail⟩
  · rw [hsplit] at hlines
    exact absurd rfl hlines
  · refine Refused.andThen ?_ _
    split
    · exact refused_sendDirectly h.full (List.cons_ne_nil _ _)
    · by_cases hroom : (first :: lines).length < capacity ∧
          stdout.held.toList.length + (first :: lines).length ≤ capacity
      · rw [holdBack_of_room hroom.1 hroom.2]
        have hheld : (stdout.held.append (first :: lines)).toList ≠ [] := by
          rw [ByteBuffer.toList_append]
          simp
        exact refused_flush h.full hheld
      · exact (refused_holdBack h.full h.fits hroom).andThen _

theorem Holding.writeAll_retainable {outputs : List (List UInt8)} (h : stdout.Holding outputs)
    (hbytes : Retainable (outputs ++ [bytes])) : ∃ after, stdout.writeAll bytes = (.ok (), after) ∧
      after.Holding (outputs ++ [bytes]) ∧ after.device = stdout.device := by
  obtain ⟨hlineless, hsmall, hfits⟩ := (retainable_append_singleton h.retainable bytes).mp hbytes
  rw [← h.held] at hfits
  refine ⟨{ stdout with held := stdout.held.append bytes }, ?_, ⟨h.full, ?_, hbytes⟩, rfl⟩
  · rw [h.writeAll_of_lineless hlineless, holdBack_of_room hsmall hfits]
  · rw [ByteBuffer.toList_append, h.held, List.flatten_append, List.flatten_singleton]

theorem Holding.refused_writeAll {outputs : List (List UInt8)} (h : stdout.Holding outputs)
    (hbytes : ¬ Retainable (outputs ++ [bytes])) :
    Refused (stdout.writeAll bytes) stdout.device := by
  rw [retainable_append_singleton h.retainable, ← h.held] at hbytes
  by_cases hlineless : lineBreak ∈ bytes
  · exact h.refused_lines hlineless
  · rw [h.writeAll_of_lineless hlineless]
    exact refused_holdBack h.full h.fits fun hroom => hbytes ⟨hlineless, hroom⟩

end Stdout

end TapeMachine
