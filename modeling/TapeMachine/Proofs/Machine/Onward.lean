import TapeMachine.Device.Scripted
import TapeMachine.Proofs.Machine.Sessions
import TapeMachine.Proofs.Machine.Words

/-!
# TapeMachine.Proofs.Machine.Onward — programs that never jump back

A program is onward when each of its jumps leads on, or to before its first instruction.  A jump to
there leaves the program as one beyond its end does: the program counter wraps around to a word that
is larger than any place of the program.  So every instruction that does not fault makes the program
counter larger (`counter_lt`), and an execution is over, from whatever state it starts, when it has
performed as many instructions as there are from the program counter on (`onward_halts`).
-/

namespace TapeMachine

instance : DecidablePred Instruction.Jumps := fun _ => inferInstanceAs (Decidable (_ ∨ _))

/-- Every jump of the program leads on, or to before its first instruction. -/
def Program.Onward (program : Program) : Prop :=
  ∀ place < program.length, ∀ instruction ∈ program.get? place, instruction.Jumps →
    1 ≤ instruction.argument.toInt ∨ place + instruction.argument.toInt < 0

instance : DecidablePred Program.Onward := fun program =>
  inferInstanceAs (Decidable (∀ place < program.length, ∀ instruction ∈ program.get? place, _))

namespace Machine

variable {ι ω : Type} [Input ι] [Output ω] {m : Machine ι ω} {instruction : Instruction}

/-- The number of instructions that a run of at most `limit` fetches performs, with the one that
faults if there is one. -/
def performedWithin : (limit : Nat) → Machine ι ω → Nat
  | 0, _ => 0
  | limit + 1, machine =>
    match machine.fetch with
    | none => 0
    | some instruction =>
      match machine.perform instruction with
      | (.ok (), machine) => performedWithin limit machine + 1
      | (.error _, _) => 1

theorem performedWithin_of_fetch_none (h : m.fetch = none) (limit : Nat) :
    m.performedWithin limit = 0 := by
  cases limit <;> simp [performedWithin, h]

theorem performedWithin_of_ok {next : Machine ι ω} (hf : m.fetch = some instruction)
    (h : m.perform instruction = (.ok (), next)) (limit : Nat) :
    m.performedWithin (limit + 1) = next.performedWithin limit + 1 := by
  simp [performedWithin, hf, h]

theorem performedWithin_of_error {next : Machine ι ω} {fault : Fault}
    (hf : m.fetch = some instruction) (h : m.perform instruction = (.error fault, next))
    (limit : Nat) : m.performedWithin (limit + 1) = 1 := by
  simp [performedWithin, hf, h]

/-- A run that is stopped has performed an instruction with each of its fetches. -/
theorem performedWithin_of_stopped {limit : Nat} (h : (m.run limit).1 = .stopped) :
    m.performedWithin limit = limit := by
  induction limit generalizing m with
  | zero => rfl
  | succ limit ih =>
    cases hf : m.fetch with
    | none =>
      rw [run_of_fetch_none hf] at h
      cases h
    | some instruction =>
      rcases hp : m.perform instruction with ⟨fault | _, next⟩
      · rw [run_of_error hf hp] at h
        cases h
      · rw [run_of_ok hf hp] at h
        rw [performedWithin_of_ok hf hp, ih h]

/-! ### Onward programs -/

/-- An instruction of an onward program that does not fault makes the program counter larger. -/
theorem counter_lt (honward : m.program.Onward) (hlen : m.program.length < 2 ^ 63)
    (hf : m.fetch = some instruction) (hok : (m.perform instruction).1 = .ok ()) :
    m.programCounter.toNat < (m.perform instruction).2.programCounter.toNat := by
  have hplace := lt_length_of_fetch hf
  rcases programCounter_of_ok hok with hnext | ⟨hjumps, hnext⟩
  · rw [hnext, toNat_add_one (by omega)]
    omega
  · have hsum := toNat_add_distance m.programCounter instruction.argument
    have hleast := instruction.argument.le_toInt
    have hgreatest := instruction.argument.toInt_lt
    rw [hnext]
    -- no jump on reaches the largest word, and one to below zero comes out near it
    rcases honward _ hplace instruction hf hjumps with hon | hout
    · omega
    · omega

/-- A run of an onward program performs no more instructions than there are from the program counter
on. -/
theorem performedWithin_le (hcov : Covered m) (honward : m.program.Onward)
    (hlen : m.program.length < 2 ^ 63) (limit : Nat) :
    m.performedWithin limit ≤ m.program.length - m.programCounter.toNat := by
  induction limit generalizing m with
  | zero => exact Nat.zero_le _
  | succ limit ih =>
    cases hf : m.fetch with
    | none => simp [performedWithin_of_fetch_none hf]
    | some instruction =>
      have hplace := lt_length_of_fetch hf
      have hlt := counter_lt honward hlen hf
      have hkeeps := Keeps.perform hcov instruction
      rcases hp : m.perform instruction with ⟨fault | _, next⟩
      · rw [performedWithin_of_error hf hp]
        omega
      · rw [hp] at hlt hkeeps
        have hcovnext : Covered next := hkeeps.covered
        have hprogram : next.program = m.program := hkeeps.program
        have hcounter : m.programCounter.toNat < next.programCounter.toNat := hlt rfl
        have hrest := ih hcovnext (by rwa [hprogram]) (by rwa [hprogram])
        rw [hprogram] at hrest
        rw [performedWithin_of_ok hf hp]
        omega

/-- In whatever state of a session a machine holds an onward program, an execution performs at most
as many instructions as the program has from the program counter on, so none if that is beyond its
end.  When it is allowed one more fetch than that, it halts or faults.  No memory holds a program of
`2 ^ 63` instructions. -/
theorem onward_halts (config : Config) (input : ι) (output : ω) (requests : List Request)
    (honward : ((Machine.new config input output).served requests).program.Onward)
    (hlen : ((Machine.new config input output).served requests).program.length < 2 ^ 63)
    (limit : Nat) :
    let m := (Machine.new config input output).served requests
    let remaining := m.program.length - m.programCounter.toNat
    m.performedWithin limit ≤ remaining ∧
      (remaining < limit → (m.run limit).1 = .halted ∨ ∃ fault, (m.run limit).1 = .faulted fault) := by
  intro m remaining
  have hle : m.performedWithin limit ≤ remaining := by
    cases hf : m.fetch with
    | none => simp [performedWithin_of_fetch_none hf]
    | some instruction => exact performedWithin_le (covered_of_fetch hf) honward hlen limit
  refine ⟨hle, fun hlt => ?_⟩
  cases hend : (m.run limit).1 with
  | halted => exact .inl rfl
  | faulted fault => exact .inr ⟨fault, rfl⟩
  | stopped =>
    have hall : m.performedWithin limit = limit := performedWithin_of_stopped hend
    omega

/-- A program that skips an unknown code, reads twice, and jumps to before its beginning.  Its first
execution ends when the input fails, and a second one takes it up there. -/
theorem onward_halts_before_start :
    let error : IoError := ⟨.other, "boom"⟩
    let program := Program.ofList [.ofOpcode .jumpIfZero 2, ⟨9, 0⟩, .ofOpcode .readByte 2,
      .ofOpcode .movePointer 3, .ofOpcode .jumpIfZero (-7), .ofOpcode .addValue 1]
    let config : Config := { tapeLength := 1 }
    let input : ScriptedInput := ⟨[.byte 5, .byteFailure error, .byte 6, .byte 7]⟩
    let requests : List Request := [.load program, .execute 9]
    let m := (Machine.new config input ByteBuffer.empty).served requests
    m.program.Onward ∧ m.program.length < 2 ^ 63 ∧ m.program.length - m.programCounter.toNat = 4 ∧
      m.performedWithin 5 = 3 ∧ m.performedWithin 5 ≤ 4 ∧ (m.run 5).1 = .halted ∧
      (m.run 5).2.programCounter.toNat = 2 ^ 64 - 3 ∧
      ((m.run 5).1 = .halted ∨ ∃ fault, (m.run 5).1 = .faulted fault) := by
  intro error program config input requests m
  have hprogram : m.program = program := rfl
  have honward : m.program.Onward := by
    rw [hprogram]
    decide
  have hlen : m.program.length < 2 ^ 63 := by decide
  obtain ⟨hle, hends⟩ := onward_halts config input ByteBuffer.empty requests honward hlen 5
  have hleft : m.program.length - m.programCounter.toNat = 4 := by decide
  have hperformed : m.performedWithin 5 = 3 := by decide +kernel
  have hfour : m.performedWithin 5 ≤ 4 := Nat.le_trans hle (Nat.le_of_eq hleft)
  have hhalted : (m.run 5).1 = .halted := by decide +kernel
  have houtside : (m.run 5).2.programCounter.toNat = 2 ^ 64 - 3 := by decide +kernel
  exact ⟨honward, hlen, hleft, hperformed, hfour, hhalted, houtside, hends (by decide)⟩

end Machine

end TapeMachine
