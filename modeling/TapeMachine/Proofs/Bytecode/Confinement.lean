import TapeMachine.Proofs.Compilation
import TapeMachine.Proofs.Machine.Faults

/-!
# TapeMachine.Proofs.Bytecode.Confinement — compiled programs stay inside their code

`Confined code` is a property of code at rest: every instruction has a meaning, and every jump leads
to a place of the code or to its end.  Code keeps it when it is put behind other code and when it is
made the body of a loop, so all flat code has it (`confined_compile`).  A machine whose program is
confined never has its program counter elsewhere (`Inside.perform`), and so no compiled program
runs out of its code (`compiled_stays_inside`).
-/

namespace TapeMachine

open Machine

/-! ### Code at rest -/

/-- Whether every instruction of a code has a meaning and no jump, taken or not, leads out of it. -/
def Confined (code : List Instruction) : Prop :=
  ∀ (place : Nat) (instruction : Instruction), code[place]? = some instruction →
    instruction.opcode? ≠ none ∧
      (instruction.Jumps → 0 ≤ place + instruction.argument.toInt ∧
        place + instruction.argument.toInt ≤ code.length)

namespace Confined

variable {front back body : List Instruction}

theorem nil : Confined [] := by
  intro place instruction h
  simp at h

/-- An instruction that does not jump. -/
theorem single {instruction : Instruction} (hknown : instruction.opcode? ≠ none)
    (hstays : ¬ instruction.Jumps) : Confined [instruction] := by
  intro place found h
  obtain ⟨-, rfl⟩ : place = 0 ∧ instruction = found := by simpa [List.getElem?_singleton] using h
  exact ⟨hknown, fun hjumps => absurd hjumps hstays⟩

/-- Distances stay the same when code is put behind other code. -/
theorem append (hfront : Confined front) (hback : Confined back) : Confined (front ++ back) := by
  intro place instruction h
  rw [List.length_append]
  by_cases hlt : place < front.length
  · rw [List.getElem?_append_left hlt] at h
    obtain ⟨hknown, htarget⟩ := hfront place instruction h
    refine ⟨hknown, fun hjumps => ?_⟩
    have := htarget hjumps
    omega
  · rw [List.getElem?_append_right (by omega)] at h
    obtain ⟨hknown, htarget⟩ := hback (place - front.length) instruction h
    refine ⟨hknown, fun hjumps => ?_⟩
    have := htarget hjumps
    omega

/-- An instruction in front of a body that leads behind the one that follows the body, and that one
leads back to the body. -/
theorem loop {first last : Instruction} (hbody : Confined body) (hfirst : first.opcode? ≠ none)
    (hlast : last.opcode? ≠ none) (hover : first.argument.toInt = body.length + 2)
    (hback : last.argument.toInt = -body.length) : Confined (first :: (body ++ [last])) := by
  intro place instruction h
  have hlen : (first :: (body ++ [last])).length = body.length + 2 := by simp
  rw [hlen]
  rcases place with _ | place
  · obtain rfl : first = instruction := by simpa using h
    exact ⟨hfirst, fun _ => by omega⟩
  · rw [List.getElem?_cons_succ] at h
    by_cases hlt : place < body.length
    · rw [List.getElem?_append_left hlt] at h
      obtain ⟨hknown, htarget⟩ := hbody place instruction h
      refine ⟨hknown, fun hjumps => ?_⟩
      have := htarget hjumps
      omega
    · rw [List.getElem?_append_right (by omega)] at h
      obtain ⟨hplace, rfl⟩ : place - body.length = 0 ∧ last = instruction := by
        simpa [List.getElem?_singleton] using h
      exact ⟨hlast, fun _ => by omega⟩

end Confined

theorem not_jumps_ofAction (action : Action) (argument : Int32) :
    ¬ (Instruction.ofOpcode (.ofAction action) argument).Jumps := by
  unfold Instruction.Jumps
  cases action <;> simp [Opcode.ofAction]

mutual

theorem Node.confined_code {node : Node} (h : node.Fits) : Confined node.code := by
  cases node with
  | leaf action argument => exact .single (by simp) (not_jumps_ofAction action argument)
  | loop offset body =>
    obtain ⟨hsize, hfits⟩ := h
    obtain ⟨hover, hback⟩ := Machine.toInt_jumps hsize
    refine .loop (Forest.confined_code hfits) (by simp) (by simp) ?_ ?_
    · rw [Forest.length_code]
      exact hover
    · rw [Forest.length_code]
      exact hback

theorem Forest.confined_code {forest : List Node} (h : Forest.Fits forest) :
    Confined (Forest.code forest) := by
  cases forest with
  | nil => exact .nil
  | cons node rest => exact (Node.confined_code h.1).append (Forest.confined_code h.2)

end

theorem confined_compile {source : List UInt8} {program : Program}
    (h : compile source = .ok program) : Confined program.toList := by
  obtain ⟨forest, code, -, hcode, rfl⟩ := compile_eq_ok h
  obtain ⟨rfl, hfits⟩ := Forest.flatten_code hcode
  exact Forest.confined_code hfits

/-! ### Code that runs -/

namespace Machine

variable {ι ω : Type}

/-- Whether the program is confined and the program counter at one of its places or at its end. -/
structure Inside (m : Machine ι ω) : Prop where
  confined : Confined m.program.toList
  short : m.program.length < 2 ^ 64
  counter : m.programCounter.toNat ≤ m.program.length

namespace Inside

variable {m : Machine ι ω} {instruction : Instruction}

theorem getElem?_of_fetch (hf : m.fetch = some instruction) :
    m.program.toList[m.programCounter.toNat]? = some instruction ∧
      m.programCounter.toNat < m.program.length := by
  have hget : m.program.toList[m.programCounter.toNat]? = some instruction := by
    rw [← hf]
    exact Array.getElem?_toList
  exact ⟨hget, lt_length_of_fetch hf⟩

/-- The word that a jump computes is its target over the integers, a place of the program or its
end. -/
theorem target (h : Inside m) (hf : m.fetch = some instruction) (hjumps : instruction.Jumps) :
    ((m.programCounter + instruction.argument.toInt64.toUInt64).toNat : Int) =
        m.programCounter.toNat + instruction.argument.toInt ∧
      (m.programCounter + instruction.argument.toInt64.toUInt64).toNat ≤ m.program.length := by
  obtain ⟨hget, -⟩ := getElem?_of_fetch hf
  obtain ⟨hlow, hhigh⟩ := (h.confined _ _ hget).2 hjumps
  have hsum := toNat_add_distance m.programCounter instruction.argument
  have hlen : m.program.toList.length = m.program.length := rfl
  have hshort := h.short
  omega

variable [Input ι] [Output ω]

theorem perform (h : Inside m) (hcov : Covered m) (hf : m.fetch = some instruction) :
    Inside (m.perform instruction).2 := by
  have hprogram := (Keeps.perform hcov instruction).program
  have hlt := (getElem?_of_fetch hf).2
  have hshort := h.short
  refine ⟨by rw [hprogram]; exact h.confined, by rw [hprogram]; exact hshort, ?_⟩
  rw [hprogram]
  cases hresult : (m.perform instruction).1 with
  | error fault =>
    rw [programCounter_of_error hresult]
    exact h.counter
  | ok =>
    rcases programCounter_of_ok hresult with hnext | ⟨hjumps, hnext⟩
    · rw [hnext, toNat_add_one (by omega)]
      omega
    · rw [hnext]
      exact (h.target hf hjumps).2

theorem tick (h : Inside m) (hcov : Covered m) : Inside m.tick := by
  cases hf : m.fetch with
  | none =>
    unfold Machine.tick
    rw [hf]
    exact h
  | some instruction =>
    rw [tick_of_fetch hf]
    exact h.perform hcov hf

theorem after (h : Inside m) (hcov : Covered m) (count : Nat) : Inside (m.after count) := by
  induction count with
  | zero => exact h
  | succ count ih => exact ih.tick (kept_after hcov count).1

theorem run (h : Inside m) (hcov : Covered m) (limit : Nat) : Inside (m.run limit).2 := by
  obtain ⟨count, hcount⟩ := m.run_eq_after limit
  rw [hcount]
  exact h.after hcov count

/-- A confined program ends at its end. -/
theorem of_halted (h : Inside m) (hcov : Covered m) {limit : Nat}
    (hhalted : (m.run limit).1 = .halted) :
    (m.run limit).2.programCounter.toNat = (m.run limit).2.program.length := by
  have hnone : (m.run limit).2.fetch = none := fetch_of_halted hhalted
  have hle := (h.run hcov limit).counter
  have hge : (m.run limit).2.program.length ≤ (m.run limit).2.programCounter.toNat :=
    Array.getElem?_eq_none_iff.mp hnone
  omega

/-- A confined program faults by moving the cursor below zero or at a device. -/
theorem of_faulted (h : Inside m) (hcov : Covered m) {limit : Nat} {fault : Fault}
    {m' : Machine ι ω} (hrun : m.run limit = (.faulted fault, m')) :
    ∃ instruction, m'.fetch = some instruction ∧
      ((∃ cursor delta, fault = .memoryOutOfBounds cursor delta) ∧
          instruction.opcode? = some .movePointer ∨
        (∃ error, fault = .io error) ∧
          (instruction.opcode? = some .readByte ∨ instruction.opcode? = some .writeByte)) := by
  obtain ⟨earlier, before, instruction, -, hbefore, hfetch, hperform⟩ := run_faulted hrun
  have hinside := h.run hcov earlier
  have hcovered := covered_run hcov earlier
  rw [hbefore] at hinside hcovered
  have hsame := @fetch_of_error _ _ _ _ before hcovered instruction fault
  rw [hperform] at hsame
  refine ⟨instruction, (hsame rfl).trans hfetch, ?_⟩
  cases faulting_of_perform hperform with
  | unknown hop => exact absurd hop (hinside.confined _ _ (getElem?_of_fetch hfetch).1).1
  | below hop hneg => exact .inl ⟨⟨_, _, rfl⟩, hop⟩
  | reading hop hread => exact .inr ⟨⟨_, rfl⟩, .inl hop⟩
  | writing hop hpos hwrite => exact .inr ⟨⟨_, rfl⟩, .inr hop⟩

end Inside

variable [Input ι] [Output ω]

theorem inside_compiled {source : List UInt8} {program : Program}
    (h : compile source = .ok program) (hlen : source.length < 2 ^ 64) (machine : Machine ι ω)
    (limits : List Nat) :
    let m := (machine.load program).served (limits.map .execute)
    Inside m ∧ Covered m ∧ m.program = program := by
  intro m
  have hstart : Inside (machine.load program) :=
    ⟨confined_compile h, Nat.lt_of_le_of_lt (length_compile_le h) hlen, Nat.zero_le _⟩
  have hexecute : ∀ request ∈ limits.map Request.execute, request.loads = false := by
    simp [Request.loads]
  obtain ⟨count, hcount⟩ := served_eq_after (machine.load program) hexecute
  obtain ⟨hcov, hprogram⟩ := after_load machine program count
  rw [show m = (machine.load program).after count from hcount]
  exact ⟨hstart.after (covered_load machine program) count, hcov, hprogram⟩

/-- A compiled program, executed any number of times by any machine with any devices, also after
faults: at every point of that the program counter is at most the length of the program, a jump
that comes next leads to a place of the program or its end and its word does not wrap around, an
execution that halts does so at the end of the program, and one that faults does so by a move below
zero at a `movePointer` or by a failure of a device at a `readByte` or `writeByte`.  A source text
of `2 ^ 64` bytes does not fit in memory. -/
theorem compiled_stays_inside {source : List UInt8} {program : Program}
    (h : compile source = .ok program) (hlen : source.length < 2 ^ 64) (machine : Machine ι ω)
    (limits : List Nat) :
    let m := (machine.load program).served (limits.map .execute)
    m.program = program ∧ m.programCounter.toNat ≤ program.length ∧
      (∀ instruction, m.fetch = some instruction → instruction.Jumps →
        ((m.programCounter + instruction.argument.toInt64.toUInt64).toNat : Int) =
            m.programCounter.toNat + instruction.argument.toInt ∧
          (m.programCounter + instruction.argument.toInt64.toUInt64).toNat ≤ program.length) ∧
      ∀ limit,
        ((m.run limit).1 = .halted → (m.run limit).2.programCounter.toNat = program.length) ∧
          ∀ fault, (m.run limit).1 = .faulted fault → ∃ instruction,
            (m.run limit).2.fetch = some instruction ∧
              ((∃ cursor delta, fault = .memoryOutOfBounds cursor delta) ∧
                  instruction.opcode? = some .movePointer ∨
                (∃ error, fault = .io error) ∧ (instruction.opcode? = some .readByte ∨
                  instruction.opcode? = some .writeByte)) := by
  intro m
  obtain ⟨hinside, hcov, hprogram⟩ := inside_compiled h hlen machine limits
  have hcounter := hinside.counter
  rw [hprogram] at hcounter
  refine ⟨hprogram, hcounter, fun instruction hf hjumps => ?_, fun limit => ⟨fun hhalted => ?_,
    fun fault hfault => ?_⟩⟩
  · obtain ⟨hsum, hle⟩ := hinside.target hf hjumps
    rw [hprogram] at hle
    exact ⟨hsum, hle⟩
  · rw [hinside.of_halted hcov hhalted, (kept_run hcov limit).1, hprogram]
  · exact hinside.of_faulted hcov (Prod.ext hfault rfl)

/-- The text `+[,<]` reads into cell 0 and moves below it; its one byte is read by the first of two
executions, and the second one starts at the move that faulted. -/
theorem compiled_stays_inside_below_zero :
    let source : List UInt8 := [43, 91, 44, 60, 93]
    let program : Program := .ofList [.ofOpcode .addValue 1, .ofOpcode .jumpIfZero 4,
      .ofOpcode .readByte 1, .ofOpcode .movePointer (-1), .ofOpcode .jumpIfNonzero (-2)]
    let machine : Machine ByteBlock ByteBuffer := .new { tapeLength := 1 } (.ofList [7]) .empty
    let m := (machine.load program).served ([9, 9].map .execute)
    compile source = .ok program ∧ source.length < 2 ^ 64 ∧ m.programCounter = 3 ∧
      m.programCounter.toNat ≤ program.length ∧
      (m.run 1).1 = .faulted (.memoryOutOfBounds 0 (-1)) := by
  intro source program machine m
  have h : compile source = .ok program := by rfl
  have hlen : source.length < 2 ^ 64 := by decide
  have hm := compiled_stays_inside h hlen machine [9, 9]
  exact ⟨h, hlen, by decide, hm.2.1, by decide⟩

end Machine

end TapeMachine
