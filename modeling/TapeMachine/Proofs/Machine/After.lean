import TapeMachine.Proofs.Machine.Effects

/-!
# TapeMachine.Proofs.Machine.After — the states of a machine after a load

`after n` is the machine when `n` instructions have been tried, each from where the one before it
left the machine; one that faults is tried again.  Every state in which a run stops is one of these
(`run_eq_after`), also when the run is taken up again after a fault.  In all of them the cursor is
on the tape, which never gets shorter.
-/

namespace TapeMachine

/-- Whether an instruction moves the program counter by its argument when its test says so. -/
def Instruction.Jumps (instruction : Instruction) : Prop :=
  instruction.opcode? = some .jumpIfZero ∨ instruction.opcode? = some .jumpIfNonzero

namespace Machine

variable {ι ω : Type}

section Runs

variable [Input ι] [Output ω]

/-- Tries the instruction at the program counter, if there is one. -/
def tick (machine : Machine ι ω) : Machine ι ω :=
  match machine.fetch with
  | none => machine
  | some instruction => (machine.perform instruction).2

/-- The machine when a number of instructions have been tried. -/
def after (machine : Machine ι ω) : Nat → Machine ι ω
  | 0 => machine
  | count + 1 => (machine.after count).tick

theorem after_tick (machine : Machine ι ω) (count : Nat) :
    machine.tick.after count = machine.after (count + 1) := by
  induction count with
  | zero => rfl
  | succ count ih =>
    show (machine.tick.after count).tick = _
    rw [ih]
    rfl

theorem tick_of_fetch {machine : Machine ι ω} {instruction : Instruction}
    (h : machine.fetch = some instruction) : machine.tick = (machine.perform instruction).2 := by
  unfold tick
  rw [h]

omit [Input ι] [Output ω] in
/-- An instruction is fetched from a place of the program. -/
theorem lt_length_of_fetch {machine : Machine ι ω} {instruction : Instruction}
    (h : machine.fetch = some instruction) :
    machine.programCounter.toNat < machine.program.length :=
  (Array.getElem?_eq_some_iff.mp h).1

theorem run_of_fetch_none {machine : Machine ι ω} (h : machine.fetch = none) (limit : Nat) :
    machine.run (limit + 1) = (.halted, machine) := by
  rw [run, h]

theorem run_of_ok {machine next : Machine ι ω} {instruction : Instruction}
    (hf : machine.fetch = some instruction) (h : machine.perform instruction = (.ok (), next))
    (limit : Nat) : machine.run (limit + 1) = next.run limit := by
  rw [run, hf]
  dsimp only
  rw [h]

theorem run_of_error {machine next : Machine ι ω} {instruction : Instruction} {fault : Fault}
    (hf : machine.fetch = some instruction) (h : machine.perform instruction = (.error fault, next))
    (limit : Nat) : machine.run (limit + 1) = (.faulted fault, next) := by
  rw [run, hf]
  dsimp only
  rw [h]

/-- A run leaves the machine in one of the states after it. -/
theorem run_eq_after (machine : Machine ι ω) (limit : Nat) :
    ∃ count, (machine.run limit).2 = machine.after count := by
  induction limit generalizing machine with
  | zero => exact ⟨0, rfl⟩
  | succ limit ih =>
    cases hf : machine.fetch with
    | none =>
      rw [run_of_fetch_none hf]
      exact ⟨0, rfl⟩
    | some instruction =>
      have htick := tick_of_fetch hf
      rcases hp : machine.perform instruction with ⟨fault | _, next⟩
      · rw [hp] at htick
        rw [run_of_error hf hp]
        exact ⟨1, htick.symm⟩
      · rw [hp] at htick
        rw [run_of_ok hf hp]
        obtain ⟨count, hcount⟩ := ih next
        refine ⟨count + 1, ?_⟩
        rw [← after_tick, htick]
        exact hcount

/-- A run that was stopped is taken up where it was stopped. -/
theorem run_add {machine machine' : Machine ι ω} {limit : Nat}
    (h : machine.run limit = (.stopped, machine')) (more : Nat) :
    machine.run (limit + more) = machine'.run more := by
  induction limit generalizing machine with
  | zero =>
    cases h
    rw [Nat.zero_add]
  | succ limit ih =>
    rw [Nat.succ_add]
    cases hf : machine.fetch with
    | none =>
      rw [run_of_fetch_none hf] at h
      cases h
    | some instruction =>
      rcases hp : machine.perform instruction with ⟨fault | _, next⟩
      · rw [run_of_error hf hp] at h
        cases h
      · rw [run_of_ok hf hp] at h ⊢
        exact ih h

/-- A run that came to its end is the same with more fetches allowed. -/
theorem run_of_ended {machine : Machine ι ω} {limit : Nat}
    (h : (machine.run limit).1 ≠ .stopped) (more : Nat) :
    machine.run (limit + more) = machine.run limit := by
  induction limit generalizing machine with
  | zero => exact absurd rfl h
  | succ limit ih =>
    rw [Nat.succ_add]
    cases hf : machine.fetch with
    | none => rw [run_of_fetch_none hf, run_of_fetch_none hf]
    | some instruction =>
      rcases hp : machine.perform instruction with ⟨fault | _, next⟩
      · rw [run_of_error hf hp, run_of_error hf hp]
      · rw [run_of_ok hf hp] at h
        rw [run_of_ok hf hp, run_of_ok hf hp]
        exact ih h

/-- Machines that fetch the same and stay related by every instruction, which has the same result on
both, end every run in the same way and related. -/
theorem run_related {ι' ω' : Type} [Input ι'] [Output ω']
    {Related : Machine ι ω → Machine ι' ω' → Prop}
    (hfetch : ∀ {m m'}, Related m m' → m.fetch = m'.fetch)
    (hperform : ∀ {m m' instruction}, Related m m' → m.fetch = some instruction →
      (m.perform instruction).1 = (m'.perform instruction).1 ∧
        Related (m.perform instruction).2 (m'.perform instruction).2)
    {m : Machine ι ω} {m' : Machine ι' ω'} (h : Related m m') (limit : Nat) :
    (m.run limit).1 = (m'.run limit).1 ∧ Related (m.run limit).2 (m'.run limit).2 := by
  induction limit generalizing m m' with
  | zero => exact ⟨rfl, h⟩
  | succ limit ih =>
    cases hf : m.fetch with
    | none =>
      rw [run_of_fetch_none hf, run_of_fetch_none ((hfetch h).symm.trans hf)]
      exact ⟨rfl, h⟩
    | some instruction =>
      have hf' : m'.fetch = some instruction := (hfetch h).symm.trans hf
      obtain ⟨hresult, hafter⟩ := hperform h hf
      rcases hp : m.perform instruction with ⟨result, next⟩
      rcases hp' : m'.perform instruction with ⟨result', next'⟩
      rw [hp, hp'] at hresult hafter
      obtain rfl : result = result' := hresult
      cases result with
      | ok =>
        rw [run_of_ok hf hp, run_of_ok hf' hp']
        exact ih hafter
      | error fault =>
        rw [run_of_error hf hp, run_of_error hf' hp']
        exact ⟨rfl, hafter⟩

end Runs

/-! ### Halts and faults -/

theorem programCounter_storeLast (machine : Machine ι ω) (last : Option Int32) :
    (machine.storeLast last).programCounter = machine.programCounter := by
  rw [storeLast_eq]

theorem programCounter_of_settle_error {done : Except IoError Unit × Machine ι ω} {fault : Fault}
    (h : (settle done).1 = .error fault) :
    (settle done).2.programCounter = done.2.programCounter := by
  obtain ⟨error | _, machine⟩ := done
  · rfl
  · cases h

/-- An instruction that faults stays where it is. -/
theorem programCounter_of_error [Input ι] [Output ω] {machine : Machine ι ω}
    {instruction : Instruction} {fault : Fault}
    (h : (machine.perform instruction).1 = .error fault) :
    (machine.perform instruction).2.programCounter = machine.programCounter := by
  cases hop : instruction.opcode? with
  | none => rw [perform_unknown machine hop]
  | some opcode =>
    cases opcode with
    | addValue =>
      rw [perform_addValue machine hop] at h
      cases h
    | movePointer =>
      rw [perform_movePointer machine hop] at h ⊢
      by_cases hneg : machine.cursor.toInt64 + instruction.argument.toInt64 < 0
      · rw [movePointer_below machine hneg]
      · rw [movePointer_within machine hneg] at h
        cases h
    | readByte =>
      rw [perform_readByte machine hop, readBytes_eq] at h ⊢
      rw [programCounter_of_settle_error h]
      exact programCounter_storeLast machine _
    | writeByte =>
      rw [perform_writeByte machine hop] at h ⊢
      by_cases hle : instruction.argument.toInt ≤ 0
      · rw [if_pos hle] at h
        cases h
      · rw [if_neg hle, writeBytes_eq] at h ⊢
        exact programCounter_of_settle_error h
    | jumpIfZero =>
      rw [perform_jumpIfZero machine hop] at h
      cases h
    | jumpIfNonzero =>
      rw [perform_jumpIfNonzero machine hop] at h
      cases h

theorem programCounter_of_settle_ok {done : Except IoError Unit × Machine ι ω}
    (h : (settle done).1 = .ok ()) :
    (settle done).2.programCounter = done.2.programCounter + 1 := by
  obtain ⟨error | _, machine⟩ := done
  · cases h
  · rfl

/-- An instruction that does not fault goes on to the next one, if it does not jump. -/
theorem programCounter_of_ok [Input ι] [Output ω] {machine : Machine ι ω}
    {instruction : Instruction} (h : (machine.perform instruction).1 = .ok ()) :
    (machine.perform instruction).2.programCounter = machine.programCounter + 1 ∨
      instruction.Jumps ∧ (machine.perform instruction).2.programCounter =
        machine.programCounter + instruction.argument.toInt64.toUInt64 := by
  cases hop : instruction.opcode? with
  | none =>
    rw [perform_unknown machine hop] at h
    cases h
  | some opcode =>
    cases opcode with
    | addValue =>
      rw [perform_addValue machine hop, addValue, store_eq]
      exact .inl rfl
    | movePointer =>
      rw [perform_movePointer machine hop] at h ⊢
      by_cases hneg : machine.cursor.toInt64 + instruction.argument.toInt64 < 0
      · rw [movePointer_below machine hneg] at h
        cases h
      · rw [movePointer_within machine hneg, cover_eq]
        exact .inl rfl
    | readByte =>
      rw [perform_readByte machine hop, readBytes_eq] at h ⊢
      rw [programCounter_of_settle_ok h]
      exact .inl (congrArg (· + 1) (programCounter_storeLast machine _))
    | writeByte =>
      rw [perform_writeByte machine hop] at h ⊢
      by_cases hle : instruction.argument.toInt ≤ 0
      · rw [if_pos hle]
        exact .inl rfl
      · rw [if_neg hle, writeBytes_eq] at h ⊢
        exact .inl (programCounter_of_settle_ok h)
    | jumpIfZero =>
      rw [perform_jumpIfZero machine hop]
      by_cases hzero : machine.current = 0
      · exact .inr ⟨.inl hop, by simp [jump, hzero]⟩
      · exact .inl (by simp [jump, advance, hzero])
    | jumpIfNonzero =>
      rw [perform_jumpIfNonzero machine hop]
      by_cases hzero : machine.current = 0
      · exact .inl (by simp [jump, advance, hzero])
      · exact .inr ⟨.inr hop, by simp [jump, hzero]⟩

/-! ### What every instruction keeps -/

/-- Whether the tape reaches to the cursor. -/
def Covered (machine : Machine ι ω) : Prop := machine.cursor.toNat < machine.tape.length

/-- What an instruction leaves as it was: the program, the settings, and every cell but the one that
was under the cursor.  The tape grows as far as the cursor that it leaves behind asks for. -/
structure Keeps (m m' : Machine ι ω) : Prop where
  config : m'.config = m.config
  program : m'.program = m.program
  maxGrowth : m'.tape.maxGrowth = m.tape.maxGrowth
  length : m'.tape.length = (m.tape.growTo m'.cursor.toNat).length
  cell : ∀ index, index ≠ m.cursor.toNat → m'.cell index = m.cell index

namespace Keeps

variable {m m' : Machine ι ω}

theorem covered (h : Keeps m m') : Covered m' := by
  unfold Covered
  rw [h.length]
  exact Tape.lt_length_growTo _ _

theorem length_le (h : Keeps m m') : m.tape.length ≤ m'.tape.length := by
  rw [h.length]
  exact m.tape.length_le_growTo _

/-- A machine with the same tape and cursor. -/
theorem of_same (h : Covered m) (hc : m'.config = m.config) (hp : m'.program = m.program)
    (hcur : m'.cursor = m.cursor) (htape : m'.tape = m.tape) : Keeps m m' := by
  refine ⟨hc, hp, by rw [htape], ?_, fun index _ => ?_⟩
  · rw [htape, hcur, Tape.growTo_of_lt h]
  · rw [Machine.cell, htape]
    rfl

theorem storeLast (h : Covered m) (last : Option Int32) : Keeps m (m.storeLast last) := by
  cases last with
  | none => exact of_same h rfl rfl rfl rfl
  | some value =>
    have hcell : ∀ index, index ≠ m.cursor.toNat → (m.store value).cell index = m.cell index :=
      fun index hne => by rw [cell_store, if_neg hne]
    show Keeps m (m.store value)
    rw [store_eq] at hcell ⊢
    exact ⟨rfl, rfl, rfl, Tape.length_set _ _ _, hcell⟩

theorem settle {done : Except IoError Unit × Machine ι ω} (h : Keeps m done.2) :
    Keeps m (settle done).2 := by
  obtain ⟨error | _, machine⟩ := done
  · exact h
  · exact ⟨h.config, h.program, h.maxGrowth, h.length, h.cell⟩

theorem movePointer (h : Covered m) (amount : Int32) : Keeps m (m.movePointer amount).2 := by
  by_cases hneg : m.cursor.toInt64 + amount.toInt64 < 0
  · rw [movePointer_below m hneg]
    exact of_same h rfl rfl rfl rfl
  · have hcell := cell_cover { m with cursor := (m.cursor.toInt64 + amount.toInt64).toUInt64 }
    rw [movePointer_within m hneg]
    rw [cover_eq] at hcell ⊢
    exact ⟨rfl, rfl, rfl, rfl, fun index _ => hcell index⟩

theorem jump (h : Covered m) (distance : Int32) (taken : Bool) :
    Keeps m (m.jump distance taken) := by
  cases taken <;> exact of_same h rfl rfl rfl rfl

theorem perform [Input ι] [Output ω] (h : Covered m) (instruction : Instruction) :
    Keeps m (m.perform instruction).2 := by
  cases hop : instruction.opcode? with
  | none =>
    rw [perform_unknown m hop]
    exact of_same h rfl rfl rfl rfl
  | some opcode =>
    cases opcode with
    | addValue =>
      have hs := storeLast h (some (m.current + instruction.argument))
      rw [perform_addValue m hop]
      exact ⟨hs.config, hs.program, hs.maxGrowth, hs.length, hs.cell⟩
    | movePointer =>
      rw [perform_movePointer m hop]
      exact movePointer h _
    | readByte =>
      rw [perform_readByte m hop, readBytes_eq]
      have hs := storeLast h
        (readings m.config.eof instruction.argument.toInt.toNat none m.input).last
      exact settle ⟨hs.config, hs.program, hs.maxGrowth, hs.length, hs.cell⟩
    | writeByte =>
      rw [perform_writeByte m hop]
      by_cases hle : instruction.argument.toInt ≤ 0
      · rw [if_pos hle]
        exact of_same h rfl rfl rfl rfl
      · rw [if_neg hle, writeBytes_eq]
        exact settle (of_same h rfl rfl rfl rfl)
    | jumpIfZero =>
      rw [perform_jumpIfZero m hop]
      exact jump h _ _
    | jumpIfNonzero =>
      rw [perform_jumpIfNonzero m hop]
      exact jump h _ _

theorem tick [Input ι] [Output ω] (h : Covered m) : Keeps m m.tick := by
  cases hf : m.fetch with
  | none =>
    unfold Machine.tick
    rw [hf]
    exact of_same h rfl rfl rfl rfl
  | some instruction =>
    rw [tick_of_fetch hf]
    exact perform h instruction

end Keeps

section Runs

variable [Input ι] [Output ω] {machine : Machine ι ω}

/-- What all instructions together keep. -/
theorem kept_after (h : Covered machine) (count : Nat) :
    Covered (machine.after count) ∧ (machine.after count).program = machine.program ∧
      machine.tape.length ≤ (machine.after count).tape.length := by
  induction count with
  | zero => exact ⟨h, rfl, Nat.le_refl _⟩
  | succ count ih =>
    obtain ⟨hc, hp, hle⟩ := ih
    have hk := Keeps.tick hc
    exact ⟨hk.covered, hk.program.trans hp, Nat.le_trans hle hk.length_le⟩

theorem covered_run (h : Covered machine) (limit : Nat) : Covered (machine.run limit).2 := by
  obtain ⟨count, hcount⟩ := machine.run_eq_after limit
  rw [hcount]
  exact (kept_after h count).1

/-- No run changes the program or shortens the tape. -/
theorem kept_run (h : Covered machine) (limit : Nat) :
    (machine.run limit).2.program = machine.program ∧
      machine.tape.length ≤ (machine.run limit).2.tape.length := by
  obtain ⟨count, hcount⟩ := machine.run_eq_after limit
  rw [hcount]
  exact (kept_after h count).2

/-- Longer runs have longer tapes. -/
theorem length_run_mono (h : Covered machine) {earlier limit : Nat} (hle : earlier ≤ limit) :
    (machine.run earlier).2.tape.length ≤ (machine.run limit).2.tape.length := by
  induction limit generalizing machine earlier with
  | zero => exact Nat.le_of_eq (by rw [Nat.le_zero.mp hle])
  | succ limit ih =>
    cases earlier with
    | zero => exact (kept_run h (limit + 1)).2
    | succ earlier =>
      cases hf : machine.fetch with
      | none => exact Nat.le_of_eq (by rw [run_of_fetch_none hf, run_of_fetch_none hf])
      | some instruction =>
        have hk := Keeps.perform h instruction
        rcases hp : machine.perform instruction with ⟨fault | _, next⟩
        · exact Nat.le_of_eq (by rw [run_of_error hf hp, run_of_error hf hp])
        · rw [hp] at hk
          rw [run_of_ok hf hp, run_of_ok hf hp]
          exact ih hk.covered (Nat.le_of_succ_le_succ hle)

/-- An instruction that faults is the next one again. -/
theorem fetch_of_error (h : Covered machine) {instruction : Instruction} {fault : Fault}
    (hfault : (machine.perform instruction).1 = .error fault) :
    (machine.perform instruction).2.fetch = machine.fetch := by
  unfold fetch
  rw [(Keeps.perform h instruction).program, programCounter_of_error hfault]

/-- A run that has halted has left the program. -/
theorem fetch_of_halted {limit : Nat} (h : (machine.run limit).1 = .halted) :
    (machine.run limit).2.fetch = none := by
  induction limit generalizing machine with
  | zero => cases h
  | succ limit ih =>
    cases hf : machine.fetch with
    | none =>
      rw [run_of_fetch_none hf]
      exact hf
    | some instruction =>
      rcases hp : machine.perform instruction with ⟨fault | _, next⟩
      · rw [run_of_error hf hp] at h
        cases h
      · rw [run_of_ok hf hp] at h ⊢
        exact ih h

/-- A run halts at the next fetch exactly when it has left the program. -/
theorem run_halted_iff (h : Covered machine) (limit : Nat) :
    (machine.run (limit + 1)).1 = .halted ↔ (machine.run limit).2.fetch = none := by
  induction limit generalizing machine with
  | zero =>
    rw [run, run]
    cases hf : machine.fetch with
    | none => exact ⟨fun _ => rfl, fun _ => rfl⟩
    | some instruction =>
      dsimp only
      rcases machine.perform instruction with ⟨_ | _, next⟩ <;> exact ⟨nofun, nofun⟩
  | succ limit ih =>
    cases hf : machine.fetch with
    | none =>
      rw [run_of_fetch_none hf, run_of_fetch_none hf]
      exact ⟨fun _ => hf, fun _ => rfl⟩
    | some instruction =>
      have hk := Keeps.perform h instruction
      have hsame := @fetch_of_error _ _ _ _ machine h instruction
      rcases hp : machine.perform instruction with ⟨fault | _, next⟩
      · rw [hp] at hsame
        rw [run_of_error hf hp, run_of_error hf hp]
        refine ⟨nofun, fun hnone => ?_⟩
        rw [hsame rfl, hf] at hnone
        cases hnone
      · rw [hp] at hk
        rw [run_of_ok hf hp, run_of_ok hf hp]
        exact ih hk.covered

end Runs

theorem covered_load (machine : Machine ι ω) (program : Program) :
    Covered (machine.load program) := by
  show 0 < (Tape.zeros machine.config.tapeLength machine.config.maxGrowth).length
  rw [Tape.length_zeros]
  omega

/-- The invariant of every state after a load. -/
theorem after_load [Input ι] [Output ω] (machine : Machine ι ω) (program : Program) (count : Nat) :
    Covered ((machine.load program).after count) ∧
      ((machine.load program).after count).program = program := by
  obtain ⟨hc, hp, -⟩ := kept_after (covered_load machine program) count
  exact ⟨hc, hp⟩

end Machine

end TapeMachine
