import TapeMachine.Device.Scripted
import TapeMachine.Proofs.Machine.Sessions

/-!
# TapeMachine.Proofs.Machine.Faults — how an instruction faults, and what it leaves behind

There are four ways to fault, and `Faulting` has one case for each, with the machine that is left.
Three of them leave program, registers and tape as they were.  The fourth is a reading that fails
when one before it, of the same instruction, has stored its value already: then that value stays
(`fault_keeps`), so such an instruction is not undone (`fault_after_reading`).
-/

namespace TapeMachine

namespace Machine

variable {ι ω : Type}

theorem settle_error {done : Except IoError Unit × Machine ι ω} {fault : Fault}
    {m' : Machine ι ω} (h : settle done = (.error fault, m')) :
    ∃ error, fault = .io error ∧ done = (.error error, m') := by
  obtain ⟨error | _, machine⟩ := done
  · cases h
    exact ⟨error, rfl, rfl⟩
  · cases h

/-! ### One instruction -/

variable [Input ι] [Output ω]

/-- The ways in which an instruction faults: the fault, and the machine after it. -/
inductive Faulting (m : Machine ι ω) (instruction : Instruction) : Fault → Machine ι ω → Prop
  | unknown (hop : instruction.opcode? = none) :
      Faulting m instruction (.invalidCommand instruction.code m.programCounter) m
  | below (hop : instruction.opcode? = some .movePointer)
      (hneg : m.cursor.toInt64 + instruction.argument.toInt64 < 0) :
      Faulting m instruction (.memoryOutOfBounds m.cursor instruction.argument) m
  | reading {error : IoError} {last : Option Int32} {input : ι}
      (hop : instruction.opcode? = some .readByte)
      (hread : readings m.config.eof instruction.argument.toInt.toNat none m.input =
        ⟨.error error, last, input⟩) :
      Faulting m instruction (.io error) { m.storeLast last with input }
  | writing {error : IoError} {scratch : Array UInt8} {output : ω}
      (hop : instruction.opcode? = some .writeByte) (hpos : 0 < instruction.argument.toInt)
      (hwrite : Output.write m.output
        (List.replicate instruction.argument.toInt.toNat m.current.toUInt32.toUInt8) =
          (.error error, output)) :
      Faulting m instruction (.io error) { m with scratch, output }

theorem faulting_of_perform {m m' : Machine ι ω} {instruction : Instruction} {fault : Fault}
    (h : m.perform instruction = (.error fault, m')) : Faulting m instruction fault m' := by
  cases hop : instruction.opcode? with
  | none =>
    rw [perform_unknown m hop] at h
    cases h
    exact .unknown hop
  | some opcode =>
    cases opcode with
    | addValue =>
      rw [perform_addValue m hop] at h
      cases h
    | movePointer =>
      rw [perform_movePointer m hop] at h
      by_cases hneg : m.cursor.toInt64 + instruction.argument.toInt64 < 0
      · rw [movePointer_below m hneg] at h
        cases h
        exact .below hop hneg
      · rw [movePointer_within m hneg] at h
        cases h
    | readByte =>
      rw [perform_readByte m hop, readBytes_eq] at h
      obtain ⟨error, rfl, hdone⟩ := settle_error h
      obtain ⟨hresult, rfl⟩ := Prod.mk.inj hdone
      refine .reading hop ?_
      rw [← hresult]
    | writeByte =>
      rw [perform_writeByte m hop] at h
      by_cases hle : instruction.argument.toInt ≤ 0
      · rw [if_pos hle] at h
        cases h
      · rw [if_neg hle, writeBytes_eq] at h
        obtain ⟨error, rfl, hdone⟩ := settle_error h
        obtain ⟨hresult, rfl⟩ := Prod.mk.inj hdone
        exact .writing hop (by omega) (Prod.ext hresult rfl)
    | jumpIfZero =>
      rw [perform_jumpIfZero m hop] at h
      cases h
    | jumpIfNonzero =>
      rw [perform_jumpIfNonzero m hop] at h
      cases h

omit [Output ω] in
/-- A first reading that fails has no value before it. -/
theorem last_of_first {eof : Int32} {count : Nat} (hcount : count ≤ 1) {input input' : ι}
    {error : IoError} {last : Option Int32}
    (h : readings eof count none input = ⟨.error error, last, input'⟩) : last = none := by
  obtain rfl | rfl : count = 0 ∨ count = 1 := by omega
  · cases h
  · rw [readings] at h
    rcases hend : Input.atEnd input with ⟨error | ended, input⟩
    · rw [hend] at h
      cases h
      rfl
    · rw [hend] at h
      cases ended with
      | true => cases h
      | false =>
        dsimp only at h
        rcases hnext : Input.next input with ⟨error | byte, input⟩
        · rw [hnext] at h
          cases h
          rfl
        · rw [hnext] at h
          cases h

/-- A fault leaves program, registers and tape as they were.  Only an instruction that reads more
than once may have changed the current cell, to the last value that it read. -/
theorem Faulting.keeps {m m' : Machine ι ω} {instruction : Instruction} {fault : Fault}
    (h : Faulting m instruction fault m') (hcov : Covered m) :
    m'.program = m.program ∧ m'.programCounter = m.programCounter ∧ m'.cursor = m.cursor ∧
      (m'.tape = m.tape ∨
        instruction.opcode? = some .readByte ∧ 2 ≤ instruction.argument.toInt ∧ ∃ value,
          (readings m.config.eof instruction.argument.toInt.toNat none m.input).last = some value ∧
            m'.tape = m.tape.set m.cursor.toNat value) := by
  cases h with
  | unknown hop => exact ⟨rfl, rfl, rfl, .inl rfl⟩
  | below hop hneg => exact ⟨rfl, rfl, rfl, .inl rfl⟩
  | writing hop hpos hwrite => exact ⟨rfl, rfl, rfl, .inl rfl⟩
  | @reading error last input hop hread =>
    have heq := m.storeLast_eq last
    refine ⟨congrArg (·.program) heq, congrArg (·.programCounter) heq, congrArg (·.cursor) heq, ?_⟩
    cases last with
    | none => exact .inl rfl
    | some value =>
      have htwice : 2 ≤ instruction.argument.toInt := by
        by_contra hlt
        cases last_of_first (by omega) hread
      have htape : (m.store value).tape = m.tape.set m.cursor.toNat value := by
        rw [store_eq]
        show (m.tape.growTo m.cursor.toNat).set m.cursor.toNat value = _
        rw [Tape.growTo_of_lt hcov]
      exact .inr ⟨hop, htwice, value, by rw [hread], htape⟩

/-! ### Runs -/

/-- A run that faults does so at its last instruction. -/
theorem run_faulted {m m' : Machine ι ω} {limit : Nat} {fault : Fault}
    (h : m.run limit = (.faulted fault, m')) :
    ∃ earlier before instruction, earlier < limit ∧ m.run earlier = (.stopped, before) ∧
      before.fetch = some instruction ∧ before.perform instruction = (.error fault, m') := by
  induction limit generalizing m with
  | zero => cases h
  | succ limit ih =>
    cases hf : m.fetch with
    | none =>
      rw [run_of_fetch_none hf] at h
      cases h
    | some instruction =>
      rcases hp : m.perform instruction with ⟨_ | _, next⟩
      · rw [run_of_error hf hp] at h
        cases h
        exact ⟨0, m, instruction, by omega, rfl, hf, hp⟩
      · rw [run_of_ok hf hp] at h
        obtain ⟨earlier, before, last, hlt, hrun, hfetch, hperform⟩ := ih h
        refine ⟨earlier + 1, before, last, by omega, ?_, hfetch, hperform⟩
        exact (run_of_ok hf hp earlier).trans hrun

/-- When a run faults, in whatever state of a session it started, it leaves the program, the
registers and the length of the tape as they were before the instruction that faulted, and so it
does with the cells.  The one exception is an instruction that reads more than once and fails after
its first reading: the current cell keeps the last value that it read. -/
theorem fault_keeps (config : Config) (input : ι) (output : ω) (requests : List Request)
    {limit : Nat} {fault : Fault} {m' : Machine ι ω}
    (h : ((Machine.new config input output).served requests).run limit = (.faulted fault, m')) :
    ∃ earlier before instruction, earlier < limit ∧
      ((Machine.new config input output).served requests).run earlier = (.stopped, before) ∧
      before.fetch = some instruction ∧ before.perform instruction = (.error fault, m') ∧
      m'.program = before.program ∧ m'.programCounter = before.programCounter ∧
      m'.cursor = before.cursor ∧ m'.tape.length = before.tape.length ∧
      (m'.tape = before.tape ∨
        instruction.opcode? = some .readByte ∧ 2 ≤ instruction.argument.toInt ∧ ∃ value,
          (readings before.config.eof instruction.argument.toInt.toNat none before.input).last =
            some value ∧ m'.tape = before.tape.set before.cursor.toNat value) := by
  obtain ⟨earlier, before, instruction, hlt, hrun, hfetch, hperform⟩ := run_faulted h
  have hbefore : before =
      (Machine.new config input output).served (requests ++ [.execute earlier]) := by
    rw [served_append]
    exact congrArg Prod.snd hrun.symm
  have hcov : Covered before := by
    rw [hbefore] at hfetch ⊢
    exact covered_of_fetch hfetch
  obtain ⟨hprogram, hcounter, hcursor, htape⟩ := (faulting_of_perform hperform).keeps hcov
  refine ⟨earlier, before, instruction, hlt, hrun, hfetch, hperform, hprogram, hcounter, hcursor,
    ?_, htape⟩
  rcases htape with htape | ⟨-, -, value, -, htape⟩
  · rw [htape]
  · rw [htape, Tape.length_set]

/-- A refused write: what stands after it is what stood before it. -/
theorem fault_keeps_refused_write :
    let error : IoError := ⟨.other, "closed"⟩
    let config : Config := { tapeLength := 1 }
    let input : ByteBlock := .ofList []
    let output : BatchRecorder := ⟨[none, some error], []⟩
    let requests : List Request := [.load (.ofList [.ofOpcode .addValue 3, .ofOpcode .writeByte 1,
      .ofOpcode .movePointer 2, .ofOpcode .writeByte 2])]
    let m := (Machine.new config input output).served requests
    ∃ m', m.run 9 = (.faulted (.io error), m') ∧ ∃ earlier before instruction, earlier < 9 ∧
      m.run earlier = (.stopped, before) ∧ before.fetch = some instruction ∧
      m'.programCounter = before.programCounter ∧ m'.cursor = before.cursor ∧
      m'.tape.length = before.tape.length := by
  intro error config input output requests m
  have hfault : (m.run 9).1 = .faulted (.io error) := by decide
  obtain ⟨m', hrun⟩ : ∃ m', m.run 9 = (.faulted (.io error), m') := ⟨_, by rw [← hfault]⟩
  have hkeeps := fault_keeps config input output requests hrun
  obtain ⟨earlier, before, instruction, hlt, hbefore, hfetch, -, -, hcounter, hcursor, hlength,
    -⟩ := hkeeps
  exact ⟨m', hrun, earlier, before, instruction, hlt, hbefore, hfetch, hcounter, hcursor, hlength⟩

/-- Two readings of which the second fails: the fault leaves the byte of the first one. -/
theorem fault_after_reading :
    let error : IoError := ⟨.other, "boom"⟩
    let machine : Machine ScriptedInput ByteBuffer :=
      .new { tapeLength := 1 } ⟨[.byte 5, .byteFailure error]⟩ .empty
    let m := machine.served [.load (.ofList [.ofOpcode .readByte 2])]
    (m.run 1).1 = .faulted (.io error) ∧ (m.run 1).2.programCounter = m.programCounter ∧
      m.tape.cells = #[0] ∧ (m.run 1).2.tape.cells = #[5] := by
  decide

end Machine

end TapeMachine
