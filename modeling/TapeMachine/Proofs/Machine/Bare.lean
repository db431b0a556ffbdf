import TapeMachine.Device.Scripted
import TapeMachine.Proofs.Machine.Sessions

/-!
# TapeMachine.Proofs.Machine.Bare — a machine without scratch memory

A machine puts its batches together in scratch memory, which it keeps from one instruction to the
next and replaces when it is too small.  A `Bare` machine has no such memory: an instruction that
writes hands over a list of equal bytes.  Forgetting the scratch memory of a machine gives a bare
machine that does the same, instruction by instruction (`bare_perform`); so whatever batches came
before, the output gets the same batches in the same order (`scratch_invisible`).
-/

namespace TapeMachine

/-- A machine without scratch memory. -/
structure Bare (ι ω : Type) where
  config : Config
  program : Program
  programCounter : UInt64
  tape : Tape
  cursor : UInt64
  input : ι
  output : ω

namespace Bare

variable {ι ω : Type}

/-- A machine with nothing loaded. -/
def new (config : Config) (input : ι) (output : ω) : Bare ι ω :=
  ⟨config, .empty, 0, .empty, 0, input, output⟩

/-- Takes a program and starts over with zeros. -/
def load (b : Bare ι ω) (program : Program) : Bare ι ω :=
  { b with
    program
    programCounter := 0
    tape := .zeros b.config.tapeLength b.config.maxGrowth
    cursor := 0 }

def fetch (b : Bare ι ω) : Option Instruction := b.program.get? b.programCounter.toNat

def current (b : Bare ι ω) : Int32 := (b.tape.get? b.cursor.toNat).getD 0

/-- Moves the program counter by a distance. -/
def skip (b : Bare ι ω) (distance : UInt64) : Bare ι ω :=
  { b with programCounter := b.programCounter + distance }

def store (b : Bare ι ω) (value : Int32) : Bare ι ω :=
  { b with tape := b.tape.write b.cursor.toNat value }

def storeLast (b : Bare ι ω) : Option Int32 → Bare ι ω
  | none => b
  | some value => b.store value

/-- Moves the cursor, and the tape grows to it. -/
def moveTo (b : Bare ι ω) (target : UInt64) : Bare ι ω :=
  { b with cursor := target, tape := b.tape.growTo target.toNat }

/-- On to the next instruction after a success of a device, a fault after a failure. -/
def settle (result : Except IoError Unit) (b : Bare ι ω) : Except Fault Unit × Bare ι ω :=
  match result with
  | .ok () => (.ok (), b.skip 1)
  | .error error => (.error (.io error), b)

/-- The batch that an instruction hands over, if it writes: the current value modulo 256, as often
as the argument says.  With a count that is not positive it hands nothing over. -/
def batch? (b : Bare ι ω) (instruction : Instruction) : Option (List UInt8) :=
  if instruction.opcode? = some .writeByte ∧ 0 < instruction.argument.toInt then
    some (List.replicate instruction.argument.toInt.toNat (UInt8.ofInt b.current.toInt))
  else none

variable [Input ι] [Output ω]

/-- Carries out an instruction. -/
def perform (b : Bare ι ω) (instruction : Instruction) : Except Fault Unit × Bare ι ω :=
  let argument := instruction.argument
  match instruction.opcode? with
  | none => (.error (.invalidCommand instruction.code b.programCounter), b)
  | some .addValue => (.ok (), (b.store (b.current + argument)).skip 1)
  | some .movePointer =>
    let target := b.cursor.toInt64 + argument.toInt64
    if target < 0 then (.error (.memoryOutOfBounds b.cursor argument), b)
    else (.ok (), (b.moveTo target.toUInt64).skip 1)
  | some .jumpIfZero => (.ok (), b.skip (if b.current = 0 then argument.toInt64.toUInt64 else 1))
  | some .jumpIfNonzero =>
    (.ok (), b.skip (if b.current ≠ 0 then argument.toInt64.toUInt64 else 1))
  | some .readByte =>
    let after := Machine.readings b.config.eof argument.toInt.toNat none b.input
    settle after.result { b.storeLast after.last with input := after.input }
  | some .writeByte =>
    match b.batch? instruction with
    | none => (.ok (), b.skip 1)
    | some batch =>
      let written := Output.write b.output batch
      settle written.1 { b with output := written.2 }

/-- Runs the machine for at most `limit` fetches: how the run ends, the batches that the
instructions hand over, one after the other, and the machine after it. -/
def run : (limit : Nat) → Bare ι ω → Machine.Outcome × List (List UInt8) × Bare ι ω
  | 0, b => (.stopped, [], b)
  | limit + 1, b =>
    match b.fetch with
    | none => (.halted, [], b)
    | some instruction =>
      match b.perform instruction with
      | (.ok (), after) =>
        let (outcome, batches, last) := run limit after
        (outcome, (b.batch? instruction).toList ++ batches, last)
      | (.error fault, after) => (.faulted fault, (b.batch? instruction).toList, after)

/-- How a request ends, the batches handed over meanwhile, and the machine after it. -/
def serve (b : Bare ι ω) : Machine.Request → Machine.Outcome × List (List UInt8) × Bare ι ω
  | .load program => (.halted, [], b.load program)
  | .loadListing text =>
    match Program.ofListing text with
    | .ok program => (.halted, [], b.load program)
    | .error fault => (.faulted fault, [], b)
  | .execute limit => b.run limit

/-- How each request of a sequence ends, with the batches handed over meanwhile, and the machine
after the last one. -/
def served (b : Bare ι ω) :
    List Machine.Request → List (Machine.Outcome × List (List UInt8)) × Bare ι ω
  | [] => ([], b)
  | request :: requests =>
    let (outcome, batches, after) := b.serve request
    let (rest, last) := after.served requests
    ((outcome, batches) :: rest, last)

end Bare

/-- The batch of a call to an output. -/
def Call.batch? : Call → Option (List UInt8)
  | write batch _ => some batch
  | atEnd _ | next _ => none

namespace Machine

variable {ι ω : Type}

/-- The machine without its scratch memory, and without its journal. -/
def bare (machine : Machine ι ω) : Bare ι ω :=
  ⟨machine.config, machine.program, machine.programCounter, machine.tape, machine.cursor,
    machine.input, machine.output⟩

/-! ### The parts of an instruction -/

/-- The low byte of a word is its value modulo 256. -/
theorem low_byte (value : Int32) : value.toUInt32.toUInt8 = UInt8.ofInt value.toInt := by
  have hsign := BitVec.toInt_eq_toNat_cond value.toBitVec
  have hlt := value.toBitVec.isLt
  have hword : value.toUInt32.toNat = value.toBitVec.toNat := rfl
  have hint : value.toInt = value.toBitVec.toInt := rfl
  apply UInt8.toNat_inj.mp
  rw [UInt32.toNat_toUInt8, hword, hint, UInt8.ofInt, UInt8.toNat_ofNat']
  split at hsign <;> omega

theorem bare_store (machine : Machine ι ω) (value : Int32) :
    (machine.store value).bare = machine.bare.store value := by
  rw [store_eq]
  rfl

theorem bare_storeLast (machine : Machine ι ω) (last : Option Int32) (input : ι) :
    ({ machine.storeLast last with input } : Machine ι ω).bare =
      { machine.bare.storeLast last with input } := by
  cases last with
  | none => rfl
  | some value =>
    show { (machine.store value).bare with input } = _
    rw [bare_store]
    rfl

theorem bare_settle (done : Except IoError Unit × Machine ι ω) :
    ((settle done).1, (settle done).2.bare) = Bare.settle done.1 done.2.bare := by
  obtain ⟨error | _, machine⟩ := done <;> rfl

theorem bare_movePointer (machine : Machine ι ω) (amount : Int32) :
    ((machine.movePointer amount).1, (machine.movePointer amount).2.bare) =
      let target := machine.cursor.toInt64 + amount.toInt64
      if target < 0 then (.error (.memoryOutOfBounds machine.cursor amount), machine.bare)
      else (.ok (), (machine.bare.moveTo target.toUInt64).skip 1) := by
  by_cases h : machine.cursor.toInt64 + amount.toInt64 < 0
  · rw [movePointer_below machine h]
    exact (if_pos h).symm
  · rw [movePointer_within machine h, cover_eq]
    exact (if_neg h).symm

theorem bare_jump (machine : Machine ι ω) (distance : Int32) (taken : Prop) [Decidable taken] :
    (machine.jump distance (decide taken)).bare =
      machine.bare.skip (if taken then distance.toInt64.toUInt64 else 1) := by
  by_cases h : taken
  · rw [decide_eq_true h, if_pos h]
    rfl
  · rw [decide_eq_false h, if_neg h]
    rfl

theorem batch?_bare (machine : Machine ι ω) {instruction : Instruction}
    (hop : instruction.opcode? = some .writeByte) (hpos : 0 < instruction.argument.toInt) :
    machine.bare.batch? instruction = some (machine.batch instruction) := by
  unfold Bare.batch? batch
  rw [if_pos ⟨hop, hpos⟩, low_byte]
  rfl

/-! ### Instructions and runs -/

variable [Input ι] [Output ω]

/-- An instruction does the same without scratch memory. -/
theorem bare_perform (machine : Machine ι ω) (instruction : Instruction) :
    ((machine.perform instruction).1, (machine.perform instruction).2.bare) =
      machine.bare.perform instruction := by
  unfold Bare.perform
  cases hop : instruction.opcode? with
  | none =>
    rw [perform_unknown machine hop]
    rfl
  | some opcode =>
    cases opcode with
    | addValue =>
      rw [perform_addValue machine hop]
      show (Except.ok (), (machine.store _).bare.skip 1) = _
      rw [bare_store]
      rfl
    | movePointer =>
      rw [perform_movePointer machine hop]
      exact bare_movePointer machine _
    | readByte =>
      rw [perform_readByte machine hop, readBytes_eq, bare_settle]
      dsimp only
      rw [bare_storeLast]
      rfl
    | writeByte =>
      by_cases hpos : 0 < instruction.argument.toInt
      · obtain ⟨scratch, hperform⟩ := perform_batch machine hop hpos
        rw [hperform, bare_settle, batch?_bare machine hop hpos]
        rfl
      · rw [perform_writeByte machine hop, if_pos (by omega), Bare.batch?,
          if_neg (fun h => hpos h.2)]
        rfl
    | jumpIfZero =>
      rw [perform_jumpIfZero machine hop]
      exact congrArg (Except.ok (), ·) (bare_jump machine _ _)
    | jumpIfNonzero =>
      rw [perform_jumpIfNonzero machine hop]
      exact congrArg (Except.ok (), ·) (bare_jump machine _ _)

/-- The batches among the calls of an instruction are the one that it is to hand over. -/
theorem batches_calls (machine : Machine ι ω) (instruction : Instruction) :
    (machine.calls instruction).filterMap Call.batch? =
      (machine.bare.batch? instruction).toList := by
  by_cases h : instruction.opcode? = some .writeByte ∧ 0 < instruction.argument.toInt
  · rw [calls_writeByte machine h.1 h.2, batch?_bare machine h.1 h.2]
    rfl
  · rw [Bare.batch?, if_neg h, Option.toList_none, List.filterMap_eq_nil_iff]
    intro call hcall
    cases call with
    | atEnd answer => rfl
    | next answer => rfl
    | write batch answer =>
      have hsilent : Call.write batch answer ∉ machine.calls instruction :=
        calls_silent machine (fun hop => Int.not_lt.mp fun hpos => h ⟨hop, hpos⟩) batch answer
      exact absurd hcall hsilent

theorem bare_run (machine : Machine ι ω) (limit : Nat) :
    machine.bare.run limit = ((machine.run limit).1,
      (machine.callsWithin limit).filterMap Call.batch?, (machine.run limit).2.bare) := by
  induction limit generalizing machine with
  | zero => rfl
  | succ limit ih =>
    have hfetch : machine.bare.fetch = machine.fetch := rfl
    rw [Bare.run, hfetch]
    cases hf : machine.fetch with
    | none =>
      rw [run_of_fetch_none hf, callsWithin, hf]
      rfl
    | some instruction =>
      have hbatches := batches_calls machine instruction
      have hperform := bare_perform machine instruction
      dsimp only
      rcases hp : machine.perform instruction with ⟨fault | _, after⟩
      · rw [hp] at hperform
        rw [run_of_error hf hp, callsWithin_of_error hf hp, hbatches, ← hperform]
      · rw [hp] at hperform
        rw [run_of_ok hf hp, callsWithin_of_ok hf hp, List.filterMap_append, hbatches, ← hperform]
        dsimp only
        rw [ih after]

theorem bare_serve (machine : Machine ι ω) (request : Request) :
    machine.bare.serve request = ((machine.serve request).1,
      (machine.serve request).2.1.filterMap Call.batch?, (machine.serve request).2.2.bare) := by
  cases request with
  | load program => rfl
  | execute limit => exact bare_run machine limit
  | loadListing text =>
    cases htext : Program.ofListing text with
    | ok program =>
      rw [serve_listing_ok machine htext, Bare.serve, htext]
      rfl
    | error fault =>
      rw [serve_listing_error machine htext, Bare.serve, htext]
      rfl

/-- What can be seen of an answer at the output: how the request ended, and the batches handed over
meanwhile. -/
def Answer.written (answer : Answer) : Outcome × List (List UInt8) :=
  (answer.outcome, answer.calls.filterMap Call.batch?)

theorem bare_served (machine : Machine ι ω) (requests : List Request) :
    machine.bare.served requests =
      ((answers requests machine).map (fun answered => answered.2.written),
        (machine.served requests).bare) := by
  induction requests generalizing machine with
  | nil => rfl
  | cons request requests ih =>
    rw [Bare.served, bare_serve]
    dsimp only
    rw [ih]
    rfl

/-! ### Refused batches -/

/-- A failed call of an instruction is a fault, and nothing is left of the instruction. -/
theorem refused_of_mem_calls {machine : Machine ι ω} {instruction : Instruction}
    {batch : List UInt8} {error : IoError}
    (h : Call.write batch (.error error) ∈ machine.calls instruction) :
    machine.bare.batch? instruction = some batch ∧ ∃ after,
      machine.perform instruction = (.error (.io error), after) ∧
      Output.write machine.output batch = (.error error, after.output) ∧
      after.bare = { machine.bare with output := after.output } := by
  by_cases hwrite : instruction.opcode? = some .writeByte → instruction.argument.toInt ≤ 0
  · exact absurd h (calls_silent machine hwrite batch _)
  · obtain ⟨hop, hpos⟩ := Classical.not_imp.mp hwrite
    obtain ⟨scratch, hperform⟩ := perform_batch machine hop (Int.not_le.mp hpos)
    rw [calls_writeByte machine hop (Int.not_le.mp hpos), List.mem_singleton] at h
    obtain ⟨rfl, hanswer⟩ := Call.write.inj h
    rw [← hanswer] at hperform
    exact ⟨batch?_bare machine hop (Int.not_le.mp hpos), _, hperform, Prod.ext hanswer.symm rfl,
      rfl⟩

/-- A run in which a call to the output fails ends at the instruction that made the call. -/
theorem refused_of_mem_callsWithin {machine : Machine ι ω} {limit : Nat} {batch : List UInt8}
    {error : IoError} (h : Call.write batch (.error error) ∈ machine.callsWithin limit) :
    ∃ earlier before instruction after, earlier < limit ∧
      machine.run earlier = (.stopped, before) ∧ before.fetch = some instruction ∧
      before.bare.batch? instruction = some batch ∧
      Output.write before.output batch = (.error error, after.output) ∧
      machine.run limit = (.faulted (.io error), after) ∧
      after.bare = { before.bare with output := after.output } := by
  induction limit generalizing machine with
  | zero => cases h
  | succ limit ih =>
    cases hf : machine.fetch with
    | none =>
      rw [callsWithin, hf] at h
      cases h
    | some instruction =>
      rcases hp : machine.perform instruction with ⟨fault | _, next⟩
      · rw [callsWithin_of_error hf hp] at h
        obtain ⟨hbatch, after, hperform, hwrite, hafter⟩ := refused_of_mem_calls h
        exact ⟨0, machine, instruction, after, Nat.succ_pos limit, rfl, hf, hbatch, hwrite,
          run_of_error hf hperform limit, hafter⟩
      · rw [callsWithin_of_ok hf hp, List.mem_append] at h
        -- an instruction that went well has made no call that failed
        rcases h with h | h
        · obtain ⟨-, after, hperform, -⟩ := refused_of_mem_calls h
          rw [hp] at hperform
          cases hperform
        · obtain ⟨earlier, before, last, after, hlt, hrun, hfetch, hbatch, hwrite, hfault,
            hafter⟩ := ih h
          exact ⟨earlier + 1, before, last, after, Nat.succ_lt_succ hlt,
            (run_of_ok hf hp earlier).trans hrun, hfetch, hbatch, hwrite,
            (run_of_ok hf hp limit).trans hfault, hafter⟩

/-- Whatever a new machine is asked to do, with scratch memory of whatever size, it does as a bare
machine does: each request ends in the same way, with the same batches handed over one after the
other, and leaves the same tape and registers.  When the output refuses a batch, the run ends there
with the error of the output, and nothing but the output is changed by the instruction. -/
theorem scratch_invisible (config : Config) (input : ι) (output : ω) (requests : List Request) :
    let machine := Machine.new config input output
    let bare := (Bare.new config input output).served requests
    (answers requests machine).map (fun answered => answered.2.written) = bare.1 ∧
      (machine.served requests).bare = bare.2 ∧
      ∀ limit batch error,
        Call.write batch (.error error) ∈ (machine.served requests).callsWithin limit →
        ∃ earlier before instruction after, earlier < limit ∧
          (machine.served requests).run earlier = (.stopped, before) ∧
          before.fetch = some instruction ∧ before.bare.batch? instruction = some batch ∧
          Output.write before.output batch = (.error error, after.output) ∧
          (machine.served requests).run limit = (.faulted (.io error), after) ∧
          after.bare = { before.bare with output := after.output } := by
  intro machine bare
  have hserved : bare = _ := bare_served machine requests
  rw [hserved]
  exact ⟨rfl, rfl, fun limit batch error h => refused_of_mem_callsWithin h⟩

/-- Batches of three and of two bytes, with no scratch memory to begin with; the second is of a
negative value, one of no byte is never handed over, and a third is refused. -/
theorem scratch_invisible_refused :
    let error : IoError := ⟨.other, "closed"⟩
    let config : Config := { tapeLength := 1, scratchLength := 0 }
    let output : BatchRecorder := ⟨[none, none, some error], []⟩
    let requests : List Request := [.load (.ofList [.ofOpcode .addValue 97,
      .ofOpcode .writeByte 3, .ofOpcode .addValue (-98), .ofOpcode .writeByte 2,
      .ofOpcode .writeByte 0, .ofOpcode .writeByte 1]), .execute 5]
    let machine := Machine.new config (ByteBlock.ofList []) output
    let bare := (Bare.new config (ByteBlock.ofList []) output).served requests
    bare.1 = [(.halted, []), (.stopped, [[97, 97, 97], [255, 255]])] ∧
      (answers requests machine).map (fun answered => answered.2.written) = bare.1 ∧
      Call.write [255] (.error error) ∈ (machine.served requests).callsWithin 1 ∧
      ∃ earlier before after, earlier < 1 ∧
        (machine.served requests).run earlier = (.stopped, before) ∧
        (machine.served requests).run 1 = (.faulted (.io error), after) ∧
        after.bare = { before.bare with output := after.output } := by
  intro error config output requests machine bare
  let writing : Instruction := .ofOpcode .writeByte 1
  have hfetch : (machine.served requests).fetch = some writing := by decide
  have hoffer : (machine.served requests).batch writing = [255] := by decide
  have houtput : (machine.served requests).output =
      ⟨[some error], [[255, 255], [97, 97, 97]]⟩ := by decide
  have hop : writing.opcode? = some .writeByte := by decide
  have hcalls := calls_writeByte (machine.served requests) hop (by decide)
  have hmem : Call.write [255] (.error error) ∈ (machine.served requests).callsWithin 1 := by
    rw [callsWithin, hfetch]
    refine List.mem_append_left _ ?_
    rw [hcalls, hoffer, houtput]
    exact List.mem_singleton.mpr rfl
  obtain ⟨hwritten, -, hrefused⟩ :=
    scratch_invisible config (ByteBlock.ofList []) output requests
  obtain ⟨earlier, before, instruction, after, hlt, hrun, -, -, -, hfault, hafter⟩ :=
    hrefused 1 [255] error hmem
  exact ⟨by decide, hwritten, hmem, earlier, before, after, hlt, hrun, hfault, hafter⟩

end Machine

end TapeMachine
