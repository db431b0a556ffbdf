import TapeMachine.Machine.Run
import TapeMachine.Proofs.Tape.Contents

/-!
# TapeMachine.Proofs.Machine.Effects — what each part of an instruction changes

The memory of a machine is seen through `Machine.cell`, by which a tape of any length is an endless
row of cells.  There is one equation for each operation: `store_eq` and `cell_store` for a store,
`readBytes_eq` for repeated reading, of which only the last value stays, and `writeBytes_eq` for
writing, where the scratch memory plays no part in what is written.
-/

namespace TapeMachine

namespace Machine

variable {ι ω : Type}

/-- The value of a cell.  Cells that the tape does not reach are zero. -/
def cell (machine : Machine ι ω) (index : Nat) : Int32 := (machine.tape.get? index).getD 0

/-- The machine with its program counter moved elsewhere. -/
def goto (machine : Machine ι ω) (counter : UInt64) : Machine ι ω :=
  { machine with programCounter := counter }

theorem current_eq (machine : Machine ι ω) : machine.current = machine.cell machine.cursor.toNat :=
  rfl

theorem cell_load (machine : Machine ι ω) (program : Program) (index : Nat) :
    (machine.load program).cell index = 0 :=
  Tape.valueAt_created (.zeros _ _) index

/-! ### Growing and storing -/

/-- The journal after the tape has grown to the cursor. -/
def growthReported (machine : Machine ι ω) : List Event :=
  (machine.tape.growths machine.cursor.toNat).foldl (fun journal growth => .grew growth :: journal)
    machine.journal

theorem cover_eq (machine : Machine ι ω) :
    machine.cover = { machine with
      tape := machine.tape.growTo machine.cursor.toNat
      journal := machine.growthReported } := by
  unfold cover growthReported
  by_cases h : machine.cursor.toNat < machine.tape.length
  · have hg : machine.tape.growths machine.cursor.toNat = [] := Growth.upTo_of_lt h
    rw [if_pos h, Tape.growTo_of_lt h, hg]
    rfl
  · rw [if_neg h]

theorem store_eq (machine : Machine ι ω) (value : Int32) :
    machine.store value = { machine with
      tape := machine.tape.write machine.cursor.toNat value
      journal := machine.growthReported } := by
  unfold store
  rw [cover_eq]
  rfl

@[simp] theorem cell_cover (machine : Machine ι ω) (index : Nat) :
    machine.cover.cell index = machine.cell index := by
  rw [cover_eq]
  exact machine.tape.valueAt_growTo _ index

@[simp] theorem cell_store (machine : Machine ι ω) (value : Int32) (index : Nat) :
    (machine.store value).cell index =
      if index = machine.cursor.toNat then value else machine.cell index := by
  rw [store_eq]
  exact machine.tape.valueAt_write _ value index

/-- Of two stores under one cursor the later one stays. -/
theorem store_store (machine : Machine ι ω) (value value' : Int32) :
    (machine.store value).store value' = machine.store value' := by
  have hlt : machine.cursor.toNat < (machine.tape.write machine.cursor.toNat value).length := by
    rw [Tape.write, Tape.length_set]
    exact Tape.lt_length_growTo _ _
  have hcover : (machine.store value).cover = machine.store value := by
    rw [store_eq]
    exact if_pos hlt
  show ({ (machine.store value).cover with
    tape := (machine.store value).cover.tape.set _ value' } : Machine ι ω) = _
  rw [hcover, store_eq, store_eq]
  simp only [Tape.write, Tape.set, mk.injEq, Tape.mk.injEq, true_and, and_true]
  exact Array.setIfInBounds_setIfInBounds _

/-! ### Moving the cursor -/

theorem movePointer_below (machine : Machine ι ω) {amount : Int32}
    (h : machine.cursor.toInt64 + amount.toInt64 < 0) :
    machine.movePointer amount = (.error (.memoryOutOfBounds machine.cursor amount), machine) :=
  if_pos h

theorem movePointer_within (machine : Machine ι ω) {amount : Int32}
    (h : ¬ machine.cursor.toInt64 + amount.toInt64 < 0) :
    machine.movePointer amount =
      (.ok (), ({ machine with cursor := (machine.cursor.toInt64 + amount.toInt64).toUInt64 } :
        Machine ι ω).cover.advance) :=
  if_neg h

/-! ### Reading -/

/-- What a number of readings leave: how they ended, the last value that was read, the input. -/
structure Readings (ι : Type) where
  result : Except IoError Unit
  last : Option Int32
  input : ι

/-- Reads a number of times from an input, and forgets all values but the last. -/
def readings [Input ι] (eof : Int32) : Nat → Option Int32 → ι → Readings ι
  | 0, last, input => ⟨.ok (), last, input⟩
  | count + 1, last, input =>
    match Input.atEnd input with
    | (.error error, input) => ⟨.error error, last, input⟩
    | (.ok true, input) => readings eof count (some eof) input
    | (.ok false, input) =>
      match Input.next input with
      | (.error error, input) => ⟨.error error, last, input⟩
      | (.ok byte, input) => readings eof count (some byte.toUInt32.toInt32) input

/-- Stores a value if there is one. -/
def storeLast (machine : Machine ι ω) : Option Int32 → Machine ι ω
  | none => machine
  | some value => machine.store value

theorem storeLast_eq (machine : Machine ι ω) (last : Option Int32) :
    machine.storeLast last = { machine with
      tape := (machine.storeLast last).tape
      journal := (machine.storeLast last).journal } := by
  cases last with
  | none => rfl
  | some value =>
    show machine.store value = { machine with
      tape := (machine.store value).tape
      journal := (machine.store value).journal }
    rw [store_eq]

theorem storeLast_store (machine : Machine ι ω) (last : Option Int32) (value : Int32) :
    (machine.storeLast last).store value = machine.store value := by
  cases last with
  | none => rfl
  | some old => exact store_store machine old value

/-- The same value is stored whatever the input is. -/
theorem store_input (machine : Machine ι ω) (input : ι) (value : Int32) :
    ({ machine with input } : Machine ι ω).store value = { machine.store value with input } := by
  rw [store_eq, store_eq]
  rfl

theorem config_storeLast (machine : Machine ι ω) (last : Option Int32) :
    (machine.storeLast last).config = machine.config := by
  rw [storeLast_eq]

/-- The value of a later reading replaces the one before it. -/
theorem storeLast_input_store (machine : Machine ι ω) (last : Option Int32) (input : ι)
    (value : Int32) :
    ({ machine.storeLast last with input } : Machine ι ω).store value =
      { machine.storeLast (some value) with input } := by
  rw [store_input, storeLast_store]
  rfl

theorem readBytes_storeLast [Input ι] (count : Nat) (machine : Machine ι ω) (last : Option Int32)
    (input : ι) :
    ({ machine.storeLast last with input } : Machine ι ω).readBytes count =
      let after := readings machine.config.eof count last input
      (after.result, { machine.storeLast after.last with input := after.input }) := by
  induction count generalizing last input with
  | zero => rfl
  | succ count ih =>
    rw [readBytes, readings]
    rcases Input.atEnd input with ⟨error | ended, input'⟩
    · rfl
    · cases ended with
      | true =>
        dsimp only
        rw [storeLast_input_store, config_storeLast]
        exact ih _ _
      | false =>
        dsimp only
        rcases Input.next input' with ⟨error | byte, input''⟩
        · rfl
        · dsimp only
          rw [storeLast_input_store]
          exact ih _ _

/-- Repeated reading stores the last value that was read, and nothing if none was. -/
theorem readBytes_eq [Input ι] (machine : Machine ι ω) (count : Nat) :
    machine.readBytes count =
      let after := readings machine.config.eof count none machine.input
      (after.result, { machine.storeLast after.last with input := after.input }) :=
  readBytes_storeLast count machine none machine.input

/-! ### Writing -/

theorem getElem?_fillFront (scratch : Array UInt8) (byte : UInt8) (count index : Nat) :
    (fillFront scratch byte count)[index]? =
      if index < count ∧ index < scratch.size then some byte else scratch[index]? := by
  induction count generalizing scratch with
  | zero =>
    rw [if_neg (fun h => Nat.not_lt_zero _ h.1)]
    rfl
  | succ count ih =>
    rw [fillFront, ih, Array.size_setIfInBounds, Array.getElem?_setIfInBounds]
    grind

theorem size_fillFront (scratch : Array UInt8) (byte : UInt8) (count : Nat) :
    (fillFront scratch byte count).size = scratch.size := by
  induction count generalizing scratch with
  | zero => rfl
  | succ count ih => rw [fillFront, ih, Array.size_setIfInBounds]

/-- However large the scratch memory is, a batch is the byte repeated. -/
theorem extract_fillScratch (scratch : Array UInt8) (byte : UInt8) (count : Nat) :
    ((fillScratch scratch byte count).extract 0 count).toList = List.replicate count byte := by
  have hsize : ∃ enough : Array UInt8, count ≤ enough.size ∧
      fillScratch scratch byte count = fillFront enough byte count := by
    rw [fillScratch]
    by_cases h : scratch.size < count
    · exact ⟨Array.replicate count 0, Nat.le_of_eq Array.size_replicate.symm, by rw [if_pos h]⟩
    · exact ⟨scratch, by omega, by rw [if_neg h]⟩
  obtain ⟨enough, hle, heq⟩ := hsize
  apply List.ext_getElem?
  intro index
  rw [heq, Array.getElem?_toList, Array.getElem?_extract, List.getElem?_replicate, size_fillFront,
    getElem?_fillFront, Nat.min_eq_left hle]
  by_cases h : index < count
  · simp [h]
    omega
  · simp [h]

theorem writeBytes_eq [Output ω] (machine : Machine ι ω) (count : Nat) :
    machine.writeBytes count =
      let byte := machine.current.toUInt32.toUInt8
      let written := Output.write machine.output (List.replicate count byte)
      (written.1, { machine with
        scratch := fillScratch machine.scratch byte count
        output := written.2 }) := by
  rw [writeBytes, extract_fillScratch]

/-- The bytes that a writing instruction hands over. -/
def batch (machine : Machine ι ω) (instruction : Instruction) : List UInt8 :=
  List.replicate instruction.argument.toInt.toNat machine.current.toUInt32.toUInt8

/-! ### One equation for each opcode -/

section Perform

variable [Input ι] [Output ω] (machine : Machine ι ω) {instruction : Instruction}

theorem perform_unknown (h : instruction.opcode? = none) :
    machine.perform instruction =
      (.error (.invalidCommand instruction.code machine.programCounter), machine) := by
  unfold perform
  rw [h]

theorem perform_addValue (h : instruction.opcode? = some .addValue) :
    machine.perform instruction = (.ok (), machine.addValue instruction.argument) := by
  unfold perform
  rw [h]

theorem perform_movePointer (h : instruction.opcode? = some .movePointer) :
    machine.perform instruction = machine.movePointer instruction.argument := by
  unfold perform
  rw [h]

theorem perform_readByte (h : instruction.opcode? = some .readByte) :
    machine.perform instruction = settle (machine.readBytes instruction.argument.toInt.toNat) := by
  unfold perform
  rw [h]

theorem perform_writeByte (h : instruction.opcode? = some .writeByte) :
    machine.perform instruction =
      if instruction.argument.toInt ≤ 0 then (.ok (), machine.advance)
      else settle (machine.writeBytes instruction.argument.toInt.toNat) := by
  unfold perform
  rw [h]

/-- An instruction that writes hands its batch over, and leaves all else but scratch memory. -/
theorem perform_batch (h : instruction.opcode? = some .writeByte)
    (hpos : 0 < instruction.argument.toInt) :
    let written := Output.write machine.output (machine.batch instruction)
    ∃ scratch, machine.perform instruction =
      settle (written.1, { machine with scratch, output := written.2 }) := by
  have hcount : ¬ instruction.argument.toInt ≤ 0 := by omega
  rw [perform_writeByte machine h, if_neg hcount, writeBytes_eq]
  exact ⟨_, rfl⟩

theorem perform_jumpIfZero (h : instruction.opcode? = some .jumpIfZero) :
    machine.perform instruction =
      (.ok (), machine.jump instruction.argument (machine.current = 0)) := by
  unfold perform
  rw [h]

theorem perform_jumpIfNonzero (h : instruction.opcode? = some .jumpIfNonzero) :
    machine.perform instruction =
      (.ok (), machine.jump instruction.argument (machine.current ≠ 0)) := by
  unfold perform
  rw [h]

end Perform

/-! ### The place in the program

Apart from jumps, what an instruction does depends on its place in the program in no way: it goes
on to the next place, or stays when it faults. -/

theorem addValue_goto (machine : Machine ι ω) (counter : UInt64) (amount : Int32) :
    (machine.goto counter).addValue amount = (machine.addValue amount).goto (counter + 1) := by
  unfold addValue
  rw [store_eq, store_eq]
  rfl

/-- What follows an instruction that ended so. -/
def nextPlace (result : Except Fault Unit) (counter : UInt64) : UInt64 :=
  match result with
  | .ok () => counter + 1
  | .error _ => counter

theorem movePointer_goto (machine : Machine ι ω) (counter : UInt64) (amount : Int32) :
    (machine.goto counter).movePointer amount =
      let moved := machine.movePointer amount
      (moved.1, moved.2.goto (nextPlace moved.1 counter)) := by
  by_cases h : machine.cursor.toInt64 + amount.toInt64 < 0
  · rw [movePointer_below machine h, movePointer_below (machine.goto counter) h]
    rfl
  · rw [movePointer_within machine h, movePointer_within (machine.goto counter) h, cover_eq,
      cover_eq]
    rfl

theorem storeLast_goto (machine : Machine ι ω) (counter : UInt64) (last : Option Int32) :
    (machine.goto counter).storeLast last = (machine.storeLast last).goto counter := by
  cases last with
  | none => rfl
  | some value =>
    show (machine.goto counter).store value = (machine.store value).goto counter
    rw [store_eq, store_eq]
    rfl

theorem readBytes_goto [Input ι] (machine : Machine ι ω) (counter : UInt64) (count : Nat) :
    (machine.goto counter).readBytes count =
      ((machine.readBytes count).1, (machine.readBytes count).2.goto counter) := by
  rw [readBytes_eq, readBytes_eq]
  dsimp only
  rw [storeLast_goto]
  rfl

theorem writeBytes_goto [Output ω] (machine : Machine ι ω) (counter : UInt64) (count : Nat) :
    (machine.goto counter).writeBytes count =
      ((machine.writeBytes count).1, (machine.writeBytes count).2.goto counter) := by
  rw [writeBytes_eq, writeBytes_eq]
  rfl

theorem settle_goto (done : Except IoError Unit × Machine ι ω) (counter : UInt64) :
    settle (done.1, done.2.goto counter) =
      ((settle done).1, (settle done).2.goto (nextPlace (settle done).1 counter)) := by
  obtain ⟨error | _, machine⟩ := done <;> rfl

theorem perform_goto [Input ι] [Output ω] (machine : Machine ι ω) (counter : UInt64)
    (action : Action) (argument : Int32) :
    let instruction := Instruction.ofOpcode (.ofAction action) argument
    (machine.goto counter).perform instruction =
      ((machine.perform instruction).1, (machine.perform instruction).2.goto
        (nextPlace (machine.perform instruction).1 counter)) := by
  intro instruction
  have hop : instruction.opcode? = some (.ofAction action) := Instruction.opcode?_ofOpcode _ _
  cases action with
  | addValue =>
    rw [perform_addValue _ hop, perform_addValue _ hop, addValue_goto]
    rfl
  | movePointer => rw [perform_movePointer _ hop, perform_movePointer _ hop, movePointer_goto]
  | readByte =>
    rw [perform_readByte _ hop, perform_readByte _ hop, readBytes_goto, settle_goto]
  | writeByte =>
    rw [perform_writeByte _ hop, perform_writeByte _ hop]
    by_cases h : instruction.argument.toInt ≤ 0
    · rw [if_pos h, if_pos h]
      rfl
    · rw [if_neg h, if_neg h, writeBytes_goto, settle_goto]

end Machine

end TapeMachine
