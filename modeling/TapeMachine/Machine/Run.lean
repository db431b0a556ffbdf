import TapeMachine.Machine.Basic

/-!
# TapeMachine.Machine.Run — instructions and runs

`Machine.perform` carries out one instruction.  `Machine.run` fetches and performs instructions
until the program counter leaves the program or an instruction faults, for as many instructions as
it is allowed.  A faulting instruction leaves the program counter where it is, so that a later run
takes it up again.
-/

namespace TapeMachine

namespace Machine

variable {ι ω : Type}

/-- The instruction that the program counter points at. -/
@[inline] def fetch (machine : Machine ι ω) : Option Instruction :=
  machine.program.get? machine.programCounter.toNat

/-- The value under the cursor; a cell that the tape does not reach is zero. -/
@[inline] def current (machine : Machine ι ω) : Int32 :=
  (machine.tape.get? machine.cursor.toNat).getD 0

/-- Goes on to the next instruction. -/
@[inline] def advance (machine : Machine ι ω) : Machine ι ω :=
  { machine with programCounter := machine.programCounter + 1 }

/-- Makes the cell under the cursor addressable, and reports the growth. -/
@[inline] def cover (machine : Machine ι ω) : Machine ι ω :=
  let index := machine.cursor.toNat
  if index < machine.tape.length then machine
  else
    let growths := machine.tape.growths index
    { machine with
      tape := machine.tape.growTo index
      journal := growths.foldl (fun journal growth => .grew growth :: journal) machine.journal }

/-- Stores a value under the cursor. -/
@[inline] def store (machine : Machine ι ω) (value : Int32) : Machine ι ω :=
  let machine := machine.cover
  { machine with tape := machine.tape.set machine.cursor.toNat value }

/-- Adds to the value under the cursor, wrapping around at 32 bits. -/
@[inline] def addValue (machine : Machine ι ω) (amount : Int32) : Machine ι ω :=
  (machine.store (machine.current + amount)).advance

/-- Moves the cursor, and the tape grows to it; a move below zero is a fault. -/
@[inline] def movePointer (machine : Machine ι ω) (amount : Int32) :
    Except Fault Unit × Machine ι ω :=
  let target := machine.cursor.toInt64 + amount.toInt64
  if target < 0 then (.error (.memoryOutOfBounds machine.cursor amount), machine)
  else (.ok (), ({ machine with cursor := target.toUInt64 } : Machine ι ω).cover.advance)

/-- Moves the program counter by a distance, or on to the next instruction. -/
@[inline] def jump (machine : Machine ι ω) (distance : Int32) (taken : Bool) : Machine ι ω :=
  if taken then
    { machine with programCounter := machine.programCounter + distance.toInt64.toUInt64 }
  else machine.advance

/-- Reads a number of times into the cell under the cursor.  Each reading asks first whether the
input has ended, and stores what it found before the next one starts; so the readings before a
failure stay done. -/
def readBytes [Input ι] (machine : Machine ι ω) : Nat → Except IoError Unit × Machine ι ω
  | 0 => (.ok (), machine)
  | count + 1 =>
    match Input.atEnd machine.input with
    | (.error error, input) => (.error error, { machine with input })
    | (.ok true, input) =>
      readBytes (({ machine with input } : Machine ι ω).store machine.config.eof) count
    | (.ok false, input) =>
      match Input.next input with
      | (.error error, input) => (.error error, { machine with input })
      | (.ok byte, input) =>
        readBytes (({ machine with input } : Machine ι ω).store byte.toUInt32.toInt32) count

/-- Sets the first bytes of a scratch buffer. -/
def fillFront (scratch : Array UInt8) (byte : UInt8) : Nat → Array UInt8
  | 0 => scratch
  | count + 1 => fillFront (scratch.setIfInBounds count byte) byte count

/-- A scratch buffer whose first `count` bytes are `byte`.  One that is too small is replaced. -/
def fillScratch (scratch : Array UInt8) (byte : UInt8) (count : Nat) : Array UInt8 :=
  fillFront (if scratch.size < count then Array.replicate count 0 else scratch) byte count

/-- Writes the low byte of the current cell a number of times, as one batch. -/
def writeBytes [Output ω] (machine : Machine ι ω) (count : Nat) :
    Except IoError Unit × Machine ι ω :=
  let scratch := fillScratch machine.scratch machine.current.toUInt32.toUInt8 count
  let (result, output) := Output.write machine.output (scratch.extract 0 count).toList
  (result, { machine with scratch, output })

/-- The result of an instruction that used a device: on to the next instruction, or a fault. -/
@[inline] def settle : Except IoError Unit × Machine ι ω → Except Fault Unit × Machine ι ω
  | (.ok (), machine) => (.ok (), machine.advance)
  | (.error error, machine) => (.error (.io error), machine)

/-- Carries out an instruction.  A count that is negative counts as 0, and writing nothing does
not touch the output. -/
@[specialize] def perform [Input ι] [Output ω] (machine : Machine ι ω) (instruction : Instruction) :
    Except Fault Unit × Machine ι ω :=
  let argument := instruction.argument
  match instruction.opcode? with
  | none => (.error (.invalidCommand instruction.code machine.programCounter), machine)
  | some .addValue => (.ok (), machine.addValue argument)
  | some .movePointer => machine.movePointer argument
  | some .jumpIfZero => (.ok (), machine.jump argument (machine.current = 0))
  | some .jumpIfNonzero => (.ok (), machine.jump argument (machine.current ≠ 0))
  | some .readByte => settle (machine.readBytes argument.toInt.toNat)
  | some .writeByte =>
    if argument.toInt ≤ 0 then (.ok (), machine.advance)
    else settle (machine.writeBytes argument.toInt.toNat)

/-- How a run ended. -/
inductive Outcome where
  /-- The program counter left the program. -/
  | halted
  /-- An instruction faulted. -/
  | faulted (fault : Fault)
  /-- The run was stopped when it had used up the instructions allowed. -/
  | stopped
  deriving DecidableEq, Repr, Inhabited

/-- Runs the machine for at most `limit` fetches. -/
@[specialize] def run [Input ι] [Output ω] : (limit : Nat) → Machine ι ω → Outcome × Machine ι ω
  | 0, machine => (.stopped, machine)
  | limit + 1, machine =>
    match machine.fetch with
    | none => (.halted, machine)
    | some instruction =>
      match machine.perform instruction with
      | (.ok (), machine) => run limit machine
      | (.error fault, machine) => (.faulted fault, machine)

end Machine

/-- Compiles a source text and runs it on a new machine. -/
def evaluate {ι ω : Type} [Input ι] [Output ω] (limit : Nat) (source : List UInt8) (input : ι)
    (output : ω) (eof : Int32) : Except SourceError (Machine.Outcome × Machine ι ω) := do
  let program ← compile source
  return ((Machine.new { eof } input output).load program).run limit

end TapeMachine
