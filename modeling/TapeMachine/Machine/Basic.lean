import TapeMachine.Bytecode.Listing
import TapeMachine.Device.Input
import TapeMachine.Device.Output
import TapeMachine.Tape

/-!
# TapeMachine.Machine.Basic — the machine at rest

A machine holds a program, a tape, two registers and the devices it reads from and writes to.
`Machine.load` gives it a program and fresh memory; a listing that is malformed changes nothing.
Registers are 64-bit words: the cursor is an index of the tape, and the program counter is an index
of the program until a jump leaves it, in either direction.
-/

namespace TapeMachine

/-- Sizes and values that a machine is made with. -/
structure Config where
  /-- What reading stores into a cell when the input has ended. -/
  eof : Int32 := 0
  /-- Cells of a fresh tape. -/
  tapeLength : Nat := 256
  /-- The most cells that one step of growth adds. -/
  maxGrowth : Nat := Tape.defaultMaxGrowth
  /-- Bytes of a fresh scratch buffer. -/
  scratchLength : Nat := 32
  deriving DecidableEq, Repr, Inhabited

/-- What a machine reports of its work. -/
inductive Event where
  /-- A program of this length is about to be loaded. -/
  | loading (length : Nat)
  /-- The tape took one step of growth. -/
  | grew (growth : Growth)
  deriving DecidableEq, Repr, Inhabited

/-- What a machine shows of its registers. -/
structure Snapshot where
  cursor : UInt64
  tapeLength : Nat
  programCounter : UInt64
  /-- The cell under the cursor; there is none before the first load. -/
  currentValue : Option Int32
  deriving DecidableEq, Repr, Inhabited

/-- A machine between two instructions. -/
structure Machine (ι ω : Type) where
  config : Config
  input : ι
  output : ω
  program : Program
  programCounter : UInt64
  tape : Tape
  cursor : UInt64
  /-- Memory in which batches of output are put together. -/
  scratch : Array UInt8
  /-- The events so far, newest first. -/
  journal : List Event

namespace Machine

variable {ι ω : Type}

/-- A machine with nothing loaded: no instruction, no cell, no scratch memory. -/
def new (config : Config) (input : ι) (output : ω) : Machine ι ω where
  config
  input
  output
  program := .empty
  programCounter := 0
  tape := .empty
  cursor := 0
  scratch := #[]
  journal := []

/-- Takes a program and starts over: zeroed memory, both registers at 0.  The devices stay as they
are. -/
def load (machine : Machine ι ω) (program : Program) : Machine ι ω :=
  { machine with
    program
    programCounter := 0
    tape := .zeros machine.config.tapeLength machine.config.maxGrowth
    cursor := 0
    scratch := Array.replicate machine.config.scratchLength 0
    journal := .loading program.length :: machine.journal }

/-- Takes the program of a listing; after a malformed one the machine is as before. -/
def loadListing (machine : Machine ι ω) (text : List Char) : Except Fault Unit × Machine ι ω :=
  match Program.ofListing text with
  | .ok program => (.ok (), machine.load program)
  | .error fault => (.error fault, machine)

/-- The registers, for a reader. -/
def snapshot (machine : Machine ι ω) : Snapshot where
  cursor := machine.cursor
  tapeLength := machine.tape.length
  programCounter := machine.programCounter
  currentValue := machine.tape.get? machine.cursor.toNat

/-- The events so far in order, and the machine with none. -/
def takeJournal (machine : Machine ι ω) : List Event × Machine ι ω :=
  (machine.journal.reverse, { machine with journal := [] })

end Machine

/-- The snapshot as a JSON object. -/
def Snapshot.toJson (snapshot : Snapshot) : String :=
  let value := match snapshot.currentValue with
    | some value => toString value
    | none => "null"
  "\x7b\"cursor\":" ++ toString snapshot.cursor
    ++ ",\"tape_len\":" ++ toString snapshot.tapeLength
    ++ ",\"program_counter\":" ++ toString snapshot.programCounter
    ++ ",\"current_value\":" ++ value ++ "\x7d"

end TapeMachine
