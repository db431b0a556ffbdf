import TapeMachine.Source.Forest

/-!
# TapeMachine.Bytecode.Instruction — instructions and their codes

An instruction is a pair of 32-bit words, a code and an argument, kept as they were given.  Six
codes have a meaning.  Whether a code is one of them is asked only when the instruction is run, so
a program may hold unknown codes in places that no run reaches.
-/

namespace TapeMachine

/-- The meaning of an instruction code. -/
inductive Opcode where
  /-- Adds the argument to the current cell. -/
  | addValue
  /-- Moves the cursor by the argument. -/
  | movePointer
  /-- Reads as many bytes as the argument says into the current cell. -/
  | readByte
  /-- Writes the low byte of the current cell as often as the argument says. -/
  | writeByte
  /-- Jumps by the argument when the current cell is zero. -/
  | jumpIfZero
  /-- Jumps by the argument when the current cell is not zero. -/
  | jumpIfNonzero
  deriving DecidableEq, Repr, Inhabited

namespace Opcode

/-- Every opcode, in the order of the codes. -/
def all : List Opcode := [addValue, movePointer, readByte, writeByte, jumpIfZero, jumpIfNonzero]

/-- The word that stands for an opcode in an instruction. -/
def code : Opcode → Int32
  | addValue => 0
  | movePointer => 1
  | readByte => 2
  | writeByte => 3
  | jumpIfZero => 4
  | jumpIfNonzero => 5

/-- The opcode that a word stands for, if it stands for one. -/
def ofCode? (code : Int32) : Option Opcode :=
  if code = 0 then some addValue
  else if code = 1 then some movePointer
  else if code = 2 then some readByte
  else if code = 3 then some writeByte
  else if code = 4 then some jumpIfZero
  else if code = 5 then some jumpIfNonzero
  else none

@[simp] theorem ofCode?_code (opcode : Opcode) : ofCode? opcode.code = some opcode := by
  cases opcode <;> decide

theorem ofCode?_eq_some_iff {code : Int32} {opcode : Opcode} :
    ofCode? code = some opcode ↔ opcode.code = code := by
  constructor
  · intro h
    unfold ofCode? at h
    grind [code]
  · rintro rfl
    exact ofCode?_code opcode

/-- The opcode of a run of commands. -/
def ofAction : Action → Opcode
  | .addValue => addValue
  | .movePointer => movePointer
  | .readByte => readByte
  | .writeByte => writeByte

end Opcode

/-- One instruction of a program. -/
structure Instruction where
  code : Int32
  argument : Int32
  deriving DecidableEq, Repr, Inhabited

namespace Instruction

/-- The instruction of an opcode. -/
def ofOpcode (opcode : Opcode) (argument : Int32) : Instruction := ⟨opcode.code, argument⟩

/-- What the instruction does; `none` when its code is unknown. -/
@[inline] def opcode? (instruction : Instruction) : Option Opcode :=
  Opcode.ofCode? instruction.code

@[simp] theorem opcode?_ofOpcode (opcode : Opcode) (argument : Int32) :
    (ofOpcode opcode argument).opcode? = some opcode := Opcode.ofCode?_code opcode

end Instruction

end TapeMachine
