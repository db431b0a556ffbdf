import TapeMachine.Bytecode.Instruction

/-!
# TapeMachine.Bytecode.Program — instruction sequences, and the compiler to them

A program is a fixed sequence of instructions; instruction 0 is run first.  `Forest.flatten` lays
the loops of a forest out in a line: a loop whose body takes `k` instructions becomes
`jumpIfZero (k + 2)`, the body, `jumpIfNonzero (-k)`.  The first jump lands just past the loop and
the second on the first instruction of the body.  `compile` goes from source text to program.
-/

namespace TapeMachine

/-- A sequence of instructions that is run from index 0. -/
structure Program where
  instructions : Array Instruction
  deriving DecidableEq, Repr, Inhabited

namespace Program

/-- The program with no instruction. -/
def empty : Program := ⟨#[]⟩

/-- The program of a list of instructions. -/
def ofList (instructions : List Instruction) : Program := ⟨instructions.toArray⟩

/-- The instructions in order. -/
def toList (program : Program) : List Instruction := program.instructions.toList

/-- The number of instructions. -/
@[inline] def length (program : Program) : Nat := program.instructions.size

/-- Whether the program has no instruction. -/
def isEmpty (program : Program) : Bool := program.instructions.isEmpty

/-- The instruction at an index, if the program reaches that far. -/
@[inline] def get? (program : Program) (index : Nat) : Option Instruction :=
  program.instructions[index]?

@[simp] theorem toList_ofList (instructions : List Instruction) :
    (ofList instructions).toList = instructions := rfl

@[simp] theorem length_ofList (instructions : List Instruction) :
    (ofList instructions).length = instructions.length := rfl

end Program

mutual

/-- Adds the code of a node to the code before it.  The head of a loop is added with argument 0
and filled in when the length of the body is known. -/
def Node.emit (code : Array Instruction) : Node → Except SourceError (Array Instruction)
  | .leaf action argument => .ok (code.push (.ofOpcode (.ofAction action) argument))
  | .loop offset body => do
    let head := code.size
    let code ← Forest.emit (code.push (.ofOpcode .jumpIfZero 0)) body
    let length := code.size - head - 1
    if length + 2 ≤ Int32.maxValue.toInt.toNat then
      return (code.setIfInBounds head (.ofOpcode .jumpIfZero (Int32.ofNat (length + 2)))).push
        (.ofOpcode .jumpIfNonzero (Int32.ofInt (-length)))
    else throw (.overflow offset)

/-- Adds the code of each node in turn to the code before it. -/
def Forest.emit (code : Array Instruction) : List Node → Except SourceError (Array Instruction)
  | [] => .ok code
  | node :: rest => do Forest.emit (← Node.emit code node) rest

end

/-- The instructions of a forest, with its loops as relative jumps. -/
def Forest.flatten (forest : Forest) : Except SourceError (List Instruction) := do
  return (← Forest.emit #[] forest).toList

/-- The program of a source text. -/
def compile (source : List UInt8) : Except SourceError Program := do
  return .ofList (← (← Forest.ofSource source).flatten)

end TapeMachine
