import TapeMachine.Device.IoError

/-!
# TapeMachine.Machine.Fault — why loading or running stops

Faults are causes; `Fault.message` is the one place that holds their wording.  What a reader of JSON
documents says of a text that it refuses is that reader's own, and a parameter of the message.
-/

namespace TapeMachine

/-- One of the two words of an instruction. -/
inductive InstructionField where
  | code
  | argument
  deriving DecidableEq, Repr, Inhabited

/-- The field's name in a message. -/
def InstructionField.name : InstructionField → String
  | code => "code"
  | argument => "argument"

/-- What a reader of JSON documents says of a text that is none, if it gives a description. -/
abbrev Diagnosis := List Char → Option String

/-- The diagnosis of a reader that gives no descriptions, as the reader of this library. -/
def Diagnosis.silent : Diagnosis := fun _ => none

/-- What is wrong with a program listing. -/
inductive Malformation where
  /-- The text is no JSON document. -/
  | notJson (text : List Char)
  /-- The document is not an array. -/
  | notAnArray
  /-- An entry is not an array. -/
  | entryNotAnArray
  /-- An entry has not exactly two items. -/
  | entryNotAPair
  /-- A field is not a signed 64-bit integer. -/
  | notAnInteger (field : InstructionField)
  /-- A field is an integer that 32 bits do not hold. -/
  | outOfRange (field : InstructionField) (value : Int)
  deriving DecidableEq, Repr, Inhabited

/-- The defect for a reader. -/
def Malformation.message (defect : Malformation) (diagnose : Diagnosis := .silent) : String :=
  match defect with
  | notJson text =>
    match diagnose text with
    | some description => s!"not valid JSON: {description}"
    | none => "not valid JSON"
  | notAnArray => "program must be an array of instructions"
  | entryNotAnArray => "instruction must be an array"
  | entryNotAPair => "instructions must be (code, argument) tuples"
  | notAnInteger field => s!"{field.name} must be an integer"
  | outOfRange field value => s!"{field.name} {value} does not fit in 32 bits"

/-- Why loading or running a program stopped. -/
inductive Fault where
  /-- The instruction at an index of a listing is malformed. -/
  | invalidProgram (index : Nat) (reason : Malformation)
  /-- A move would have put the cursor below zero. -/
  | memoryOutOfBounds (cursor : UInt64) (delta : Int32)
  /-- The instruction to be run has a code without meaning. -/
  | invalidCommand (code : Int32) (programCounter : UInt64)
  /-- The input or the output failed. -/
  | io (error : IoError)
  deriving DecidableEq, Repr, Inhabited

/-- The fault for a reader. -/
def Fault.message (fault : Fault) (diagnose : Diagnosis := .silent) : String :=
  match fault with
  | invalidProgram index reason =>
    s!"invalid program: instruction {index}: {reason.message diagnose}"
  | memoryOutOfBounds cursor delta =>
    s!"memory cursor went below zero (cursor {cursor}, delta {delta})"
  | invalidCommand code programCounter =>
    s!"invalid command code {code} at instruction {programCounter}"
  | io error => error.text

end TapeMachine
