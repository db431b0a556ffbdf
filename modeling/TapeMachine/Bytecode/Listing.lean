import TapeMachine.Bytecode.Program
import TapeMachine.Json.Parser
import TapeMachine.Machine.Fault
import TapeMachine.Text.Decimal

/-!
# TapeMachine.Bytecode.Listing — programs as JSON documents

The listing of a program is a JSON array with one array `[code, argument]` for each instruction.
Reading one checks in two passes: first that each entry is a pair of 64-bit integers, then that
each integer fits 32 bits.  So an entry of the wrong shape is reported before a number out of range,
even one that stands earlier.

A library reads and prints JSON documents, and `Json.parse?` and `Program.listing` stand in for it.
What is relied on of its reader is `Json.IsReader`, and of its printer `Json.IsCompact`, both in
`Proofs/Json/Conformance`.  The listing is the one text that such a printer has for a program
(`Program.isCompact_document_iff`).
-/

namespace TapeMachine

namespace Program

/-- The word of a field, for a value that fits 32 bits. -/
def narrow (index : Nat) (field : InstructionField) (value : Int) : Except Fault Int32 :=
  match int32OfInt? value with
  | some word => .ok word
  | none => .error (.invalidProgram index (.outOfRange field value))

/-- The program of `(code, argument)` pairs of any size; the first pair that does not fit is
reported, by its code if that does not fit, else by its argument. -/
def ofPairs (pairs : List (Int × Int)) : Except Fault Program := do
  let instructions ← pairs.zipIdx.mapM fun ((code, argument), index) => do
    return (⟨← narrow index .code code, ← narrow index .argument argument⟩ : Instruction)
  return .ofList instructions

/-- The signed 64-bit integer that a value is. -/
def int64? : Json → Option Int
  | .integer value =>
    if Int64.minValue.toInt ≤ value ∧ value ≤ Int64.maxValue.toInt then some value else none
  | _ => none

/-- The pair of 64-bit integers that an entry of a listing is. -/
def pairOf (entry : Json) : Except Malformation (Int × Int) :=
  match entry with
  | .array [code, argument] =>
    match int64? code, int64? argument with
    | some code, some argument => .ok (code, argument)
    | none, _ => .error (.notAnInteger .code)
    | _, none => .error (.notAnInteger .argument)
  | .array _ => .error .entryNotAPair
  | _ => .error .entryNotAnArray

/-- The program that a JSON value lists. -/
def ofJson (value : Json) : Except Fault Program :=
  match value with
  | .array entries => do
    let pairs ← entries.zipIdx.mapM fun (entry, index) =>
      (pairOf entry).mapError (Fault.invalidProgram index)
    ofPairs pairs
  | _ => .error (.invalidProgram 0 .notAnArray)

/-- How many arrays and objects may be open at once in the text of a listing. -/
def listingDepth : Nat := 127

/-- The program that a JSON text lists. -/
def ofListing (text : List Char) : Except Fault Program :=
  match Json.parse? listingDepth text with
  | some value => ofJson value
  | none => .error (.invalidProgram 0 (.notJson text))

/-- The entry of one instruction. -/
def listingEntry (instruction : Instruction) : List Char :=
  '[' :: Decimal.write instruction.code.toInt ++ ',' ::
    Decimal.write instruction.argument.toInt ++ [']']

/-- The listing of a program, without blanks. -/
def listing (program : Program) : List Char :=
  '[' :: [','].intercalate (program.toList.map listingEntry) ++ [']']

/-- The listing as a string. -/
def listingText (program : Program) : String := String.ofList program.listing

end Program

end TapeMachine
