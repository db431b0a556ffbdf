import TapeMachine.Device.Input
import TapeMachine.Device.Output

/-!
# TapeMachine.Device.Scripted — devices that fail where a script says

A script is a list of events, and each call of a device uses up the next one.  With a script any
failure can be placed at any call: before a byte, between the question for the end and the byte,
at a whole batch, or in the middle of one.  After its script a device works without failure.
-/

namespace TapeMachine

/-! ### A scripted input -/

/-- One entry in the script of an input. -/
inductive InputEvent where
  /-- The next byte. -/
  | byte (value : UInt8)
  /-- The next byte fails to be read. -/
  | byteFailure (error : IoError)
  /-- The input has ended, for one question. -/
  | atEnd
  /-- The question whether the input has ended fails. -/
  | atEndFailure (error : IoError)
  deriving DecidableEq, Repr, Inhabited

/-- An input that answers as a script says.  After the script it has ended. -/
structure ScriptedInput where
  events : List InputEvent
  deriving DecidableEq, Repr, Inhabited

namespace ScriptedInput

/-- Looks at the next event; only an answer to this question is used up. -/
def atEnd (input : ScriptedInput) : Except IoError Bool × ScriptedInput :=
  match input.events with
  | [] => (.ok true, input)
  | .atEnd :: events => (.ok true, ⟨events⟩)
  | .atEndFailure error :: events => (.error error, ⟨events⟩)
  | _ :: _ => (.ok false, input)

/-- Uses up the next event, whatever it is. -/
def next (input : ScriptedInput) : Except IoError UInt8 × ScriptedInput :=
  match input.events with
  | [] => (.error .inputExhausted, input)
  | .byte value :: events => (.ok value, ⟨events⟩)
  | .byteFailure error :: events | .atEndFailure error :: events => (.error error, ⟨events⟩)
  | .atEnd :: events => (.error .inputExhausted, ⟨events⟩)

instance : Input ScriptedInput where
  atEnd := atEnd
  next := next

end ScriptedInput

/-! ### A recorder of batches -/

/-- An output that keeps each batch apart and fails where its script says. -/
structure BatchRecorder where
  /-- What the next writes do: `some` error, or take the batch.  After the script all are taken. -/
  script : List (Option IoError)
  /-- The batches taken, newest first. -/
  recorded : List (List UInt8)
  deriving DecidableEq, Repr, Inhabited

namespace BatchRecorder

/-- The batches taken, in order. -/
def batches (recorder : BatchRecorder) : List (List UInt8) := recorder.recorded.reverse

/-- Takes a batch whole, or fails and takes nothing. -/
def write (recorder : BatchRecorder) (batch : List UInt8) :
    Except IoError Unit × BatchRecorder :=
  match recorder.script with
  | some error :: script => (.error error, { recorder with script })
  | none :: script => (.ok (), ⟨script, batch :: recorder.recorded⟩)
  | [] => (.ok (), ⟨[], batch :: recorder.recorded⟩)

instance : Output BatchRecorder where
  write := write

end BatchRecorder

/-! ### A scripted writer -/

/-- What one low-level write does. -/
inductive Acceptance where
  /-- Takes this many bytes, or all if there are fewer. -/
  | upTo (count : Nat)
  /-- Fails and takes nothing. -/
  | failure (error : IoError)
  deriving DecidableEq, Repr, Inhabited

/-- A writer that behaves as its two scripts say, and after them takes everything. -/
structure ScriptedWriter where
  writes : List Acceptance
  /-- What the next flushes do: `some` error, or succeed. -/
  flushes : List (Option IoError)
  /-- The pieces taken, newest first. -/
  recorded : List (List UInt8)
  deriving DecidableEq, Repr, Inhabited

namespace ScriptedWriter

/-- The pieces taken, in order. -/
def pieces (writer : ScriptedWriter) : List (List UInt8) := writer.recorded.reverse

/-- Writes a batch in as many low-level writes as it takes.  An interrupted write is made again, a
write that takes no byte fails, any other error ends the attempt; the pieces taken before stay
taken.  The result has what is left of the script and the pieces, newest first. -/
def writePieces : List Acceptance → List (List UInt8) → List UInt8 →
    Except IoError Unit × List Acceptance × List (List UInt8)
  | writes, recorded, [] => (.ok (), writes, recorded)
  | [], recorded, bytes => (.ok (), [], bytes :: recorded)
  | .failure error :: writes, recorded, bytes =>
    if error.isInterrupted then writePieces writes recorded bytes
    else (.error error, writes, recorded)
  | .upTo 0 :: writes, recorded, _ => (.error .nothingAccepted, writes, [] :: recorded)
  | .upTo (count + 1) :: writes, recorded, bytes =>
    writePieces writes (bytes.take (count + 1) :: recorded) (bytes.drop (count + 1))

/-- Writes a whole batch. -/
def writeAll (writer : ScriptedWriter) (bytes : List UInt8) :
    Except IoError Unit × ScriptedWriter :=
  let (result, writes, recorded) := writePieces writer.writes writer.recorded bytes
  (result, { writer with writes, recorded })

/-- Uses up one event of the script of flushes. -/
def flush (writer : ScriptedWriter) : Except IoError Unit × ScriptedWriter :=
  match writer.flushes with
  | some error :: flushes => (.error error, { writer with flushes })
  | none :: flushes => (.ok (), { writer with flushes })
  | [] => (.ok (), writer)

instance : Sink ScriptedWriter where
  writeAll := writeAll
  flush := flush

end ScriptedWriter

end TapeMachine
