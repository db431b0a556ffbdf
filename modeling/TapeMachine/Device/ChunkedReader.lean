import TapeMachine.Device.Input

/-!
# TapeMachine.Device.ChunkedReader — input that arrives in chunks

A buffered reader shows the unread part of a chunk, and meets the next arrival when that part is
used up: more bytes, the end of the input, or an error.  As an input it looks at the next byte
before it takes it, and makes an interrupted look again, so that no question loses a byte and no
caller sees an interruption.
-/

namespace TapeMachine

/-- What a reader meets when its chunk is used up. -/
inductive Arrival where
  /-- More bytes.  No bytes mean the end of the input, for one look. -/
  | bytes (chunk : List UInt8)
  /-- An error. -/
  | failure (error : IoError)
  deriving DecidableEq, Repr, Inhabited

/-- A buffered reader: the unread part of its chunk, and what will arrive after it. -/
structure ChunkedReader where
  chunk : List UInt8
  arrivals : List Arrival
  deriving DecidableEq, Repr, Inhabited

namespace ChunkedReader

/-- The reader to which all bytes arrive at once. -/
def ofList (bytes : List UInt8) : ChunkedReader := ⟨bytes, []⟩

/-- The unread part of the chunk; when there is none, the next arrival. -/
def fill (reader : ChunkedReader) : Except IoError (List UInt8) × ChunkedReader :=
  match reader.chunk, reader.arrivals with
  | [], .bytes chunk :: arrivals => (.ok chunk, ⟨chunk, arrivals⟩)
  | [], .failure error :: arrivals => (.error error, ⟨[], arrivals⟩)
  | chunk, _ => (.ok chunk, reader)

/-- Drops bytes from the front of the chunk. -/
def consume (reader : ChunkedReader) (count : Nat) : ChunkedReader :=
  { reader with chunk := reader.chunk.drop count }

/-- The first byte of what arrives, if there is one, and the reader that stands before it.  An
interruption is passed over, so it costs one arrival and nothing else. -/
def firstArriving : List Arrival → Except IoError (Option UInt8) × ChunkedReader
  | [] => (.ok none, ⟨[], []⟩)
  | .bytes chunk :: arrivals => (.ok chunk.head?, ⟨chunk, arrivals⟩)
  | .failure error :: arrivals =>
    if error.isInterrupted then firstArriving arrivals else (.error error, ⟨[], arrivals⟩)

/-- The next byte, if there is one, without taking it. -/
def peek (reader : ChunkedReader) : Except IoError (Option UInt8) × ChunkedReader :=
  match reader.chunk with
  | byte :: _ => (.ok (some byte), reader)
  | [] => firstArriving reader.arrivals

/-- Looking at the next byte is filling the chunk, again after each interruption. -/
theorem peek_eq (reader : ChunkedReader) :
    reader.peek = match reader.fill with
      | (.ok chunk, later) => (.ok chunk.head?, later)
      | (.error error, later) =>
        if error.isInterrupted then later.peek else (.error error, later) := by
  obtain ⟨chunk, arrivals⟩ := reader
  cases chunk with
  | cons => rfl
  | nil => cases arrivals with
    | nil => rfl
    | cons arrival arrivals => cases arrival <;> rfl

/-- Takes the next byte: looks at it first, then drops it. -/
def next (reader : ChunkedReader) : Except IoError UInt8 × ChunkedReader :=
  match reader.peek with
  | (.ok (some byte), later) => (.ok byte, later.consume 1)
  | (.ok none, later) => (.error .inputExhausted, later)
  | (.error error, later) => (.error error, later)

instance : Input ChunkedReader where
  atEnd reader := match reader.peek with
    | (.ok byte?, later) => (.ok byte?.isNone, later)
    | (.error error, later) => (.error error, later)
  next := next

end ChunkedReader

end TapeMachine
