import TapeMachine.Device.IoError

/-!
# TapeMachine.Device.Input — sources of bytes

An input answers two questions, and each answer comes with the input as the question leaves it:
whether the bytes have ended, and what the next byte is.  Asking whether they have ended takes no
byte.  A block of bytes and a queue of bytes never fail before their end.
-/

namespace TapeMachine

/-- A source of bytes.  Either answer may be an error, after which the input goes on being used. -/
class Input (ι : Type) where
  /-- Whether there is no next byte. -/
  atEnd : ι → Except IoError Bool × ι
  /-- Takes the next byte. -/
  next : ι → Except IoError UInt8 × ι

/-! ### A block of bytes -/

/-- A fixed block of bytes that is read from the front. -/
structure ByteBlock where
  bytes : Array UInt8
  /-- How many bytes have been taken. -/
  position : Nat
  deriving DecidableEq, Repr, Inhabited

namespace ByteBlock

/-- The block of these bytes, none of them taken. -/
def ofList (bytes : List UInt8) : ByteBlock := ⟨bytes.toArray, 0⟩

/-- The bytes not taken yet. -/
def toList (block : ByteBlock) : List UInt8 := block.bytes.toList.drop block.position

@[simp] theorem toList_ofList (bytes : List UInt8) : (ofList bytes).toList = bytes := rfl

/-- Takes the next byte. -/
def next (block : ByteBlock) : Except IoError UInt8 × ByteBlock :=
  match block.bytes[block.position]? with
  | some byte => (.ok byte, { block with position := block.position + 1 })
  | none => (.error .inputExhausted, block)

instance : Input ByteBlock where
  atEnd block := (.ok (block.bytes.size ≤ block.position), block)
  next := next

end ByteBlock

/-! ### A queue of bytes -/

/-- A first-in first-out queue of bytes. -/
structure ByteQueue where
  front : List UInt8
  /-- The bytes behind `front`, last one first. -/
  back : List UInt8
  deriving DecidableEq, Repr, Inhabited

namespace ByteQueue

/-- The queue of these bytes. -/
def ofList (bytes : List UInt8) : ByteQueue := ⟨bytes, []⟩

/-- The bytes of the queue, first one first. -/
def toList (queue : ByteQueue) : List UInt8 := queue.front ++ queue.back.reverse

@[simp] theorem toList_ofList (bytes : List UInt8) : (ofList bytes).toList = bytes := by
  simp [ofList, toList]

/-- Adds a byte behind the others. -/
def push (queue : ByteQueue) (byte : UInt8) : ByteQueue :=
  { queue with back := byte :: queue.back }

@[simp] theorem toList_push (queue : ByteQueue) (byte : UInt8) :
    (queue.push byte).toList = queue.toList ++ [byte] := by
  simp [push, toList]

/-- Whether the queue holds no byte. -/
def isEmpty (queue : ByteQueue) : Bool := queue.front.isEmpty && queue.back.isEmpty

/-- Takes the first byte. -/
def next (queue : ByteQueue) : Except IoError UInt8 × ByteQueue :=
  match queue.front with
  | byte :: front => (.ok byte, { queue with front })
  | [] => match queue.back.reverse with
    | byte :: front => (.ok byte, ⟨front, []⟩)
    | [] => (.error .inputExhausted, queue)

instance : Input ByteQueue where
  atEnd queue := (.ok queue.isEmpty, queue)
  next := next

end ByteQueue

end TapeMachine
