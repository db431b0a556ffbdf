import TapeMachine.Device.IoError

/-!
# TapeMachine.Device.Output — where bytes go

An output takes batches: one write hands over one whole batch, and either all of it is taken or the
write fails.  A sink is a writer that can also be flushed; every sink is an output.  A buffer in
memory takes everything.
-/

namespace TapeMachine

/-- A receiver of batches.  A failed write leaves the output in use. -/
class Output (ω : Type) where
  write : ω → List UInt8 → Except IoError Unit × ω

/-- A writer that takes all bytes of a batch or fails, and may hold some back until a flush. -/
class Sink (σ : Type) where
  writeAll : σ → List UInt8 → Except IoError Unit × σ
  flush : σ → Except IoError Unit × σ

instance {σ : Type} [Sink σ] : Output σ where
  write := Sink.writeAll

/-! ### A buffer -/

/-- Bytes in memory, in the order in which they were written. -/
structure ByteBuffer where
  bytes : Array UInt8
  deriving DecidableEq, Repr, Inhabited

namespace ByteBuffer

/-- The buffer without bytes. -/
def empty : ByteBuffer := ⟨#[]⟩

/-- The bytes in order. -/
def toList (buffer : ByteBuffer) : List UInt8 := buffer.bytes.toList

/-- Adds bytes behind the others. -/
def append (buffer : ByteBuffer) (bytes : List UInt8) : ByteBuffer :=
  { buffer with bytes := bytes.foldl Array.push buffer.bytes }

@[simp] theorem toList_append (buffer : ByteBuffer) (bytes : List UInt8) :
    (buffer.append bytes).toList = buffer.toList ++ bytes := by
  simp [append, toList]

instance : Output ByteBuffer where
  write buffer bytes := (.ok (), buffer.append bytes)

end ByteBuffer

end TapeMachine
