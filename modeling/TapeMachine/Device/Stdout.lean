import TapeMachine.Device.Output

/-!
# TapeMachine.Device.Stdout — output that is held back until a line is complete

`Stdout` is a sink in front of a device.  It holds back up to 1024 bytes.  A batch with a line break
sends everything up to its last line break to the device; a batch that does not fit beside what is
held back sends that first, and a batch of 1024 bytes or more is not held back at all.  A device
that is full refuses every byte; what could not be sent stays held back.
-/

namespace TapeMachine

/-- What standard output is connected to. -/
structure Device where
  /-- Whether the device refuses every byte. -/
  full : Bool
  /-- The bytes that reached the device. -/
  received : ByteBuffer
  deriving DecidableEq, Repr, Inhabited

namespace Device

/-- The device that takes everything and has received nothing. -/
def accepting : Device := ⟨false, .empty⟩

/-- The device that takes nothing. -/
def refusing : Device := ⟨true, .empty⟩

/-- Takes all bytes, or none.  No bytes always arrive. -/
def send (device : Device) (bytes : List UInt8) : Except IoError Unit × Device :=
  if bytes.isEmpty then (.ok (), device)
  else if device.full then (.error .noSpaceLeft, device)
  else (.ok (), { device with received := device.received.append bytes })

end Device

/-- Standard output: a device and the bytes held back from it. -/
structure Stdout where
  device : Device
  held : ByteBuffer
  deriving DecidableEq, Repr, Inhabited

namespace Stdout

/-- How many bytes may be held back. -/
def capacity : Nat := 1024

/-- The byte that ends a line. -/
def lineBreak : UInt8 := '\n'.toUInt8

/-- Standard output on a device, with nothing held back. -/
def onDevice (device : Device) : Stdout := ⟨device, .empty⟩

/-- Sends bytes past those held back. -/
def sendDirectly (stdout : Stdout) (bytes : List UInt8) : Except IoError Unit × Stdout :=
  let (result, device) := stdout.device.send bytes
  (result, { stdout with device })

/-- Sends what is held back. -/
def flush (stdout : Stdout) : Except IoError Unit × Stdout :=
  match stdout.device.send stdout.held.toList with
  | (.ok (), device) => (.ok (), ⟨device, .empty⟩)
  | (.error error, device) => (.error error, { stdout with device })

/-- Carries on after a success. -/
def andThen (first : Except IoError Unit × Stdout)
    (second : Stdout → Except IoError Unit × Stdout) : Except IoError Unit × Stdout :=
  match first with
  | (.ok (), stdout) => second stdout
  | failed => failed

/-- Holds bytes back, or sends them if they are too many. -/
def holdBack (stdout : Stdout) (bytes : List UInt8) : Except IoError Unit × Stdout :=
  let spare := capacity - stdout.held.bytes.size
  let count := bytes.length
  let roomMade := if spare < count then stdout.flush else (.ok (), stdout)
  andThen roomMade fun stdout =>
    if capacity ≤ count then stdout.sendDirectly bytes
    else (.ok (), { stdout with held := stdout.held.append bytes })

/-- A batch up to and with its last line break, and the rest of it. -/
def splitLines (bytes : List UInt8) : List UInt8 × List UInt8 :=
  let tail := (bytes.reverse.takeWhile (· ≠ lineBreak)).reverse
  (bytes.take (bytes.length - tail.length), tail)

/-- Takes a batch. -/
def writeAll (stdout : Stdout) (bytes : List UInt8) : Except IoError Unit × Stdout :=
  match splitLines bytes with
  | ([], tail) =>
    let lineSent :=
      if stdout.held.bytes.back? = some lineBreak then stdout.flush else (.ok (), stdout)
    andThen lineSent (·.holdBack tail)
  | (lines, tail) =>
    let linesSent :=
      if stdout.held.bytes.isEmpty then stdout.sendDirectly lines
      else andThen (stdout.holdBack lines) (·.flush)
    andThen linesSent (·.holdBack tail)

instance : Sink Stdout where
  writeAll := writeAll
  flush := flush

end Stdout

end TapeMachine
