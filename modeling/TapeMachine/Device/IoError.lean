/-!
# TapeMachine.Device.IoError — failures of devices

An error has a kind, by which callers decide, and a text, which is only shown.  The one kind that
anything here decides by is `interrupted`: an interrupted attempt may be made again.
-/

namespace TapeMachine

/-- What kind of failure an I/O error is. -/
inductive IoErrorKind where
  | brokenPipe
  | interrupted
  | isADirectory
  | notADirectory
  | notFound
  | permissionDenied
  | storageFull
  | timedOut
  | unexpectedEnd
  | wouldBlock
  | writeZero
  | other
  deriving DecidableEq, Repr, Inhabited

/-- A failure of a device. -/
structure IoError where
  kind : IoErrorKind
  text : String
  deriving DecidableEq, Repr, Inhabited

namespace IoError

/-- A byte was asked of an input that has ended. -/
def inputExhausted : IoError := ⟨.unexpectedEnd, "input exhausted"⟩

/-- A writer accepted no byte of a batch that was not empty. -/
def nothingAccepted : IoError := ⟨.writeZero, "failed to write whole buffer"⟩

/-- A device has no room for another byte. -/
def noSpaceLeft : IoError := ⟨.storageFull, "No space left on device (os error 28)"⟩

/-- No file has this name. -/
def noSuchFile : IoError := ⟨.notFound, "No such file or directory (os error 2)"⟩

/-- A name goes on below a file. -/
def notDirectory : IoError := ⟨.notADirectory, "Not a directory (os error 20)"⟩

/-- A name is the one of a directory, which has no bytes to read. -/
def isDirectory : IoError := ⟨.isADirectory, "Is a directory (os error 21)"⟩

/-- A name or a path is longer than the file system allows. -/
def nameTooLong : IoError := ⟨.other, "File name too long (os error 36)"⟩

/-- Whether the attempt that failed may be made again at once. -/
def isInterrupted (error : IoError) : Bool := error.kind = .interrupted

end IoError

end TapeMachine
