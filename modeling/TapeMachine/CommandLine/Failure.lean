import TapeMachine.Machine.Basic
import TapeMachine.Text.ControlEscape
import TapeMachine.Text.Lines

/-!
# TapeMachine.CommandLine.Failure — what a session says on the error stream

A session writes notices: the state of a machine after its run, and failures.  A failure that stops
the session is its last notice.  States are printed as they are; failures go through a log, at the
level of errors (`ControlEscape` says what is assumed of its format).
-/

namespace TapeMachine

/-- What can go wrong in a session. -/
inductive Failure where
  /-- A file cannot be read. -/
  | unreadable (path : String) (error : IoError)
  /-- A source text cannot be compiled. -/
  | uncompilable (path : String) (error : SourceError)
  /-- A listing is malformed, or a run faulted. -/
  | faulted (path : String) (fault : Fault)
  /-- The output of a run could not be flushed. -/
  | unwritable (path : String) (error : IoError)
  /-- Standard output failed. -/
  | outputFailed (error : IoError)
  /-- Some programs of several failed. -/
  | programsFailed (failed total : Nat)
  /-- The time allowed was over. -/
  | timedOut (milliseconds : Nat)
  deriving DecidableEq, Repr, Inhabited

/-- A time in milliseconds below one second, and else in seconds with as many places as it takes. -/
def duration (milliseconds : Nat) : String :=
  if milliseconds = 0 then "0ns"
  else if milliseconds < 1000 then s!"{milliseconds}ms"
  else
    let places := (Nat.toDigits 10 (1000 + milliseconds % 1000)).drop 1
    let places := (places.reverse.dropWhile (· = '0')).reverse
    let point := if places.isEmpty then "" else "."
    s!"{milliseconds / 1000}" ++ point ++ String.ofList places ++ "s"

/-- The failure for a reader. -/
def Failure.message (failure : Failure) (diagnose : Diagnosis := .silent) : String :=
  match failure with
  | unreadable path error => s!"{path}: {error.text}"
  | uncompilable path error => s!"{path}: {error.message}"
  | faulted path fault => s!"{path}: {fault.message diagnose}"
  | unwritable path error => s!"{path}: cannot write output: {error.text}"
  | outputFailed error => error.text
  | programsFailed failed total => s!"{failed} of {total} programs failed"
  | timedOut milliseconds => s!"timed out after {duration milliseconds}"

/-- What a session writes to the error stream. -/
inductive Notice where
  /-- The registers of the machine that ran a file. -/
  | state (path : String) (snapshot : Snapshot)
  | failure (cause : Failure)
  deriving DecidableEq, Repr, Inhabited

/-- The notice for a reader.  A failure goes to a log, where control characters are spelled out. -/
def Notice.text (notice : Notice) (diagnose : Diagnosis := .silent) : String :=
  match notice with
  | state path snapshot => s!"{path}: {snapshot.toJson}"
  | failure cause => s!"ERROR {ControlEscape.encode (cause.message diagnose)}"

/-- The lines of a notice; a path may hold line breaks. -/
def Notice.lines (notice : Notice) (diagnose : Diagnosis := .silent) : List String :=
  Lines.ofText (notice.text diagnose)

end TapeMachine
