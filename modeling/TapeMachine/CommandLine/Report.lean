import TapeMachine.CommandLine.Failure
import TapeMachine.Device.ChunkedReader
import TapeMachine.Device.Stdout

/-!
# TapeMachine.CommandLine.Report — what a session finds and what it leaves behind

Before a session are the files, standard input and standard output; after it are an exit code, what
standard output has taken, and the notices on the error stream.

Which levels of the log reach the error stream is decided by a filter, which the environment of a
session can replace.  Environment variables are no part of `World`: the notices of a report are those
under the default filter, which lets warnings and errors through and drops the events of machines.
-/

namespace TapeMachine

/-- What a session finds around it.  No variable that sets the filter of the log is among it. -/
structure World where
  /-- The contents of the file at a path. -/
  read : String → Except IoError (List UInt8)
  stdin : ChunkedReader
  stdout : Stdout

/-- What a session leaves behind. -/
structure Report where
  exitCode : Nat
  stdout : Stdout
  /-- What went to the error stream under the default filter of the log, in order. -/
  notices : List Notice
  deriving DecidableEq, Repr, Inhabited

namespace Report

/-- The exit code after a success. -/
def successCode : Nat := 0

/-- The exit code after a failure. -/
def failureCode : Nat := 1

/-- The exit code after a usage error. -/
def usageCode : Nat := 2

/-- The exit code after the time allowed. -/
def timeoutCode : Nat := 124

/-- The report of a session without failure. -/
def success (stdout : Stdout) (notices : List Notice) : Report :=
  ⟨successCode, stdout, notices⟩

/-- The report of a session that a failure ended. -/
def failed (stdout : Stdout) (notices : List Notice) (failure : Failure) : Report :=
  ⟨failureCode, stdout, notices ++ [.failure failure]⟩

end Report

/-- How far a session came with the instructions allowed. -/
inductive Progress where
  | finished (report : Report)
  /-- A run was still under way; standard output is as it was then. -/
  | underWay (stdout : Stdout)
  deriving DecidableEq, Repr, Inhabited

end TapeMachine
