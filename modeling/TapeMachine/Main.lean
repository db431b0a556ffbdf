import TapeMachine.CommandLine.Session

/-!
# TapeMachine.Main — the command line program

Reads the files that the arguments name, and standard input where it is asked for, lets the session
decide, and writes what it leaves behind.  A session that is still under way is tried again with
twice the instructions, until it is finished or the time allowed is over.
-/

namespace TapeMachine

namespace Main

/-- How arguments are written. -/
def usage : String :=
  "usage: tape-machine [--eof N] [--tape-len N] [--timeout-ms N] " ++
    "[--instructions] [--emit] [--state] [--] FILE..."

/-- The error of the system as the session shows it. -/
def ioError : IO.Error → IoError
  | .noFileOrDirectory .. => .noSuchFile
  | .inappropriateType .. => .isDirectory
  | .permissionDenied .. => ⟨.permissionDenied, "Permission denied (os error 13)"⟩
  | error => ⟨.other, toString error⟩

/-- The bytes of a file. -/
def readFile (path : String) : IO (Except IoError (List UInt8)) := do
  try return .ok (← IO.FS.readBinFile path).toList
  catch error => return .error (ioError error)

/-- What the session finds around it. -/
def world (options : Options) : IO World := do
  let files ← options.files.mapM fun path => do return (path, ← readFile path)
  let stdin ←
    if options.emit ∨ options.files.length ≠ 1 then pure []
    else (·.toList) <$> (← IO.getStdin).readBinToEnd
  return {
    read := fun path => (files.lookup path).getD (.error .noSuchFile)
    stdin := .ofList stdin
    stdout := .onDevice .accepting }

/-- Runs the session with more and more instructions. -/
partial def attempt (world : World) (options : Options) (start limit : Nat) : IO Report := do
  match Session.run limit world options with
  | .finished report => return report
  | .underWay stdout =>
    match options.timeout with
    | some milliseconds =>
      if milliseconds ≤ (← IO.monoMsNow) - start then return Session.timedOut stdout milliseconds
      else attempt world options start (2 * limit)
    | none => attempt world options start (2 * limit)

end Main

end TapeMachine

open TapeMachine in
/-- Runs a session on the arguments. -/
def main (arguments : List String) : IO UInt32 := do
  let start ← IO.monoMsNow
  match Options.ofArguments? arguments with
  | none =>
    IO.eprintln Main.usage
    return Report.usageCode.toUInt32
  | some options =>
    let report ← Main.attempt (← Main.world options) options start 1000000
    let stdout ← IO.getStdout
    stdout.write ⟨report.stdout.device.received.bytes⟩
    stdout.flush
    for notice in report.notices do
      IO.eprintln notice.text
    return report.exitCode.toUInt32
