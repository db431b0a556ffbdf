import TapeMachine.CommandLine.BatchRun
import TapeMachine.CommandLine.Delivery
import TapeMachine.CommandLine.Options
import TapeMachine.CommandLine.Report
import TapeMachine.Text.Utf8

/-!
# TapeMachine.CommandLine.Session — what one invocation does

One file is run with standard input and standard output.  Several files are all loaded first, then
each is run on a machine of its own with no input, and their outputs are written in the order of the
arguments.  With `--emit` nothing is run and listings are written.

Every run is allowed a number of instructions.  When a run has used them up, the session is not
finished, and what it would leave behind if it were stopped now is its answer.
-/

namespace TapeMachine

namespace Session

/-- The program of a file. -/
def loadProgram (world : World) (options : Options) (path : String) : Except Failure Program := do
  let bytes ← (world.read path).mapError (.unreadable path)
  if options.instructions then (Program.ofListing (Utf8.decode bytes)).mapError (.faulted path)
  else (compile bytes).mapError (.uncompilable path)

/-- Writes the listing of each file in turn, one on a line. -/
def emit (world : World) (options : Options) : List String → Stdout → Report
  | [], stdout => .success stdout []
  | path :: paths, stdout =>
    match loadProgram world options path with
    | .error failure => .failed stdout [] failure
    | .ok program =>
      let written := Stdout.andThen (stdout.writeAll (Utf8.encode program.listingText))
        (·.writeAll [Stdout.lineBreak])
      match written with
      | (.ok (), stdout) => emit world options paths stdout
      | (.error error, stdout) => .failed stdout [] (.outputFailed error)

/-- Runs one file with standard input and standard output. -/
def runSingle (limit : Nat) (world : World) (options : Options) (path : String) : Progress :=
  match loadProgram world options path with
  | .error failure => .finished (.failed world.stdout [] failure)
  | .ok program =>
    match deliver limit path program world.stdin world.stdout options.config options.showState with
    | .error machine => .underWay machine.output
    | .ok delivery =>
      match delivery.result with
      | .ok () => .finished (.success delivery.machine.output delivery.notices)
      | .error failure =>
        .finished (.failed delivery.machine.output delivery.notices failure)

/-- Runs several files without input and writes their outputs when all runs have ended. -/
def runBatch (limit : Nat) (world : World) (options : Options) : Progress :=
  let loaded := options.files.mapM fun path =>
    (loadProgram world options path).map (path, ·)
  match loaded with
  | .error failure => .finished (.failed world.stdout [] failure)
  | .ok programs =>
    let finished := programs.mapM fun (path, program) =>
      BatchRun.ofProgram? limit options.config path program
    match finished with
    | none => .underWay world.stdout
    | some runs =>
      let failed := runs.countP (·.fault?.isSome)
      match BatchRun.writeAll options.showState runs world.stdout [] with
      | (.error error, stdout, notices) =>
        .finished (.failed stdout notices (.outputFailed error))
      | (.ok (), stdout, notices) =>
        if failed = 0 then .finished (.success stdout notices)
        else .finished (.failed stdout notices (.programsFailed failed runs.length))

/-- Does what the options ask for. -/
def run (limit : Nat) (world : World) (options : Options) : Progress :=
  if options.emit then .finished (emit world options options.files world.stdout)
  else match options.files with
    | [path] => runSingle limit world options path
    | _ => runBatch limit world options

/-- What a session leaves behind when the time allowed is over while a run is under way.  Bytes
held back from the device are lost. -/
def timedOut (stdout : Stdout) (milliseconds : Nat) : Report :=
  ⟨Report.timeoutCode, stdout, [.failure (.timedOut milliseconds)]⟩

/-- What a session leaves behind when the arguments are a usage error. -/
def misused (world : World) : Report := ⟨Report.usageCode, world.stdout, []⟩

end Session

end TapeMachine
