import TapeMachine.CommandLine.Failure
import TapeMachine.Device.Stdout
import TapeMachine.Machine.Run

/-!
# TapeMachine.CommandLine.BatchRun — one of several programs

Each program of a batch runs on a machine of its own, without input and with its output kept in
memory.  Outputs are written when every run has ended.
-/

namespace TapeMachine

/-- A finished run of one program of several. -/
structure BatchRun where
  path : String
  output : List UInt8
  snapshot : Snapshot
  fault? : Option Fault
  deriving DecidableEq, Repr, Inhabited

namespace BatchRun

/-- Runs a program without input; none when the run is stopped. -/
def ofProgram? (limit : Nat) (config : Config) (path : String) (program : Program) :
    Option BatchRun :=
  let machine := (Machine.new config (ByteBlock.ofList []) ByteBuffer.empty).load program
  match machine.run limit with
  | (.halted, machine) => some ⟨path, machine.output.toList, machine.snapshot, none⟩
  | (.faulted fault, machine) => some ⟨path, machine.output.toList, machine.snapshot, some fault⟩
  | (.stopped, _) => none

/-- What a run says on the error stream. -/
def notices (showState : Bool) (run : BatchRun) : List Notice :=
  (if showState then [.state run.path run.snapshot] else []) ++
    (run.fault?.map fun fault => .failure (.faulted run.path fault)).toList

/-- Writes the outputs of runs in order, each before the notices of its run.  An output that cannot
be written ends it, and the notices are those of the runs before. -/
def writeAll (showState : Bool) : List BatchRun → Stdout → List Notice →
    Except IoError Unit × Stdout × List Notice
  | [], stdout, notices =>
    let (result, stdout) := stdout.flush
    (result, stdout, notices)
  | run :: runs, stdout, notices =>
    match stdout.writeAll run.output with
    | (.ok (), stdout) => writeAll showState runs stdout (notices ++ run.notices showState)
    | (.error error, stdout) => (.error error, stdout, notices)

end BatchRun

end TapeMachine
