import TapeMachine.CommandLine.Failure
import TapeMachine.Machine.Run

/-!
# TapeMachine.CommandLine.Delivery — one program run to its end, and its output flushed

The output is flushed once, after the run and whatever its end.  Of two failures the fault of the
run is the result, and the failure of the flush is still told.
-/

namespace TapeMachine

/-- A finished run whose output has been flushed. -/
structure Delivery (ι σ : Type) where
  result : Except Failure Unit
  machine : Machine ι σ
  /-- What went to the error stream, in order; the failure in `result` is not among it. -/
  notices : List Notice

/-- Flushes the output after a run, whether or not the run faulted.  A fault is the result even if
flushing fails as well; that failure then becomes a notice. -/
def Delivery.ofRun {ι σ : Type} [Sink σ] (path : String) (showState : Bool) (fault? : Option Fault)
    (machine : Machine ι σ) : Delivery ι σ :=
  let (flushed, output) := Sink.flush machine.output
  let machine := { machine with output }
  let states := if showState then [.state path machine.snapshot] else []
  match fault?, flushed with
  | some fault, .ok () => ⟨.error (.faulted path fault), machine, states⟩
  | some fault, .error error =>
    ⟨.error (.faulted path fault), machine, states ++ [.failure (.unwritable path error)]⟩
  | none, .error error => ⟨.error (.unwritable path error), machine, states⟩
  | none, .ok () => ⟨.ok (), machine, states⟩

/-- Runs a program to its end and flushes its output.  A run that is stopped gives the machine as it
is then. -/
def deliver {ι σ : Type} [Input ι] [Sink σ] (limit : Nat) (path : String) (program : Program)
    (input : ι) (output : σ) (config : Config) (showState : Bool) :
    Except (Machine ι σ) (Delivery ι σ) :=
  match ((Machine.new config input output).load program).run limit with
  | (.halted, machine) => .ok (.ofRun path showState none machine)
  | (.faulted fault, machine) => .ok (.ofRun path showState (some fault) machine)
  | (.stopped, machine) => .error machine

end TapeMachine
