import TapeMachine.CommandLine.Directory
import TapeMachine.Main
import TapeMachine.Proofs.Bytecode.Composition
import TapeMachine.Proofs.Bytecode.Confinement
import TapeMachine.Proofs.Bytecode.Defects
import TapeMachine.Proofs.Bytecode.Pairing
import TapeMachine.Proofs.Bytecode.RoundTrip
import TapeMachine.Proofs.CommandLine.Batch
import TapeMachine.Proofs.CommandLine.Emission
import TapeMachine.Proofs.CommandLine.Flushing
import TapeMachine.Proofs.CommandLine.Unwritable
import TapeMachine.Proofs.Compilation
import TapeMachine.Proofs.Device.Conversation
import TapeMachine.Proofs.Machine.Bare
import TapeMachine.Proofs.Machine.Intake
import TapeMachine.Proofs.Machine.Integral
import TapeMachine.Proofs.Machine.Interchange
import TapeMachine.Proofs.Machine.Onward
import TapeMachine.Proofs.Machine.Reports
import TapeMachine.Proofs.Machine.Resumption
import TapeMachine.Proofs.Machine.Transmission
import TapeMachine.Proofs.Machine.Visited
import TapeMachine.Proofs.Source.NormalForests
import TapeMachine.Proofs.Source.Relocation
import TapeMachine.Proofs.Source.Verdict
import TapeMachine.Proofs.Tape.Steps
