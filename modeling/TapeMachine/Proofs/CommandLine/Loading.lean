import TapeMachine.CommandLine.Session

/-!
# TapeMachine.Proofs.CommandLine.Loading — a file is its program

Of several files a session first looks for one that is not loaded (`exists_first_refused`).  From a
file that is loaded it keeps only the program, and the path to name it by: sessions of two files
with one program are the same, up to the name in the notices (`runSingle_relabel`).
-/

namespace TapeMachine

/-! ### The name of a file in what a session says -/

/-- The failure with another path in it, if it has one. -/
def Failure.relabel (path : String) : Failure → Failure
  | .unreadable _ error => .unreadable path error
  | .uncompilable _ error => .uncompilable path error
  | .faulted _ fault => .faulted path fault
  | .unwritable _ error => .unwritable path error
  | .outputFailed error => .outputFailed error
  | .programsFailed failed total => .programsFailed failed total
  | .timedOut milliseconds => .timedOut milliseconds

/-- The notice with another path in it, if it has one. -/
def Notice.relabel (path : String) : Notice → Notice
  | .state _ snapshot => .state path snapshot
  | .failure cause => .failure (cause.relabel path)

/-- The report with another path in its notices. -/
def Report.relabel (path : String) (report : Report) : Report :=
  { report with notices := report.notices.map (Notice.relabel path) }

/-- The progress with another path in its notices. -/
def Progress.relabel (path : String) : Progress → Progress
  | .finished report => .finished (report.relabel path)
  | .underWay stdout => .underWay stdout

namespace Session

variable {world : World} {options : Options}

/-! ### Loading -/

/-- Whether a file is loaded. -/
def Loads (world : World) (options : Options) (path : String) : Prop :=
  ∃ program, loadProgram world options path = .ok program

/-- Of files that are not all loaded, there is a first one that is not. -/
theorem exists_first_refused {paths : List String} (h : ∃ path ∈ paths, ¬ Loads world options path) :
    ∃ before path after failure, paths = before ++ path :: after ∧
      (∀ earlier ∈ before, Loads world options earlier) ∧
      loadProgram world options path = .error failure := by
  induction paths with
  | nil =>
    obtain ⟨path, hmem, -⟩ := h
    cases hmem
  | cons path rest ih =>
    cases hload : loadProgram world options path with
    | error failure => exact ⟨[], path, rest, failure, rfl, by simp, hload⟩
    | ok program =>
      obtain ⟨refused, hmem, hrefused⟩ := h
      have hrest : ∃ refused ∈ rest, ¬ Loads world options refused := by
        rcases List.mem_cons.mp hmem with rfl | hmem
        · exact absurd ⟨program, hload⟩ hrefused
        · exact ⟨refused, hmem, hrefused⟩
      obtain ⟨before, found, after, failure, rfl, hbefore, hfailure⟩ := ih hrest
      exact ⟨path :: before, found, after, failure, rfl,
        List.forall_mem_cons.mpr ⟨⟨program, hload⟩, hbefore⟩, hfailure⟩

/-! ### Running -/

/-- What a session of one file says of a delivery. -/
def conclude (delivery : Delivery ChunkedReader Stdout) : Progress :=
  match delivery.result with
  | .ok () => .finished (.success delivery.machine.output delivery.notices)
  | .error failure => .finished (.failed delivery.machine.output delivery.notices failure)

theorem conclude_relabel (path path' : String) (showState : Bool) (fault? : Option Fault)
    (machine : Machine ChunkedReader Stdout) :
    conclude (.ofRun path' showState fault? machine) =
      (conclude (.ofRun path showState fault? machine)).relabel path' := by
  unfold Delivery.ofRun
  rcases Sink.flush machine.output with ⟨error | _, output⟩ <;> cases fault? <;>
    cases showState <;> rfl

/-- With one program in two files, the sessions of the two files differ only in the name that they
call the file by. -/
theorem runSingle_relabel {world' : World} {options' : Options} {path path' : String}
    {program : Program} (hload : loadProgram world options path = .ok program)
    (hload' : loadProgram world' options' path' = .ok program) (hstdin : world'.stdin = world.stdin)
    (hstdout : world'.stdout = world.stdout) (hconfig : options'.config = options.config)
    (hstate : options'.showState = options.showState) (limit : Nat) :
    runSingle limit world' options' path' = (runSingle limit world options path).relabel path' := by
  -- once the program is loaded, the path is only a name in the notices
  unfold runSingle deliver
  rw [hload, hload', hstdin, hstdout, hconfig, hstate]
  dsimp only
  rcases ((Machine.new options.config world.stdin world.stdout).load program).run limit with
    ⟨_ | fault | _, machine⟩
  · exact conclude_relabel path path' options.showState none machine
  · exact conclude_relabel path path' options.showState (some fault) machine
  · rfl

end Session

end TapeMachine
