import TapeMachine.Proofs.CommandLine.Batch
import TapeMachine.Proofs.Device.Refusing

/-!
# TapeMachine.Proofs.CommandLine.Unwritable — a batch whose output fails

The outputs of a batch are written one after the other, each before what is said of its run.  The
first that cannot be written ends the batch, so the programs before it are told of and those from it
on are not (`batch_tells_written`), although a program alone is told of in any case
(`batch_hides_fault`).
-/

namespace TapeMachine

/-- Whether these outputs, one after the other, can be written to standard output on the device. -/
def Device.Carries (device : Device) (outputs : List (List UInt8)) : Prop :=
  device.full = true → Stdout.Retainable outputs

namespace BatchRun

/-- What a run says is among what a batch says. -/
structure Told (showState : Bool) (notices : List Notice) (run : BatchRun) : Prop where
  fault : ∀ fault, run.fault? = some fault → .failure (.faulted run.path fault) ∈ notices
  state : showState = true → .state run.path run.snapshot ∈ notices

theorem told_of_mem {showState : Bool} {runs : List BatchRun} {run : BatchRun} (hmem : run ∈ runs)
    (more : List Notice) : run.Told showState (runs.flatMap (·.notices showState) ++ more) := by
  have hsubset : ∀ notice ∈ run.notices showState,
      notice ∈ runs.flatMap (·.notices showState) ++ more := fun notice hnotice =>
    List.mem_append_left _ (List.mem_flatMap.mpr ⟨run, hmem, hnotice⟩)
  constructor
  · intro fault hfault
    apply hsubset
    simp [notices, hfault]
  · rintro rfl
    apply hsubset
    simp [notices]

/-- How a batch is written: up to the first output that the device does not carry beside those
before it. -/
structure Splits (device : Device) (before : List (List UInt8))
    (runs written unwritten : List BatchRun) : Prop where
  all : runs = written ++ unwritten
  carries : device.Carries (before ++ written.map (·.output))
  stops : ∀ run rest, unwritten = run :: rest →
    ¬ device.Carries (before ++ written.map (·.output) ++ [run.output])

/-- Whether standard output fails in the end. -/
def Unsent (device : Device) (outputs : List (List UInt8)) (unwritten : List BatchRun) : Prop :=
  device.full = true ∧ (outputs.flatten ≠ [] ∨ unwritten ≠ [])

instance (device : Device) (outputs : List (List UInt8)) (unwritten : List BatchRun) :
    Decidable (Unsent device outputs unwritten) :=
  inferInstanceAs (Decidable (_ ∧ _))

theorem Splits.unwritten_of_accepting {device : Device} {before : List (List UInt8)}
    {runs written unwritten : List BatchRun} (h : Splits device before runs written unwritten)
    (hdevice : device.full = false) : unwritten = [] := by
  cases unwritten with
  | nil => rfl
  | cons run rest =>
    refine absurd (fun hfull => ?_) (h.stops run rest rfl)
    rw [hdevice] at hfull
    cases hfull

theorem Splits.unwritten_of_sent {device : Device} {before outputs : List (List UInt8)}
    {runs written unwritten : List BatchRun} (h : Splits device before runs written unwritten)
    (hsent : ¬ Unsent device outputs unwritten) : unwritten = [] := by
  cases hdevice : device.full with
  | false => exact h.unwritten_of_accepting hdevice
  | true =>
    by_contra hne
    exact hsent ⟨hdevice, .inr hne⟩

theorem Splits.nil {device : Device} {before : List (List UInt8)} (h : device.Carries before) :
    Splits device before [] [] [] := by
  refine ⟨rfl, ?_, nofun⟩
  rwa [List.map_nil, List.append_nil]

theorem Splits.cons {device : Device} {before : List (List UInt8)} {run : BatchRun}
    {runs written unwritten : List BatchRun}
    (h : Splits device (before ++ [run.output]) runs written unwritten) :
    Splits device before (run :: runs) (run :: written) unwritten := by
  obtain ⟨rfl, hcarries, hstops⟩ := h
  have houtputs : before ++ (run :: written).map (·.output) =
      before ++ [run.output] ++ written.map (·.output) := by
    rw [List.append_assoc, List.map_cons, List.singleton_append]
  refine ⟨rfl, ?_, ?_⟩ <;> rw [houtputs]
  · exact hcarries
  · exact hstops

theorem Splits.stop {device : Device} {before : List (List UInt8)} {run : BatchRun}
    (runs : List BatchRun) (h : device.Carries before)
    (hrun : ¬ device.Carries (before ++ [run.output])) :
    Splits device before (run :: runs) [] (run :: runs) := by
  refine ⟨rfl, ?_, ?_⟩
  · rwa [List.map_nil, List.append_nil]
  · rintro _ _ ⟨⟩
    rwa [List.map_nil, List.append_nil]

/-- A device that takes nothing takes none of the outputs, and what is said is said of the runs
whose outputs could be held back. -/
theorem writeAll_holding (showState : Bool) (runs : List BatchRun) {stdout : Stdout}
    {before : List (List UInt8)} (h : stdout.Holding before) (notices : List Notice) :
    ∃ written unwritten after, Splits stdout.device before runs written unwritten ∧
      after.device = stdout.device ∧
      writeAll showState runs stdout notices =
        (if Unsent stdout.device (before ++ written.map (·.output)) unwritten then
          .error .noSpaceLeft else .ok (),
        after, notices ++ written.flatMap (·.notices showState)) := by
  induction runs generalizing stdout before notices with
  | nil =>
    have hsplits := Splits.nil fun _ : stdout.device.full = true => h.retainable
    by_cases hheld : stdout.held.toList = []
    · refine ⟨[], [], { stdout with held := .empty }, hsplits, rfl, ?_⟩
      have hsent : ¬ Unsent stdout.device (before ++ ([] : List BatchRun).map (·.output)) [] := by
        simpa [Unsent, ← h.held] using fun _ => hheld
      unfold writeAll
      rw [Stdout.flush_of_nothing hheld, if_neg hsent, List.flatMap_nil, List.append_nil]
    · obtain ⟨after, hflush, hdevice⟩ := Stdout.refused_flush h.full hheld
      refine ⟨[], [], after, hsplits, hdevice, ?_⟩
      have hunsent : Unsent stdout.device (before ++ ([] : List BatchRun).map (·.output)) [] := by
        refine ⟨h.full, .inl ?_⟩
        rwa [List.map_nil, List.append_nil, ← h.held]
      unfold writeAll
      rw [hflush, if_pos hunsent, List.flatMap_nil, List.append_nil]
  | cons run runs ih =>
    by_cases hretainable : Stdout.Retainable (before ++ [run.output])
    · obtain ⟨between, hwritten, hbetween, hdevice⟩ := h.writeAll_retainable hretainable
      obtain ⟨written, unwritten, after, hsplits, hafter, hrest⟩ :=
        ih hbetween (notices ++ run.notices showState)
      rw [hdevice] at hsplits hafter hrest
      refine ⟨run :: written, unwritten, after, hsplits.cons, hafter, ?_⟩
      unfold writeAll
      rw [hwritten]
      dsimp only
      rw [hrest, List.append_assoc, List.append_assoc, List.flatMap_cons, List.map_cons,
        List.singleton_append]
    · obtain ⟨after, hrefused, hdevice⟩ := h.refused_writeAll hretainable
      refine ⟨[], run :: runs, after,
        .stop runs (fun _ => h.retainable) fun hcarries => hretainable (hcarries h.full),
        hdevice, ?_⟩
      unfold writeAll
      rw [hrefused, if_pos ⟨h.full, .inr (List.cons_ne_nil _ _)⟩, List.flatMap_nil, List.append_nil]

/-- On standard output with nothing held back. -/
theorem writeAll_onDevice (showState : Bool) (runs : List BatchRun) (device : Device) :
    ∃ written unwritten after, Splits device [] runs written unwritten ∧
      (device.full = true → after.device = device) ∧
      writeAll showState runs (.onDevice device) [] =
        (if Unsent device (written.map (·.output)) unwritten then .error .noSpaceLeft else .ok (),
        after, written.flatMap (·.notices showState)) := by
  by_cases hfull : device.full = true
  · obtain ⟨written, unwritten, after, hsplits, hdevice, hwritten⟩ :=
      writeAll_holding showState runs (Stdout.holding_onDevice hfull) []
    exact ⟨written, unwritten, after, hsplits, fun _ => hdevice, hwritten⟩
  · have haccepting : (Stdout.onDevice device).Accepting := (Bool.not_eq_true _).mp hfull
    have hsent : ¬ Unsent device (runs.map (·.output)) [] := fun h => hfull h.1
    obtain ⟨after, hwritten⟩ : ∃ after, writeAll showState runs (.onDevice device) [] =
        (.ok (), after, runs.flatMap (·.notices showState)) :=
      ⟨_, writeAll_accepting showState runs haccepting []⟩
    refine ⟨runs, [], after, ⟨(List.append_nil _).symm, fun h => absurd h hfull, nofun⟩,
      fun h => absurd h hfull, ?_⟩
    rw [hwritten, if_neg hsent]

end BatchRun

/-- The report of a session that a failure ended, if there is one. -/
def Report.ended (stdout : Stdout) (notices : List Notice) : Option Failure → Report
  | none => .success stdout notices
  | some failure => .failed stdout notices failure

@[simp] theorem Report.notices_ended (stdout : Stdout) (notices : List Notice)
    (failure? : Option Failure) : (ended stdout notices failure?).notices =
      notices ++ failure?.toList.map .failure := by
  cases failure? with
  | none => exact (List.append_nil _).symm
  | some failure => rfl

@[simp] theorem Report.stdout_ended (stdout : Stdout) (notices : List Notice)
    (failure? : Option Failure) : (ended stdout notices failure?).stdout = stdout := by
  cases failure? <;> rfl

theorem Report.exitCode_ended (stdout : Stdout) (notices : List Notice)
    (failure? : Option Failure) :
    (ended stdout notices failure?).exitCode = successCode ↔ failure? = none := by
  cases failure? with
  | none => exact iff_of_true rfl rfl
  | some failure => exact iff_of_false nofun nofun

namespace Session

variable {world : World} {options : Options} {limit : Nat}

open BatchRun (Splits Unsent)

/-- The failure that a batch ends with when all its runs have ended. -/
def batchFailure? (device : Device) (written unwritten : List BatchRun) : Option Failure :=
  let failed := written.countP (·.fault?.isSome)
  if Unsent device (written.map (·.output)) unwritten then some (.outputFailed .noSpaceLeft)
  else if failed = 0 then none
  else some (.programsFailed failed written.length)

/-- What a batch leaves behind when all its runs have ended, whatever the device takes. -/
theorem runBatch_onDevice {device : Device} (hstdout : world.stdout = .onDevice device)
    {programs : List (String × Program)}
    (hloads : options.files.mapM (loadEntry world options) = .ok programs) (runs : List BatchRun) :
    ∃ written unwritten after, Splits device [] runs written unwritten ∧
      (device.full = true → after.device = device) ∧
      ∀ limit, programs.mapM (fun (path, program) =>
        BatchRun.ofProgram? limit options.config path program) = some runs →
        runBatch limit world options = .finished (.ended after
          (written.flatMap (·.notices options.showState))
          (batchFailure? device written unwritten)) := by
  obtain ⟨written, unwritten, after, hsplits, hdevice, hwritten⟩ :=
    BatchRun.writeAll_onDevice options.showState runs device
  refine ⟨written, unwritten, after, hsplits, hdevice, fun limit hruns => ?_⟩
  rw [← hstdout] at hwritten
  unfold batchFailure?
  by_cases hunsent : Unsent device (written.map (·.output)) unwritten
  · rw [if_pos hunsent] at hwritten ⊢
    exact runBatch_of_unwritten hloads hruns hwritten
  · have hall : runs = written := by
      have hnone := hsplits.unwritten_of_sent hunsent
      rw [hsplits.all, hnone, List.append_nil]
    rw [if_neg hunsent] at hwritten ⊢
    rw [runBatch_of_written hloads hruns hwritten, hall]
    split <;> rfl

/-- A batch tells of its programs as far as their outputs can be written.  On a device that takes
everything, these are all of them.  On a device that takes nothing, an output can be written as long
as it can be held back, and the first that cannot ends the batch: neither its own program nor any
after it is told of, and the failure of standard output is all that is said. -/
theorem batch_tells_written {device : Device} (hstdout : world.stdout = .onDevice device)
    (hemit : options.emit = false) (hmany : 2 ≤ options.files.length) {runs : List BatchRun}
    (hruns : List.Forall₂ (Runs world options) options.files runs) :
    ∃ written unwritten report, Splits device [] runs written unwritten ∧
      (device.full = false → unwritten = []) ∧
      (∃ least, ∀ limit, least ≤ limit → run limit world options = .finished report) ∧
      report.notices = written.flatMap (·.notices options.showState) ++
        (batchFailure? device written unwritten).toList.map .failure ∧
      (∀ run ∈ written, run.Told options.showState report.notices) ∧
      (report.exitCode = Report.successCode ↔ batchFailure? device written unwritten = none) ∧
      (device.full = true → report.stdout.device = device) := by
  obtain ⟨programs, hloads, least, hends⟩ := exists_programs_of_runs hruns
  obtain ⟨written, unwritten, after, hsplits, hdevice, hbatch⟩ :=
    runBatch_onDevice hstdout hloads runs
  refine ⟨written, unwritten, .ended after (written.flatMap (·.notices options.showState))
    (batchFailure? device written unwritten), hsplits, hsplits.unwritten_of_accepting,
    ⟨least, fun limit hle => ?_⟩, Report.notices_ended .., ?_, Report.exitCode_ended .., ?_⟩
  · rw [run_eq_runBatch hemit hmany]
    exact hbatch limit (hends limit hle)
  · intro run hmem
    rw [Report.notices_ended]
    exact BatchRun.told_of_mem hmem _
  · intro hfull
    rw [Report.stdout_ended]
    exact hdevice hfull

/-- The first of three programs writes a byte and faults, the second writes a line break, and the
third faults. -/
theorem batch_tells_written_refusing :
    let contents := fun path : String => if path = "held" then [43, 46, 60]
      else if path = "line" then List.replicate 10 43 ++ [46] else [60]
    let world : World := ⟨fun path => .ok (contents path), .ofList [], .onDevice .refusing⟩
    let options : Options := ⟨0, false, false, true, none, 1, ["held", "line", "fault"]⟩
    let fault : Fault := .memoryOutOfBounds 0 (-1)
    ∃ report, (∃ least, ∀ limit, least ≤ limit → run limit world options = .finished report) ∧
      report.notices = [.state "held" ⟨0, 1, 2, some 1⟩, .failure (.faulted "held" fault),
        .failure (.outputFailed .noSpaceLeft)] := by
  intro contents world options fault
  let held : BatchRun := ⟨"held", [1], ⟨0, 1, 2, some 1⟩, some fault⟩
  let line : BatchRun := ⟨"line", [10], ⟨0, 1, 2, some 10⟩, none⟩
  let faulted : BatchRun := ⟨"fault", [], ⟨0, 1, 0, some 0⟩, some fault⟩
  have hheld : Runs world options "held" held :=
    ⟨.ofList [⟨0, 1⟩, ⟨3, 1⟩, ⟨1, -1⟩], by decide +kernel, 3, by decide +kernel⟩
  have hline : Runs world options "line" line :=
    ⟨.ofList [⟨0, 10⟩, ⟨3, 1⟩], by decide +kernel, 3, by decide +kernel⟩
  have hfaulted : Runs world options "fault" faulted :=
    ⟨.ofList [⟨1, -1⟩], by decide +kernel, 1, by decide +kernel⟩
  obtain ⟨written, unwritten, report, ⟨hall, hcarries, hstops⟩, -, hrun, hnotices, -⟩ :=
    @batch_tells_written world options .refusing rfl rfl (by decide) [held, line, faulted]
      (.cons hheld (.cons hline (.cons hfaulted .nil)))
  refine ⟨report, hrun, hnotices.trans ?_⟩
  rcases written with _ | ⟨first, _ | ⟨second, rest⟩⟩
  · exact absurd (fun _ => by decide) (hstops held [line, faulted] hall.symm)
  · cases hall
    decide +kernel
  · obtain ⟨-, hsecond⟩ := List.cons.inj hall
    obtain ⟨rfl, -⟩ := List.cons.inj hsecond
    have hline := (hcarries rfl).1 [10] (by simp [line])
    exact absurd hline (by decide)

/-- A program that writes a line break hides the fault of the program after it: alone, on the same
device, that program is told of. -/
theorem batch_hides_fault :
    let contents := fun path : String =>
      if path = "line" then List.replicate 10 43 ++ [46] else [60]
    let world : World := ⟨fun path => .ok (contents path), .ofList [], .onDevice .refusing⟩
    let options : Options := ⟨0, false, false, true, none, 1, ["line", "fault"]⟩
    let faulted : BatchRun := ⟨"fault", [], ⟨0, 1, 0, some 0⟩, some (.memoryOutOfBounds 0 (-1))⟩
    Runs world options "line" ⟨"line", [10], ⟨0, 1, 2, some 10⟩, none⟩ ∧
      Runs world options "fault" faulted ∧
      (∃ stdout, run 3 world options =
        .finished ⟨Report.failureCode, stdout, [.failure (.outputFailed .noSpaceLeft)]⟩) ∧
      ¬ faulted.Told true [.failure (.outputFailed .noSpaceLeft)] ∧
      ∃ report, alone 3 world options "fault" = .finished report ∧
        faulted.Told true report.notices := by
  intro contents world options faulted
  have hline : Runs world options "line" ⟨"line", [10], ⟨0, 1, 2, some 10⟩, none⟩ :=
    ⟨.ofList [⟨0, 10⟩, ⟨3, 1⟩], by decide +kernel, 3, by decide +kernel⟩
  have hfaulted : Runs world options "fault" faulted :=
    ⟨.ofList [⟨1, -1⟩], by decide +kernel, 1, by decide +kernel⟩
  have hhidden : ¬ faulted.Told true [.failure (.outputFailed .noSpaceLeft)] := by
    intro htold
    have hmem := htold.state rfl
    simp at hmem
  have halone : alone 3 world options "fault" =
      .finished ⟨Report.failureCode, .onDevice .refusing, faulted.notices true⟩ := by decide +kernel
  refine ⟨hline, hfaulted, ⟨.onDevice .refusing, by decide +kernel⟩, hhidden, _, halone, ?_, ?_⟩
  · rintro fault ⟨⟩
    decide
  · intro _
    decide

end Session

end TapeMachine
