import TapeMachine.Proofs.Bytecode.Validation
import TapeMachine.Proofs.CommandLine.Loading
import TapeMachine.Proofs.Device.Stdout
import TapeMachine.Proofs.Machine.Interchange
import TapeMachine.Proofs.Text.Printable

/-!
# TapeMachine.Proofs.CommandLine.Batch — several programs at once

A program of a batch runs without input and into memory; alone and with nothing on standard input
it runs into standard output.  Both machines are twins, so a file has one report either way
(`BatchRun.report`, `runSingle_eq`), and a batch writes what its reports say, one after the
other (`batch_concatenates`).
-/

namespace TapeMachine

/-- How a run ends by itself: it halts if there is no fault. -/
def Machine.Outcome.ended : Option Fault → Machine.Outcome
  | none => .halted
  | some fault => .faulted fault

namespace BatchRun

variable {limit : Nat} {config : Config} {path : String} {program : Program} {run : BatchRun}

/-- The machine on which a program of a batch is started. -/
def start (config : Config) (program : Program) : Machine ByteBlock ByteBuffer :=
  (Machine.new config (.ofList []) .empty).load program

theorem ofProgram?_eq_some_iff : ofProgram? limit config path program = some run ↔
    ∃ fault? machine, (start config program).run limit = (.ended fault?, machine) ∧
      run = ⟨path, machine.output.toList, machine.snapshot, fault?⟩ := by
  unfold ofProgram? start
  dsimp only
  rcases ((Machine.new config (ByteBlock.ofList []) ByteBuffer.empty).load program).run limit
    with ⟨_ | fault | _, machine⟩
  · constructor
    · intro h
      exact ⟨none, machine, rfl, (Option.some.inj h).symm⟩
    · rintro ⟨_ | fault, machine, h, rfl⟩ <;> cases h
      rfl
  · constructor
    · intro h
      exact ⟨some fault, machine, rfl, (Option.some.inj h).symm⟩
    · rintro ⟨_ | fault, machine, h, rfl⟩ <;> cases h
      rfl
  · constructor
    · intro h
      cases h
    · rintro ⟨_ | fault, machine, h, rfl⟩ <;> cases h

/-- A run that has ended is the same with more instructions allowed. -/
theorem ofProgram?_mono {limit' : Nat} (hle : limit ≤ limit')
    (h : ofProgram? limit config path program = some run) :
    ofProgram? limit' config path program = some run := by
  obtain ⟨fault?, machine, hrun, rfl⟩ := ofProgram?_eq_some_iff.mp h
  have hended : ((start config program).run limit).1 ≠ .stopped := by
    rw [hrun]
    cases fault? <;> simp [Machine.Outcome.ended]
  have hmore := Machine.run_of_ended hended (limit' - limit)
  rw [Nat.add_sub_cancel' hle, hrun] at hmore
  exact ofProgram?_eq_some_iff.mpr ⟨fault?, machine, hmore, rfl⟩

/-- What the program of a run leaves behind when it runs alone. -/
def report (showState : Bool) (run : BatchRun) : Report where
  exitCode := if run.fault?.isSome then Report.failureCode else Report.successCode
  stdout := .delivered run.output
  notices := run.notices showState

/-- A device that takes everything takes the outputs of all runs. -/
theorem writeAll_accepting (showState : Bool) (runs : List BatchRun) {stdout : Stdout}
    (h : stdout.Accepting) (notices : List Notice) :
    writeAll showState runs stdout notices =
      (.ok (), .delivered (stdout.taken ++ runs.flatMap (·.output)),
        notices ++ runs.flatMap (·.notices showState)) := by
  induction runs generalizing stdout notices with
  | nil =>
    unfold writeAll
    rw [Stdout.flush_accepting h]
    simp
  | cons run runs ih =>
    obtain ⟨after, hwritten, haccepting, htaken⟩ := Stdout.succeeds_writeAll h run.output
    unfold writeAll
    rw [hwritten]
    dsimp only
    rw [ih haccepting, htaken]
    simp

end BatchRun

/-! ### Messages -/

namespace Notice

/-- A message of printable characters is one line on the error stream, as it is. -/
theorem lines_failure {cause : Failure} {diagnose : Diagnosis}
    (h : ∀ c ∈ (cause.message diagnose).toList, Printable c) :
    (failure cause).lines diagnose = ["ERROR " ++ cause.message diagnose] := by
  have htext : (failure cause).text diagnose = "ERROR " ++ cause.message diagnose := by
    show "ERROR " ++ toString (ControlEscape.encode (cause.message diagnose)) = _
    rw [encode_of_printable h]
    rfl
  unfold lines
  rw [htext]
  apply Lines.ofText_of_printable
  intro c hc
  rw [String.toList_append] at hc
  rcases List.mem_append.mp hc with hc | hc
  · have hword : ∀ d ∈ "ERROR ".toList, Printable d := forall_printable rfl
    exact hword c hc
  · exact h c hc

theorem lines_programsFailed (failed total : Nat) (diagnose : Diagnosis) :
    (failure (.programsFailed failed total)).lines diagnose =
      [s!"ERROR {failed} of {total} programs failed"] := by
  have hmessage : (Failure.programsFailed failed total).message diagnose =
      toString failed ++ " of " ++ toString total ++ " programs failed" := rfl
  rw [lines_failure]
  · rw [hmessage, ← String.append_assoc, ← String.append_assoc, ← String.append_assoc]
    rfl
  · intro c hc
    rw [hmessage] at hc
    simp only [String.toList_append, List.mem_append] at hc
    have hof : ∀ d ∈ " of ".toList, Printable d := forall_printable rfl
    have hwords : ∀ d ∈ " programs failed".toList, Printable d := forall_printable rfl
    rcases hc with ((hc | hc) | hc) | hc
    · exact printable_of_mem_toString hc
    · exact hof c hc
    · exact printable_of_mem_toString hc
    · exact hwords c hc

end Notice

/-- The lines on the error stream. -/
def Report.errorLines (report : Report) (diagnose : Diagnosis := .silent) : List String :=
  report.notices.flatMap (·.lines diagnose)

theorem Report.errorLines_failed (stdout : Stdout) (notices : List Notice) (cause : Failure)
    (diagnose : Diagnosis) :
    (Report.failed stdout notices cause).errorLines diagnose =
      notices.flatMap (·.lines diagnose) ++ (Notice.failure cause).lines diagnose := by
  simp [Report.failed, Report.errorLines, List.flatMap_append]

/-! ### A program alone -/

/-- Standard output has taken what a buffer holds. -/
def Stdout.Mirrors (stdout : Stdout) (buffer : ByteBuffer) : Prop :=
  stdout.Accepting ∧ stdout.taken = buffer.toList

theorem takesAlike_mirrors : TakesAlike Stdout.Mirrors := by
  rintro stdout buffer ⟨h, htaken⟩ batch
  obtain ⟨after, hwritten, haccepting, hafter⟩ := Stdout.succeeds_writeAll h batch
  have hanswer : Output.write stdout batch = (.ok (), after) := hwritten
  rw [hanswer]
  refine ⟨rfl, haccepting, ?_⟩
  show after.taken = (buffer.append batch).toList
  rw [hafter, htaken, ByteBuffer.toList_append]

theorem deliver_of_ended {ι σ : Type} [Input ι] [Sink σ] {limit : Nat} {path : String}
    {program : Program} {input : ι} {output : σ} {config : Config} {showState : Bool}
    {fault? : Option Fault} {machine : Machine ι σ}
    (h : ((Machine.new config input output).load program).run limit = (.ended fault?, machine)) :
    deliver limit path program input output config showState =
      .ok (.ofRun path showState fault? machine) := by
  unfold deliver
  rw [h]
  cases fault? <;> rfl

namespace Session

variable {world : World} {options : Options} {path : String} {program : Program} {limit : Nat}

theorem runSingle_of_ended (hload : loadProgram world options path = .ok program)
    {fault? : Option Fault} {machine : Machine ChunkedReader Stdout}
    (hrun : ((Machine.new options.config world.stdin world.stdout).load program).run limit =
      (.ended fault?, machine)) (haccepting : machine.output.Accepting) :
    runSingle limit world options path = .finished (BatchRun.report options.showState
      ⟨path, machine.output.taken, machine.snapshot, fault?⟩) := by
  have hflush : Sink.flush machine.output = (.ok (), Stdout.delivered machine.output.taken) :=
    Stdout.flush_accepting haccepting
  unfold runSingle
  rw [hload]
  dsimp only
  rw [deliver_of_ended hrun]
  dsimp only
  unfold Delivery.ofRun
  rw [hflush]
  cases fault? with
  | none =>
    simp only [Report.success, BatchRun.report, BatchRun.notices, Option.map_none, Option.toList_none,
      List.append_nil]
    rfl
  | some fault => rfl

theorem twins_start (hstdin : world.stdin = .ofList [])
    (hstdout : world.stdout = .onDevice .accepting) (config : Config) (program : Program) :
    Machine.Twins (Interchangeable ChunkedReader.Holds ByteBlock.Holds) Stdout.Mirrors
      ((Machine.new config world.stdin world.stdout).load program)
      (BatchRun.start config program) := by
  have hinput : Interchangeable ChunkedReader.Holds ByteBlock.Holds world.stdin (.ofList []) := by
    rw [hstdin]
    exact ⟨[], ⟨rfl, .nil⟩, rfl⟩
  have houtput : Stdout.Mirrors world.stdout .empty := by
    rw [hstdout]
    exact ⟨rfl, rfl⟩
  exact (Machine.Twins.new hinput houtput config).load program

/-- What a file leaves behind alone, with nothing on standard input, is the report of its run in a
batch; and it is not finished when the run in a batch is not. -/
theorem runSingle_eq (hstdin : world.stdin = .ofList [])
    (hstdout : world.stdout = .onDevice .accepting)
    (hload : loadProgram world options path = .ok program) (limit : Nat) :
    match BatchRun.ofProgram? limit options.config path program with
    | some run => runSingle limit world options path = .finished (run.report options.showState)
    | none => ∃ stdout, runSingle limit world options path = .underWay stdout := by
  obtain ⟨houtcome, hafter⟩ := (twins_start hstdin hstdout options.config program).run
    (answersAlike_of_supplies supplies_reader supplies_block) takesAlike_mirrors limit
  cases h : BatchRun.ofProgram? limit options.config path program with
  | some run =>
    obtain ⟨fault?, machine, hrun, rfl⟩ := BatchRun.ofProgram?_eq_some_iff.mp h
    rw [hrun] at houtcome hafter
    show runSingle limit world options path = _
    rw [runSingle_of_ended hload (Prod.ext houtcome rfl) hafter.output.1, hafter.output.2,
      hafter.snapshot]
  | none =>
    -- the run in the batch has not ended, so neither has that of its twin
    have hended : ∀ fault?, ((BatchRun.start options.config program).run limit).1 ≠
        .ended fault? := by
      intro fault? hended
      have hsome : BatchRun.ofProgram? limit options.config path program = some _ :=
        BatchRun.ofProgram?_eq_some_iff.mpr ⟨fault?, _, Prod.ext hended rfl, rfl⟩
      rw [h] at hsome
      cases hsome
    rw [← houtcome] at hended
    rcases hrun : ((Machine.new options.config world.stdin world.stdout).load program).run limit with
      ⟨_ | fault | _, machine⟩
    · rw [hrun] at hended
      exact absurd rfl (hended none)
    · rw [hrun] at hended
      exact absurd rfl (hended (some fault))
    · refine ⟨machine.output, ?_⟩
      unfold runSingle deliver
      rw [hload]
      dsimp only
      rw [hrun]

/-- A file that has a report when it runs alone has a run with this report in every batch that is
allowed as many instructions. -/
theorem exists_run_of_finished (hstdin : world.stdin = .ofList [])
    (hstdout : world.stdout = .onDevice .accepting)
    (hload : loadProgram world options path = .ok program) {report : Report}
    (h : runSingle limit world options path = .finished report) :
    ∃ run : BatchRun, run.report options.showState = report ∧ ∀ limit', limit ≤ limit' →
      BatchRun.ofProgram? limit' options.config path program = some run := by
  have heq := runSingle_eq hstdin hstdout hload limit
  cases hrun : BatchRun.ofProgram? limit options.config path program with
  | some run =>
    rw [hrun] at heq
    cases h.symm.trans heq
    exact ⟨run, rfl, fun limit' hle => BatchRun.ofProgram?_mono hle hrun⟩
  | none =>
    rw [hrun] at heq
    obtain ⟨stdout, hstopped⟩ := heq
    cases h.symm.trans hstopped

/-! ### The batch -/

/-- The file with its program, as a batch loads it. -/
def loadEntry (world : World) (options : Options) (path : String) :
    Except Failure (String × Program) :=
  (loadProgram world options path).map (path, ·)

theorem loadEntry_ok (h : loadProgram world options path = .ok program) :
    loadEntry world options path = .ok (path, program) := by
  unfold loadEntry
  rw [h]
  rfl

/-- The file is loaded, and when it runs alone it leaves the report behind, without input and as
soon as it is allowed enough instructions. -/
def Reports (world : World) (options : Options) (path : String) (report : Report) : Prop :=
  ∃ program, loadProgram world options path = .ok program ∧
    ∃ run : BatchRun, run.report options.showState = report ∧ ∃ least, ∀ limit, least ≤ limit →
      BatchRun.ofProgram? limit options.config path program = some run

/-- The file is loaded, and this is the run of its program in a batch. -/
def Runs (world : World) (options : Options) (path : String) (run : BatchRun) : Prop :=
  ∃ program, loadProgram world options path = .ok program ∧
    ∃ limit, BatchRun.ofProgram? limit options.config path program = some run

/-- Allowed enough instructions, all runs of a batch end. -/
theorem exists_programs_of_runs {paths : List String} {runs : List BatchRun}
    (h : List.Forall₂ (Runs world options) paths runs) :
    ∃ programs, paths.mapM (loadEntry world options) = .ok programs ∧
      ∃ least, ∀ limit, least ≤ limit → programs.mapM (fun (path, program) =>
        BatchRun.ofProgram? limit options.config path program) = some runs := by
  induction h with
  | nil => exact ⟨[], rfl, 0, fun limit _ => rfl⟩
  | @cons path run paths runs hfirst _ ih =>
    obtain ⟨program, hload, least, hrun⟩ := hfirst
    obtain ⟨programs, hloads, enough, hruns⟩ := ih
    -- one limit has to do for all of them, so the greatest that one of them needs
    refine ⟨(path, program) :: programs, ?_, max least enough, fun limit hle => ?_⟩
    · rw [List.mapM_cons, loadEntry_ok hload, hloads]
      rfl
    · rw [List.mapM_cons, hruns limit (by omega)]
      dsimp only
      rw [BatchRun.ofProgram?_mono (by omega) hrun]
      rfl

theorem exists_runs {paths : List String} {reports : List Report}
    (h : List.Forall₂ (Reports world options) paths reports) :
    ∃ programs runs, paths.mapM (loadEntry world options) = .ok programs ∧
      runs.map (BatchRun.report options.showState) = reports ∧
      ∃ least, ∀ limit, least ≤ limit → programs.mapM (fun (path, program) =>
        BatchRun.ofProgram? limit options.config path program) = some runs := by
  obtain ⟨runs, hruns, hreports⟩ : ∃ runs, List.Forall₂ (Runs world options) paths runs ∧
      runs.map (BatchRun.report options.showState) = reports := by
    induction h with
    | nil => exact ⟨[], .nil, rfl⟩
    | cons hfirst _ ih =>
      obtain ⟨program, hload, run, rfl, least, hrun⟩ := hfirst
      obtain ⟨runs, hruns, rfl⟩ := ih
      exact ⟨run :: runs, .cons ⟨program, hload, least, hrun least le_rfl⟩ hruns, rfl⟩
  obtain ⟨programs, hloads, henough⟩ := exists_programs_of_runs hruns
  exact ⟨programs, runs, hloads, hreports, henough⟩

theorem countP_report (showState : Bool) (runs : List BatchRun) :
    (runs.map (BatchRun.report showState)).countP (·.exitCode ≠ Report.successCode) =
      runs.countP (·.fault?.isSome) := by
  rw [List.countP_map]
  apply List.countP_congr
  intro run _
  cases hfault : run.fault? <;>
    simp [BatchRun.report, hfault, Report.failureCode, Report.successCode]

theorem received_reports (showState : Bool) (runs : List BatchRun) :
    (runs.map (BatchRun.report showState)).flatMap (·.stdout.device.received.toList) =
      runs.flatMap (·.output) := List.flatMap_map ..

theorem errorLines_reports (showState : Bool) (runs : List BatchRun) (diagnose : Diagnosis) :
    (runs.map (BatchRun.report showState)).flatMap (·.errorLines diagnose) =
      (runs.flatMap (·.notices showState)).flatMap (·.lines diagnose) := by
  rw [List.flatMap_map, List.flatMap_assoc]
  rfl

section Ended

variable {programs : List (String × Program)} {runs : List BatchRun} {stdout : Stdout}
  {notices : List Notice}

/-- What a batch leaves behind when all runs have ended and all outputs are written. -/
theorem runBatch_of_written (hloads : options.files.mapM (loadEntry world options) = .ok programs)
    (hruns : programs.mapM (fun (path, program) =>
      BatchRun.ofProgram? limit options.config path program) = some runs)
    (hwritten : BatchRun.writeAll options.showState runs world.stdout [] =
      (.ok (), stdout, notices)) :
    let failed := runs.countP (·.fault?.isSome)
    runBatch limit world options = .finished
      (if failed = 0 then .success stdout notices
      else .failed stdout notices (.programsFailed failed runs.length)) := by
  intro failed
  unfold loadEntry at hloads
  unfold runBatch
  rw [hloads]
  dsimp only
  rw [hruns]
  dsimp only
  rw [hwritten]
  exact (apply_ite Progress.finished _ _ _).symm

/-- What a batch leaves behind when all runs have ended and standard output fails. -/
theorem runBatch_of_unwritten (hloads : options.files.mapM (loadEntry world options) = .ok programs)
    (hruns : programs.mapM (fun (path, program) =>
      BatchRun.ofProgram? limit options.config path program) = some runs) {error : IoError}
    (hwritten : BatchRun.writeAll options.showState runs world.stdout [] =
      (.error error, stdout, notices)) :
    runBatch limit world options = .finished (.failed stdout notices (.outputFailed error)) := by
  unfold loadEntry at hloads
  unfold runBatch
  rw [hloads]
  dsimp only
  rw [hruns]
  dsimp only
  rw [hwritten]

end Ended

/-- What a batch leaves behind when all runs have ended and standard output takes everything. -/
theorem runBatch_of_runs (hstdout : world.stdout = .onDevice .accepting)
    {programs : List (String × Program)} {runs : List BatchRun}
    (hloads : options.files.mapM (loadEntry world options) = .ok programs)
    (hruns : programs.mapM (fun (path, program) =>
      BatchRun.ofProgram? limit options.config path program) = some runs) :
    let failed := runs.countP (·.fault?.isSome)
    let stdout := Stdout.delivered (runs.flatMap (·.output))
    let notices := runs.flatMap (·.notices options.showState)
    runBatch limit world options = .finished
      (if failed = 0 then .success stdout notices
      else .failed stdout notices (.programsFailed failed runs.length)) := by
  intro failed stdout notices
  have haccepting : world.stdout.Accepting := by
    rw [hstdout]
    rfl
  have htaken : world.stdout.taken = [] := by
    rw [hstdout]
    rfl
  have hwritten : BatchRun.writeAll options.showState runs world.stdout [] =
      (.ok (), stdout, notices) := by
    rw [BatchRun.writeAll_accepting _ _ haccepting, htaken]
    rfl
  exact runBatch_of_written hloads hruns hwritten

/-- What a batch leaves behind when a file is not loaded, and none before it. -/
theorem runBatch_of_refused {before after : List String} {failure : Failure}
    (hfiles : options.files = before ++ path :: after)
    (hbefore : ∀ earlier ∈ before, Loads world options earlier)
    (hfailure : loadProgram world options path = .error failure) (limit : Nat) :
    runBatch limit world options = .finished (.failed world.stdout [] failure) := by
  have hloads : options.files.mapM (loadEntry world options) = .error failure := by
    rw [hfiles]
    refine mapM_of_first_error ?_ ?_
    · intro earlier hmem
      obtain ⟨program, hload⟩ := hbefore earlier hmem
      exact ⟨_, loadEntry_ok hload⟩
    · unfold loadEntry
      rw [hfailure]
      rfl
  unfold loadEntry at hloads
  unfold runBatch
  rw [hloads]

/-- The session with this file only, and with nothing on standard input. -/
def alone (limit : Nat) (world : World) (options : Options) (path : String) : Progress :=
  run limit { world with stdin := .ofList [] } { options with files := [path] }

theorem alone_eq (hemit : options.emit = false) (limit : Nat) (path : String) :
    alone limit world options path = runSingle limit { world with stdin := .ofList [] }
      { options with files := [path] } path := by
  unfold alone run
  rw [if_neg (by simp [hemit])]

theorem reports_of_alone (hstdout : world.stdout = .onDevice .accepting)
    (hemit : options.emit = false) (hload : loadProgram world options path = .ok program)
    {report : Report} (h : alone limit world options path = .finished report) :
    Reports world options path report := by
  have hload' : loadProgram { world with stdin := .ofList [] } { options with files := [path] }
      path = .ok program := hload
  rw [alone_eq hemit] at h
  obtain ⟨run, hreport, hrun⟩ := exists_run_of_finished (by rfl) (by exact hstdout) hload' h
  exact ⟨program, hload, run, hreport, limit, hrun⟩

theorem run_eq_runBatch (hemit : options.emit = false) (hmany : 2 ≤ options.files.length)
    (limit : Nat) : run limit world options = runBatch limit world options := by
  unfold run
  rw [if_neg (by simp [hemit])]
  rcases hfiles : options.files with _ | ⟨first, _ | ⟨second, rest⟩⟩
  · rfl
  · rw [hfiles] at hmany
    simp at hmany
  · rfl

/-- A batch is the concatenation of its programs run alone.  Where all files are loaded and all
programs end, standard output and the lines on the error stream are those of the programs alone, one
after the other, and a last line counts the programs that failed if there are any; the batch
succeeds exactly if each of them does.  Where a file is not loaded nothing is run, and the first
such file is the failure.  It makes no difference what a reader says of texts that it refuses. -/
theorem batch_concatenates (hstdout : world.stdout = .onDevice .accepting)
    (hemit : options.emit = false) (hmany : 2 ≤ options.files.length) :
    (∀ reports, List.Forall₂ (fun path report => Loads world options path ∧
        ∃ limit, alone limit world options path = .finished report) options.files reports →
      let failed := reports.countP (·.exitCode ≠ Report.successCode)
      ∃ least, ∀ limit, least ≤ limit → ∃ report, run limit world options = .finished report ∧
        report.stdout.device.received.toList =
          reports.flatMap (·.stdout.device.received.toList) ∧
        (∀ diagnose, report.errorLines diagnose = reports.flatMap (·.errorLines diagnose) ++
          (if failed = 0 then [] else [s!"ERROR {failed} of {reports.length} programs failed"])) ∧
        report.exitCode = if failed = 0 then Report.successCode else Report.failureCode) ∧
    ((∃ path ∈ options.files, ¬ Loads world options path) →
      ∃ before path after failure, options.files = before ++ path :: after ∧
        (∀ earlier ∈ before, Loads world options earlier) ∧
        loadProgram world options path = .error failure ∧
        ∀ limit, run limit world options =
          .finished ⟨Report.failureCode, world.stdout, [.failure failure]⟩) := by
  refine ⟨?_, ?_⟩
  · intro reports hreports failed
    have hruns : List.Forall₂ (Reports world options) options.files reports := by
      refine hreports.imp ?_
      rintro path report ⟨⟨program, hload⟩, limit, halone⟩
      exact reports_of_alone hstdout hemit hload halone
    obtain ⟨programs, runs, hloads, rfl, least, hends⟩ := exists_runs hruns
    refine ⟨least, fun limit hle => ?_⟩
    have hrun := runBatch_of_runs hstdout hloads (hends limit hle)
    have hcount : runs.countP (·.fault?.isSome) = failed := (countP_report _ runs).symm
    rw [run_eq_runBatch hemit hmany, hrun, hcount, received_reports, List.length_map]
    refine ⟨_, rfl, ?_⟩
    by_cases hnone : failed = 0
    · simp only [if_pos hnone, List.append_nil, errorLines_reports]
      exact ⟨rfl, fun diagnose => rfl, rfl⟩
    · simp only [if_neg hnone, errorLines_reports]
      refine ⟨rfl, fun diagnose => ?_, rfl⟩
      rw [Report.errorLines_failed, Notice.lines_programsFailed]
  · intro hrefused
    obtain ⟨before, path, after, failure, hfiles, hbefore, hfailure⟩ := exists_first_refused hrefused
    refine ⟨before, path, after, failure, hfiles, hbefore, hfailure, fun limit => ?_⟩
    rw [run_eq_runBatch hemit hmany, runBatch_of_refused hfiles hbefore hfailure]
    rfl

/-- One program that writes a byte, and one that faults. -/
theorem batch_concatenates_fault :
    let contents := fun path : String => if path = "one" then [43, 46] else [60]
    let world : World := ⟨fun path => .ok (contents path), .ofList [7], .onDevice .accepting⟩
    let options : Options := ⟨0, false, false, false, none, 1, ["one", "two"]⟩
    ∃ least, ∀ limit, least ≤ limit → ∃ report, run limit world options = .finished report ∧
      report.stdout.device.received.toList = [1] ∧
      report.errorLines = ["ERROR two: memory cursor went below zero (cursor 0, delta -1)",
        "ERROR 1 of 2 programs failed"] ∧ report.exitCode = Report.failureCode := by
  intro contents world options
  have hloadsOne : Loads world options "one" := ⟨.ofList [⟨0, 1⟩, ⟨3, 1⟩], by decide +kernel⟩
  have hloadsTwo : Loads world options "two" := ⟨.ofList [⟨1, -1⟩], by decide +kernel⟩
  have hone : alone 3 world options "one" = .finished ⟨0, .delivered [1], []⟩ := by decide +kernel
  have htwo : alone 3 world options "two" =
      .finished ⟨1, .delivered [], [.failure (.faulted "two" (.memoryOutOfBounds 0 (-1)))]⟩ := by
    decide +kernel
  obtain ⟨hall, -⟩ := @batch_concatenates world options rfl rfl (by decide)
  obtain ⟨least, hleast⟩ :=
    hall _ (.cons ⟨hloadsOne, 3, hone⟩ (.cons ⟨hloadsTwo, 3, htwo⟩ .nil))
  refine ⟨least, fun limit hle => ?_⟩
  obtain ⟨report, hrun, hstream, hlines, hcode⟩ := hleast limit hle
  refine ⟨report, hrun, hstream.trans ?_, (hlines .silent).trans ?_, hcode.trans ?_⟩
  · decide +kernel
  · decide +kernel
  · decide +kernel

end Session

end TapeMachine
