import TapeMachine.Proofs.Bytecode.Rendering
import TapeMachine.Proofs.CommandLine.Loading
import TapeMachine.Proofs.Device.Stdout

/-!
# TapeMachine.Proofs.CommandLine.Emission — listings that are written and run again

With `--emit` a session writes one line for each file, up to the first file that is not loaded
(`emit_append`).  A file that holds such a line, with `--instructions`, is as good as the file that
the line was made of: it is loaded as the same program, so it runs in the same way, and its own line
is the same (`emission_inverse`).
-/

namespace TapeMachine

namespace Session

variable {world : World} {options : Options}

theorem emit_cons {path : String} {program : Program} {stdout : Stdout}
    (hload : loadProgram world options path = .ok program) (h : stdout.Accepting)
    (paths : List String) :
    emit world options (path :: paths) stdout =
      emit world options paths (.delivered (stdout.taken ++ program.line)) := by
  have hwritten := Stdout.writeLine h (Utf8.encode program.listingText)
  rw [emit, hload]
  dsimp only
  rw [hwritten]
  rfl

/-- Files that are loaded are written one line each, and nothing is held back. -/
theorem emit_append {paths : List String} {programs : List Program}
    (hloads : List.Forall₂ (fun path program => loadProgram world options path = .ok program)
      paths programs) (rest : List String) (written : List UInt8) :
    emit world options (paths ++ rest) (.delivered written) =
      emit world options rest (.delivered (written ++ programs.flatMap (·.line))) := by
  induction hloads generalizing written with
  | nil => simp
  | @cons path program paths programs hload _ ih =>
    rw [List.cons_append, emit_cons hload (Stdout.accepting_delivered _), Stdout.taken_delivered, ih]
    simp

/-- The bytes are one line. -/
def IsLine (bytes : List UInt8) : Prop :=
  ∃ text, bytes = text ++ [Stdout.lineBreak] ∧ Stdout.lineBreak ∉ text

/-- A file that holds these bytes, as a listing, is as good as the file at a path: it runs in the
same way with any input, output and settings, and its listing is written as these bytes again. -/
structure Replaces (world : World) (options : Options) (path : String) (bytes : List UInt8) :
    Prop where
  run : ∀ (elsewhere : World) (stored : String) (settings : Options) (limit : Nat),
    elsewhere.read stored = .ok bytes →
      run limit elsewhere
          { settings with instructions := true, emit := false, files := [stored] } =
        (run limit { elsewhere with read := world.read }
          { settings with
            instructions := options.instructions
            emit := false
            files := [path] }).relabel stored
  emit : ∀ (elsewhere : World) (stored : String) (settings : Options) (limit : Nat),
    elsewhere.read stored = .ok bytes → elsewhere.stdout = .onDevice .accepting →
      Session.run limit elsewhere
          { settings with instructions := true, emit := true, files := [stored] } =
        .finished (.success (.delivered bytes) [])

theorem isLine_line (program : Program) : IsLine program.line :=
  ⟨_, rfl, program.lineBreak_not_mem_encode⟩

theorem replaces_line {path : String} {program : Program}
    (hload : loadProgram world options path = .ok program) :
    Replaces world options path program.line where
  run := by
    intro elsewhere stored settings limit hread
    have horiginal : loadProgram { elsewhere with read := world.read }
        { settings with instructions := options.instructions, emit := false, files := [path] }
        path = .ok program := hload
    have hstored : loadProgram elsewhere
        { settings with instructions := true, emit := false, files := [stored] } stored =
          .ok program := loadProgram_line rfl hread
    exact runSingle_relabel horiginal hstored rfl rfl rfl rfl limit
  emit := by
    intro elsewhere stored settings limit hread hstdout
    have hstored : loadProgram elsewhere
        { settings with instructions := true, emit := true, files := [stored] } stored =
          .ok program := loadProgram_line rfl hread
    show Progress.finished (Session.emit elsewhere _ [stored] elsewhere.stdout) = _
    rw [hstdout]
    show Progress.finished (Session.emit elsewhere _ [stored] (.delivered [])) = _
    rw [emit_cons hstored (Stdout.accepting_delivered _), Stdout.taken_delivered]
    rfl

theorem exists_programs {paths : List String} (h : ∀ path ∈ paths, Loads world options path) :
    ∃ programs, List.Forall₂ (fun path program => loadProgram world options path = .ok program)
      paths programs := by
  induction paths with
  | nil => exact ⟨[], .nil⟩
  | cons path paths ih =>
    obtain ⟨⟨program, hload⟩, hrest⟩ := List.forall_mem_cons.mp h
    obtain ⟨programs, hprograms⟩ := ih hrest
    exact ⟨program :: programs, .cons hload hprograms⟩

/-- The lines of files that are loaded. -/
theorem exists_lines {paths : List String} (h : ∀ path ∈ paths, Loads world options path) :
    ∃ lines, List.Forall₂ (fun path line => Loads world options path ∧ IsLine line ∧
        Replaces world options path line) paths lines ∧
      ∀ rest, emit world options (paths ++ rest) (.delivered []) =
        emit world options rest (.delivered lines.flatten) := by
  obtain ⟨programs, hprograms⟩ := exists_programs h
  refine ⟨programs.map (·.line), ?_, fun rest => ?_⟩
  · rw [List.forall₂_map_right_iff]
    refine hprograms.imp ?_
    intro path program hload
    exact ⟨⟨program, hload⟩, isLine_line program, replaces_line hload⟩
  · rw [emit_append hprograms, List.nil_append, List.flatMap_def]

/-- A listing that is written can stand for its file.  With `--emit`, the longest start of the files
in which each is loaded is written, one line for each file, and the first file that is not loaded is
the failure, if there is one.  Each line, stored as a file of its own, replaces the file that it was
made of. -/
theorem emission_inverse (hstdout : world.stdout = .onDevice .accepting)
    (hemit : options.emit = true) :
    ∃ printed rest lines, options.files = printed ++ rest ∧
      List.Forall₂ (fun path line => Loads world options path ∧ IsLine line ∧
        Replaces world options path line) printed lines ∧
      ((rest = [] ∧ ∀ limit,
          run limit world options = .finished (.success (.delivered lines.flatten) [])) ∨
        ∃ path after failure, rest = path :: after ∧
          loadProgram world options path = .error failure ∧ ∀ limit,
            run limit world options = .finished (.failed (.delivered lines.flatten) [] failure)) := by
  have hrun : ∀ limit, run limit world options =
      .finished (emit world options options.files (.delivered [])) := by
    intro limit
    unfold run
    rw [if_pos hemit, hstdout]
    rfl
  by_cases hall : ∀ path ∈ options.files, Loads world options path
  · obtain ⟨lines, hlines, hemission⟩ := exists_lines hall
    refine ⟨options.files, [], lines, (List.append_nil _).symm, hlines, .inl ⟨rfl, fun limit => ?_⟩⟩
    have hwritten := hemission []
    rw [List.append_nil] at hwritten
    rw [hrun, hwritten]
    rfl
  · have hrefused : ∃ path ∈ options.files, ¬ Loads world options path := by simpa using hall
    obtain ⟨before, path, after, failure, hfiles, hbefore, hfailure⟩ := exists_first_refused hrefused
    obtain ⟨lines, hlines, hemission⟩ := exists_lines hbefore
    refine ⟨before, path :: after, lines, hfiles, hlines,
      .inr ⟨path, after, failure, rfl, hfailure, fun limit => ?_⟩⟩
    rw [hrun, hfiles, hemission, emit, hfailure]

/-- One listing is written, and the file after it is not loaded. -/
theorem emission_inverse_refused :
    let contents := fun path : String => if path = "one" then [43, 46] else [93]
    let world : World := ⟨fun path => .ok (contents path), .ofList [], .onDevice .accepting⟩
    let options : Options := ⟨0, false, true, false, none, 1, ["one", "two"]⟩
    let line := Utf8.asciiBytes "[[0,1],[3,1]]\n".toList
    run 0 world options = .finished (.failed (.delivered line) []
      (.uncompilable "two" (.unmatchedClose 0))) ∧ Replaces world options "one" line := by
  intro contents world options line
  have hrun : run 0 world options = .finished (.failed (.delivered line) []
      (.uncompilable "two" (.unmatchedClose 0))) := by decide +kernel
  have hone : Loads world options "one" := ⟨.ofList [⟨0, 1⟩, ⟨3, 1⟩], by decide +kernel⟩
  have htwo : ¬ Loads world options "two" := by
    rintro ⟨program, hload⟩
    have hrefused : loadProgram world options "two" =
        .error (.uncompilable "two" (.unmatchedClose 0)) := by decide +kernel
    rw [hrefused] at hload
    cases hload
  obtain ⟨printed, rest, lines, hfiles, hlines, hend⟩ := @emission_inverse world options rfl rfl
  refine ⟨hrun, ?_⟩
  rcases hend with ⟨rfl, hend⟩ | ⟨path, after, failure, rfl, hfailure, hend⟩
  · have hreport := Progress.finished.inj ((hend 0).symm.trans hrun)
    have hcode : Report.successCode = Report.failureCode := congrArg (·.exitCode) hreport
    cases hcode
  · have hreport := Progress.finished.inj ((hend 0).symm.trans hrun)
    have htaken : (Stdout.delivered lines.flatten).taken = (Stdout.delivered line).taken :=
      congrArg (·.stdout.taken) hreport
    have hwritten : lines.flatten = line := by simpa using htaken
    cases hlines with
    | nil => exact absurd hwritten (by decide)
    | @cons first _ _ _ hfirst hothers =>
      obtain ⟨rfl, hrest⟩ := List.cons.inj hfiles
      cases hothers with
      | nil =>
        rw [List.flatten_singleton] at hwritten
        rw [← hwritten]
        exact hfirst.2.2
      | cons hsecond _ =>
        obtain ⟨rfl, -⟩ := List.cons.inj hrest
        exact absurd hsecond.1 htwo

end Session

end TapeMachine
