import TapeMachine.Proofs.Machine.Faults
import TapeMachine.Proofs.Machine.Intake
import TapeMachine.Proofs.Machine.Words

/-!
# TapeMachine.Proofs.Machine.Reports — what a fault says, and what comes after the end of a run

The holder of a machine learns from a fault why the run stopped.  `Reported` has one case for each
fault that a run can have, with what is then so: the register that the fault names, the instruction
at the program counter, and the calls of the run, of which at most the last one failed.  A run that
has halted, or whose fault does not come from a device, has come to its end for good: executing once
more ends in the same way, without a call and without a change (`reports_reliable`).
-/

namespace TapeMachine

/-! ### Codes without meaning -/

theorem Opcode.ofCode?_eq_none_iff {code : Int32} :
    ofCode? code = none ↔ code ∉ ([0, 1, 2, 3, 4, 5] : List Int32) := by
  unfold ofCode?
  simp only [List.mem_cons, List.not_mem_nil, or_false]
  grind

theorem Instruction.eq_ofOpcode {instruction : Instruction} {opcode : Opcode}
    (h : instruction.opcode? = some opcode) :
    instruction = .ofOpcode opcode instruction.argument := by
  have hcode : opcode.code = instruction.code := Opcode.ofCode?_eq_some_iff.mp h
  rw [ofOpcode, hcode]

/-! ### Calls that fail -/

/-- The error that a call was answered with, if it failed. -/
def Call.error? : Call → Option IoError
  | atEnd (.error error) | next (.error error) | write _ (.error error) => some error
  | atEnd (.ok _) | next (.ok _) | write _ (.ok _) => none

/-- Calls none of which failed. -/
def Answered (calls : List Call) : Prop := ∀ call ∈ calls, call.error? = none

/-- The call is one that the instruction makes to its device, and the device answered it with the
error. -/
inductive Call.Refused (instruction : Instruction) (error : IoError) : Call → Prop
  | atEnd (hop : instruction.opcode? = some .readByte) :
      Refused instruction error (.atEnd (.error error))
  | next (hop : instruction.opcode? = some .readByte) :
      Refused instruction error (.next (.error error))
  | write {batch : List UInt8} (hop : instruction.opcode? = some .writeByte) :
      Refused instruction error (.write batch (.error error))

theorem answered_nil : Answered [] := fun _ h => absurd h List.not_mem_nil

theorem Answered.append {calls calls' : List Call} (h : Answered calls) (h' : Answered calls') :
    Answered (calls ++ calls') := fun call hmem =>
  (List.mem_append.mp hmem).elim (h call) (h' call)

theorem answered_intakes (intakes : List Intake) : Answered (intakes.flatMap Intake.calls) := by
  intro call hmem
  obtain ⟨intake, -, hcall⟩ := List.mem_flatMap.mp hmem
  cases intake <;> simp only [Intake.calls, List.mem_cons, List.not_mem_nil, or_false] at hcall
  · rw [hcall]
    rfl
  · rcases hcall with rfl | rfl <;> rfl

namespace Machine

variable {ι ω : Type} [Input ι] [Output ω] {m m' : Machine ι ω} {instruction : Instruction}

/-! ### The calls of an instruction -/

/-- No call of an instruction that goes well fails. -/
theorem answered_of_ok (h : (m.perform instruction).1 = .ok ()) :
    Answered (m.calls instruction) := by
  by_cases hread : instruction.opcode? = some .readByte
  · rcases yields_or_fails instruction.argument.toInt.toNat m.input with
      ⟨intakes, after, hyields, hlength⟩ |
      ⟨intakes, between, breakdown, after, hyields, hfails, hlength⟩
    · rw [calls_of_yields hread hyields hlength]
      exact answered_intakes intakes
    · rw [perform_of_fails hread hyields hfails hlength] at h
      cases h
  · by_cases hwrite : instruction.opcode? = some .writeByte → instruction.argument.toInt ≤ 0
    · rw [calls_quiet m hread hwrite]
      exact answered_nil
    · obtain ⟨hop, hpos⟩ := Classical.not_imp.mp hwrite
      obtain ⟨scratch, hperform⟩ := perform_batch m hop (Int.not_le.mp hpos)
      rw [calls_writeByte m hop (Int.not_le.mp hpos)]
      rcases hanswer : Output.write m.output (m.batch instruction) with ⟨error | _, output⟩
      · rw [hperform, hanswer] at h
        cases h
      · intro call hmem
        rw [List.mem_singleton.mp hmem]
        rfl

/-- An error of a device is the answer to the last call of the instruction, and to no other. -/
theorem refused_of_fault {error : IoError} (h : m.perform instruction = (.error (.io error), m')) :
    0 < instruction.argument.toInt ∧ ∃ before last, m.calls instruction = before ++ [last] ∧
      Answered before ∧ last.Refused instruction error := by
  cases faulting_of_perform h with
  | @reading _ last input hop hread =>
    rcases yields_or_fails instruction.argument.toInt.toNat m.input with
      ⟨intakes, after, hyields, hlength⟩ |
      ⟨intakes, between, breakdown, after, hyields, hfails, hlength⟩
    · rw [perform_of_yields hop hyields hlength] at h
      cases h
    · have hpos : 0 < instruction.argument.toInt := by omega
      rw [perform_of_fails hop hyields hfails hlength] at h
      obtain rfl : breakdown.error = error := Fault.io.inj (Except.error.inj (congrArg Prod.fst h))
      have hcalls := calls_of_fails hop hyields hfails hlength
      have hintakes := answered_intakes intakes
      cases breakdown with
      | atEnd error => exact ⟨hpos, _, _, hcalls, hintakes, .atEnd hop⟩
      | next error =>
        -- the question for the end, which was answered, stands before the byte
        have hasked : Answered [.atEnd (.ok false)] := fun call hmem => by
          rw [List.mem_singleton.mp hmem]
          rfl
        refine ⟨hpos, intakes.flatMap Intake.calls ++ [.atEnd (.ok false)], .next (.error error), ?_,
          hintakes.append hasked, .next hop⟩
        rw [hcalls, List.append_assoc]
        rfl
  | @writing _ scratch output hop hpos hwrite =>
    have hcalls := calls_writeByte m hop hpos
    have hanswer : Output.write m.output (m.batch instruction) = (.error error, output) := hwrite
    rw [hanswer] at hcalls
    exact ⟨hpos, [], _, hcalls, answered_nil, .write hop⟩

/-- A fault that comes from no device comes before any call and any change. -/
theorem quiet_of_fault {fault : Fault} (h : m.perform instruction = (.error fault, m'))
    (hdevice : ∀ error, fault ≠ .io error) : m' = m ∧ m.calls instruction = [] := by
  cases faulting_of_perform h with
  | unknown hop => exact ⟨rfl, calls_quiet m (by rw [hop]; nofun) (by rw [hop]; nofun)⟩
  | below hop hneg => exact ⟨rfl, calls_quiet m (by rw [hop]; nofun) (by rw [hop]; nofun)⟩
  | reading => exact absurd rfl (hdevice _)
  | writing => exact absurd rfl (hdevice _)

/-! ### The calls of a run -/

/-- No call of a run that has not faulted failed. -/
theorem answered_run {limit : Nat} (h : ∀ fault, (m.run limit).1 ≠ .faulted fault) :
    Answered (m.callsWithin limit) := by
  induction limit generalizing m with
  | zero => exact answered_nil
  | succ limit ih =>
    cases hf : m.fetch with
    | none =>
      rw [callsWithin, hf]
      exact answered_nil
    | some instruction =>
      rcases hp : m.perform instruction with ⟨fault | _, next⟩
      · rw [run_of_error hf hp] at h
        exact absurd rfl (h fault)
      · rw [run_of_ok hf hp] at h
        rw [callsWithin_of_ok hf hp]
        exact (answered_of_ok (congrArg Prod.fst hp)).append (ih h)

/-- The calls of a run that faults are those before the instruction that faults, none of which
failed, and those of the instruction. -/
theorem calls_of_faulted {limit : Nat} {fault : Fault} (h : m.run limit = (.faulted fault, m')) :
    ∃ earlier before instruction calls, m.run earlier = (.stopped, before) ∧
      before.fetch = some instruction ∧ before.perform instruction = (.error fault, m') ∧
      Answered calls ∧ m.callsWithin limit = calls ++ before.calls instruction := by
  obtain ⟨earlier, before, instruction, hlt, hrun, hfetch, hperform⟩ := run_faulted h
  obtain ⟨more, rfl⟩ := Nat.exists_eq_add_of_lt hlt
  refine ⟨earlier, before, instruction, m.callsWithin earlier, hrun, hfetch, hperform, ?_, ?_⟩
  · refine answered_run fun fault' hfault => ?_
    rw [hrun] at hfault
    cases hfault
  · rw [Nat.add_assoc, callsWithin_add hrun, callsWithin_of_error hfetch hperform]

/-! ### Reports -/

/-- What a fault says of the machine that it leaves, after a run with these calls. -/
inductive Reported (m : Machine ι ω) (calls : List Call) : Fault → Prop
  /-- The instruction is a move that would put the cursor below zero.  The sum is one of integers;
  no memory holds a tape of `2 ^ 62` cells. -/
  | belowZero {cursor : UInt64} {delta : Int32} (hcursor : m.cursor = cursor)
      (hfetch : m.fetch = some (.ofOpcode .movePointer delta))
      (hbelow : m.tape.length < 2 ^ 62 → cursor.toNat + delta.toInt < 0) (hcalls : Answered calls) :
      Reported m calls (.memoryOutOfBounds cursor delta)
  /-- The instruction has a code that means nothing. -/
  | unknown {code argument : Int32} {counter : UInt64} (hcounter : m.programCounter = counter)
      (hfetch : m.fetch = some ⟨code, argument⟩)
      (hcode : code ∉ ([0, 1, 2, 3, 4, 5] : List Int32)) (hcalls : Answered calls) :
      Reported m calls (.invalidCommand code counter)
  /-- The instruction reads or writes, and its device answered the last call with the error. -/
  | device {instruction : Instruction} {error : IoError} {before : List Call} {last : Call}
      (hfetch : m.fetch = some instruction) (hpos : 0 < instruction.argument.toInt)
      (hcalls : calls = before ++ [last]) (hbefore : Answered before)
      (hlast : last.Refused instruction error) : Reported m calls (.io error)

/-- A run that ended so has come to its end for good. -/
inductive Outcome.Definite : Outcome → Prop
  | halted : Definite .halted
  | belowZero (cursor : UInt64) (delta : Int32) :
      Definite (.faulted (.memoryOutOfBounds cursor delta))
  | unknown (code : Int32) (counter : UInt64) : Definite (.faulted (.invalidCommand code counter))

theorem reported_of_faulted {config : Config} {input : ι} {output : ω} {requests : List Request}
    {limit : Nat} {fault : Fault}
    (h : ((Machine.new config input output).served requests).run limit = (.faulted fault, m')) :
    Reported m' (((Machine.new config input output).served requests).callsWithin limit) fault := by
  obtain ⟨earlier, before, instruction, calls, hrun, hfetch, hperform, hanswered, hcalls⟩ :=
    calls_of_faulted h
  have hbefore : before =
      (Machine.new config input output).served (requests ++ [.execute earlier]) := by
    rw [served_append]
    exact congrArg Prod.snd hrun.symm
  have hcov : Covered before := by
    rw [hbefore] at hfetch ⊢
    exact covered_of_fetch hfetch
  have hsame : m'.fetch = some instruction := by
    have hkept := fetch_of_error hcov (congrArg Prod.fst hperform)
    rw [hperform] at hkept
    exact hkept.trans hfetch
  rw [hcalls]
  cases faulting_of_perform hperform with
  | unknown hop =>
    rw [(quiet_of_fault hperform nofun).2, List.append_nil]
    exact .unknown rfl hsame (Opcode.ofCode?_eq_none_iff.mp hop) hanswered
  | below hop hneg =>
    have hgreatest := instruction.argument.toInt_lt
    unfold Covered at hcov
    rw [(quiet_of_fault hperform nofun).2, List.append_nil]
    refine .belowZero rfl (Instruction.eq_ofOpcode hop ▸ hsame) (fun hshort => ?_) hanswered
    exact (target_lt_zero_iff (by omega) (by omega)).mp hneg
  | reading hop hread =>
    obtain ⟨hpos, asked, last, hlast, hfine, hrefused⟩ := refused_of_fault hperform
    rw [hlast, ← List.append_assoc]
    exact .device hsame hpos rfl (hanswered.append hfine) hrefused
  | writing hop hpos hwrite =>
    obtain ⟨hpos, asked, last, hlast, hfine, hrefused⟩ := refused_of_fault hperform
    rw [hlast, ← List.append_assoc]
    exact .device hsame hpos rfl (hanswered.append hfine) hrefused

/-- A run that has come to its end for good ends in the same way when it is taken up. -/
theorem run_of_definite {limit : Nat} (h : (m.run limit).1.Definite) (more : Nat) :
    (m.run limit).2.run (more + 1) = m.run limit ∧
      (m.run limit).2.callsWithin (more + 1) = [] := by
  rcases hrun : m.run limit with ⟨outcome, after⟩
  rw [hrun] at h
  cases outcome with
  | stopped => cases h
  | halted =>
    have hnone : after.fetch = none := by
      have hleft := fetch_of_halted (congrArg Prod.fst hrun)
      rwa [hrun] at hleft
    exact ⟨run_of_fetch_none hnone more, by rw [callsWithin, hnone]⟩
  | faulted fault =>
    obtain ⟨earlier, before, instruction, hlt, hstopped, hfetch, hperform⟩ := run_faulted hrun
    have hdevice : ∀ error, fault ≠ .io error := by
      rintro error rfl
      cases h
    -- the machine is as it was, so the same instruction is tried again
    obtain ⟨rfl, hquiet⟩ := quiet_of_fault hperform hdevice
    refine ⟨run_of_error hfetch hperform more, ?_⟩
    rw [callsWithin_of_error hfetch hperform, hquiet]

/-- Whatever a machine has been asked before, a fault of its run is what it says it is; it is never
one of a listing.  A run that has halted, or that stopped below zero or at an unknown code, ends in
the same way when it is executed again, however often: no call is made and nothing changes. -/
theorem reports_reliable (config : Config) (input : ι) (output : ω) (requests : List Request)
    (limit : Nat) :
    let m := (Machine.new config input output).served requests
    let run := m.run limit
    (∀ fault, run.1 = .faulted fault → Reported run.2 (m.callsWithin limit) fault) ∧
      (∀ index reason, run.1 ≠ .faulted (.invalidProgram index reason)) ∧
      (run.1.Definite → ∀ more,
        run.2.run (more + 1) = run ∧ run.2.callsWithin (more + 1) = []) := by
  intro m run
  have hreported : ∀ fault, run.1 = .faulted fault →
      Reported run.2 (m.callsWithin limit) fault := fun fault hfault =>
    reported_of_faulted (Prod.ext hfault rfl)
  refine ⟨hreported, fun index reason hfault => ?_, run_of_definite⟩
  cases hreported _ hfault

/-- A program whose first write is refused; taken up again, it goes on until it moves below zero. -/
theorem reports_reliable_below_zero :
    let error : IoError := ⟨.other, "closed"⟩
    let config : Config := { tapeLength := 1 }
    let input : ByteBlock := .ofList []
    let output : BatchRecorder := ⟨[some error], []⟩
    let start : List Request := [.load (.ofList [.ofOpcode .addValue 1, .ofOpcode .writeByte 2,
      .ofOpcode .movePointer 3, .ofOpcode .movePointer (-5), ⟨9, 0⟩])]
    let m := (Machine.new config input output).served start
    let resumed := (Machine.new config input output).served (start ++ [.execute 9])
    let run := resumed.run 9
    (m.run 9).1 = .faulted (.io error) ∧ Reported (m.run 9).2 (m.callsWithin 9) (.io error) ∧
      run.1 = .faulted (.memoryOutOfBounds 3 (-5)) ∧ run.1.Definite ∧
      Reported run.2 (resumed.callsWithin 9) (.memoryOutOfBounds 3 (-5)) ∧
      run.2.run 1 = run ∧ run.2.callsWithin 1 = [] := by
  intro error config input output start m resumed run
  have hrefused : (m.run 9).1 = .faulted (.io error) := by decide
  have hbelow : run.1 = .faulted (.memoryOutOfBounds 3 (-5)) := by decide
  have hdefinite : run.1.Definite := by
    rw [hbelow]
    exact .belowZero 3 (-5)
  obtain ⟨hfirst, -, -⟩ := reports_reliable config input output start 9
  obtain ⟨hsecond, -, hstays⟩ := reports_reliable config input output (start ++ [.execute 9]) 9
  obtain ⟨hagain, hsilent⟩ := hstays hdefinite 0
  exact ⟨hrefused, hfirst _ hrefused, hbelow, hdefinite, hsecond _ hbelow, hagain, hsilent⟩

end Machine

end TapeMachine
