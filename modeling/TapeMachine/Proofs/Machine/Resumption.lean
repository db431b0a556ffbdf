import TapeMachine.Proofs.Device.Transient
import TapeMachine.Proofs.Machine.Faults
import TapeMachine.Proofs.Machine.Twins

/-!
# TapeMachine.Proofs.Machine.Resumption — executing again after an I/O fault

An instruction that reads at most once is undone by an I/O fault, so executing again after the fault
tries the same instruction on the same memory.  Where failures are transient, the machine is then
still a twin of one whose devices do not fail and which has not moved in the meantime (`Attempt`).
Each execution that ends in an I/O fault uses up a failure, and on the number of failures still to
come rests the comparison of all executions together with a single one on the other machine
(`resumption_transparent`).
-/

namespace TapeMachine

/-- Whether no instruction of the program reads more than once. -/
def Program.ReadsOnce (program : Program) : Prop :=
  ∀ instruction ∈ program.toList,
    instruction.opcode? = some .readByte → instruction.argument.toInt ≤ 1

namespace Machine

variable {ι κ ω ψ : Type} {R : Nat → ι → κ → Prop} {S : Nat → ω → ψ → Prop} {r s : Nat}
  {m : Machine ι ω} {c : Machine κ ψ}

/-- Twins stay twins when their devices are exchanged. -/
theorem Twins.devices {RI RI' : ι → κ → Prop} {RO RO' : ω → ψ → Prop} (h : Twins RI RO m c) {a : ι}
    {b : κ} {o : ω} {p : ψ} (hi : RI' a b) (ho : RO' o p) (scratch scratch' : Array UInt8) :
    Twins RI' RO' { m with scratch, input := a, output := o }
      { c with scratch := scratch', input := b, output := p } where
  toAlike := ⟨h.eof, hi, ho, h.program, h.programCounter, h.cursor, h.cell⟩
  config := h.config
  length := h.length
  maxGrowth := h.maxGrowth
  covered := h.covered

variable [Input ι] [Input κ] [Output ω] [Output ψ]

/-! ### One instruction -/

/-- How an instruction on a machine whose devices may fail compares with the instruction on its
twin.  An I/O fault leaves the machine the twin that it was, and fewer failures are to come; without
one, both machines do the same. -/
inductive Attempt (R : Nat → ι → κ → Prop) (S : Nat → ω → ψ → Prop) (r s : Nat) (m : Machine ι ω)
    (c : Machine κ ψ) (instruction : Instruction) : Prop
  | failed {error : IoError} {after : Machine ι ω} {r' s' : Nat}
      (hperform : m.perform instruction = (.error (.io error), after)) (hlt : r' + s' < r + s)
      (h : Twins (R r') (S s') after c)
  | done {result : Except Fault Unit} {after : Machine ι ω} {after' : Machine κ ψ}
      (hio : ∀ error, result ≠ .error (.io error)) (hperform : m.perform instruction = (result, after))
      (hperform' : c.perform instruction = (result, after')) (h : Twins (R r) (S s) after after')

/-- When both machines have performed the instruction, they are twins if they are alike. -/
theorem Attempt.of_alike (h : Twins (R r) (S s) m c) {instruction : Instruction}
    (hf : m.fetch = some instruction) {result : Except Fault Unit} {after : Machine ι ω}
    {after' : Machine κ ψ} (hio : ∀ error, result ≠ .error (.io error))
    (hperform : m.perform instruction = (result, after))
    (hperform' : c.perform instruction = (result, after')) (ha : Alike (R r) (S s) after after') :
    Attempt R S r s m c instruction := by
  have hkeeps := Keeps.perform (h.covered _ hf) instruction
  have hkeeps' := Keeps.perform (h.covered' hf) instruction
  rw [hperform] at hkeeps
  rw [hperform'] at hkeeps'
  exact .done hio hperform hperform' (h.of_keeps hkeeps hkeeps' ha)

omit [Output ω] [Output ψ] in
/-- A single reading fails and finds nothing, or it finds what a reading of the other input does. -/
theorem readings_transient (hR : TransientInput R) {a : ι} {b : κ} (h : R r a b) (eof : Int32)
    {count : Nat} (hcount : count ≤ 1) :
    (∃ error after r', readings eof count none a = ⟨.error error, none, after⟩ ∧ r' < r ∧
      R r' after b) ∨
    ∃ last after after', readings eof count none a = ⟨.ok (), last, after⟩ ∧
      readings eof count none b = ⟨.ok (), last, after'⟩ ∧ R r after after' := by
  obtain rfl | rfl : count = 0 ∨ count = 1 := by omega
  · exact .inr ⟨none, a, b, rfl, rfl, h⟩
  · simp only [readings]
    rcases hatEnd : Input.atEnd a with ⟨error | ended, a₁⟩
    · obtain ⟨r', hlt, hafter⟩ := hR.atEnd_error h hatEnd
      exact .inl ⟨error, a₁, r', rfl, hlt, hafter⟩
    · cases ended with
      | true =>
        obtain ⟨b', hatEnd', hafter⟩ := hR.ended h hatEnd
        rw [hatEnd']
        exact .inr ⟨some eof, a₁, b', rfl, rfl, hafter⟩
      | false =>
        dsimp only
        rcases hnext : Input.next a₁ with ⟨error | byte, a₂⟩
        · obtain ⟨r', hlt, hafter⟩ := hR.next_error h hatEnd hnext
          exact .inl ⟨error, a₂, r', rfl, hlt, hafter⟩
        · obtain ⟨b₁, b₂, hatEnd', hnext', hafter⟩ := hR.took h hatEnd hnext
          rw [hatEnd']
          dsimp only
          rw [hnext']
          exact .inr ⟨_, a₂, b₂, rfl, rfl, hafter⟩

theorem attempt_read (hR : TransientInput R) (h : Twins (R r) (S s) m c) {instruction : Instruction}
    (hf : m.fetch = some instruction) (hop : instruction.opcode? = some .readByte)
    (honce : instruction.argument.toInt ≤ 1) : Attempt R S r s m c instruction := by
  have hcount : instruction.argument.toInt.toNat ≤ 1 := by omega
  have hperform := perform_readByte m hop
  have hperform' := perform_readByte c hop
  rw [readBytes_eq] at hperform hperform'
  rw [← h.eof] at hperform'
  obtain ⟨error, after, r', hafter, hlt, hR'⟩ | ⟨last, after, after', hafter, hafter', hR'⟩ :=
    readings_transient hR h.input m.config.eof hcount
  · rw [hafter] at hperform
    exact .failed hperform (by omega) (h.devices hR' h.output m.scratch c.scratch)
  · rw [hafter] at hperform
    rw [hafter'] at hperform'
    exact .of_alike h hf (by simp) hperform hperform' (h.toAlike.read last hR').advance

theorem attempt_write (hS : TransientOutput S) (h : Twins (R r) (S s) m c)
    {instruction : Instruction} (hf : m.fetch = some instruction)
    (hop : instruction.opcode? = some .writeByte) (hpos : ¬ instruction.argument.toInt ≤ 0) :
    Attempt R S r s m c instruction := by
  have hperform := perform_writeByte m hop
  have hperform' := perform_writeByte c hop
  rw [if_neg hpos, writeBytes_eq] at hperform hperform'
  rw [← h.current] at hperform'
  dsimp only at hperform hperform'
  rcases hanswer : Output.write m.output (List.replicate instruction.argument.toInt.toNat
    m.current.toUInt32.toUInt8) with ⟨error | _, after⟩
  · obtain ⟨s', hlt, hS'⟩ := hS.error h.output hanswer
    rw [hanswer] at hperform
    exact .failed hperform (by omega) (h.devices h.input hS' _ c.scratch)
  · obtain ⟨after', hanswer', hS'⟩ := hS.took h.output hanswer
    rw [hanswer] at hperform
    rw [hanswer'] at hperform'
    exact .of_alike h hf (by simp) hperform hperform' (h.toAlike.written _ _ hS').advance

/-- An instruction that calls no device has no I/O fault. -/
theorem attempt_quiet (h : Twins (R r) (S s) m c) {instruction : Instruction}
    (hf : m.fetch = some instruction) (hread : instruction.opcode? ≠ some .readByte)
    (hwrite : instruction.opcode? = some .writeByte → instruction.argument.toInt ≤ 0) :
    Attempt R S r s m c instruction := by
  obtain ⟨hresult, hafter⟩ := h.toAlike.perform_quiet hread hwrite
  refine .of_alike h hf ?_ (Prod.ext hresult rfl) rfl hafter
  intro error hfault
  have hperform : m.perform instruction = (.error (.io error), (m.perform instruction).2) :=
    Prod.ext (hresult.trans hfault) rfl
  generalize (m.perform instruction).2 = after at hperform
  rcases faulting_of_perform hperform with _ | _ | ⟨hop, -⟩ | ⟨hop, hpos, -⟩
  · exact hread hop
  · have hle := hwrite hop
    omega

theorem attempt (hR : TransientInput R) (hS : TransientOutput S) (h : Twins (R r) (S s) m c)
    {instruction : Instruction} (hf : m.fetch = some instruction)
    (honce : instruction.opcode? = some .readByte → instruction.argument.toInt ≤ 1) :
    Attempt R S r s m c instruction := by
  by_cases hread : instruction.opcode? = some .readByte
  · exact attempt_read hR h hf hread (honce hread)
  · by_cases hwrite : instruction.opcode? = some .writeByte → instruction.argument.toInt ≤ 0
    · exact attempt_quiet h hf hread hwrite
    · obtain ⟨hop, hpos⟩ := Classical.not_imp.mp hwrite
      exact attempt_write hS h hf hop hpos

/-! ### One execution -/

/-- How a run on a machine whose devices may fail compares with runs on its twin.  When it ends in
an I/O fault, the twin has come to the same place in fewer steps and fewer failures are to come;
otherwise both runs do the same. -/
inductive Execution (R : Nat → ι → κ → Prop) (S : Nat → ω → ψ → Prop) (r s : Nat) (m : Machine ι ω)
    (c : Machine κ ψ) (limit : Nat) : Prop
  | failed {error : IoError} {after : Machine ι ω} {earlier : Nat} {before : Machine κ ψ}
      {r' s' : Nat} (hrun : m.run limit = (.faulted (.io error), after)) (hle : earlier ≤ limit)
      (hrun' : c.run earlier = (.stopped, before)) (hlt : r' + s' < r + s)
      (h : Twins (R r') (S s') after before)
  | done {outcome : Outcome} {after : Machine ι ω} {after' : Machine κ ψ}
      (hio : ∀ error, outcome ≠ .faulted (.io error)) (hrun : m.run limit = (outcome, after))
      (hrun' : c.run limit = (outcome, after')) (h : Twins (R r) (S s) after after')

theorem execution (hR : TransientInput R) (hS : TransientOutput S) (h : Twins (R r) (S s) m c)
    (honce : m.program.ReadsOnce) (limit : Nat) : Execution R S r s m c limit := by
  induction limit generalizing m c with
  | zero => exact .done (by simp) rfl rfl h
  | succ limit ih =>
    cases hf : m.fetch with
    | none =>
      have hf' : c.fetch = none := h.fetch.symm.trans hf
      exact .done (by simp) (run_of_fetch_none hf limit) (run_of_fetch_none hf' limit) h
    | some instruction =>
      have hf' : c.fetch = some instruction := h.fetch.symm.trans hf
      have hkeeps := Keeps.perform (h.covered _ hf) instruction
      obtain ⟨hperform, hlt, htwins⟩ | @⟨result, after, after', hio, hperform, hperform', htwins⟩ :=
        attempt hR hS h hf (honce _ (Array.mem_toList_iff.mpr (Array.mem_of_getElem? hf)))
      · exact .failed (run_of_error hf hperform limit) (Nat.zero_le _) rfl hlt htwins
      · cases result with
        | error fault =>
          refine .done ?_ (run_of_error hf hperform limit) (run_of_error hf' hperform' limit) htwins
          intro error hfault
          cases hfault
          exact hio error rfl
        | ok =>
          have honce' : after.program.ReadsOnce := by
            rw [hperform] at hkeeps
            rw [hkeeps.program]
            exact honce
          obtain ⟨hrun, hle, hrun', hlt, hlater⟩ | ⟨hio, hrun, hrun', hlater⟩ := ih htwins honce'
          · exact .failed ((run_of_ok hf hperform limit).trans hrun) (Nat.succ_le_succ hle)
              ((run_of_ok hf' hperform' _).trans hrun') hlt hlater
          · exact .done hio ((run_of_ok hf hperform limit).trans hrun)
              ((run_of_ok hf' hperform' limit).trans hrun') hlater

/-! ### Executing until the I/O faults are over -/

/-- Executing again after each I/O fault until an execution returns something else: the number of
executions, what the last one returns, and the machine that it leaves. -/
inductive Persevering : Nat → Machine ι ω → Outcome → Machine ι ω → Prop
  | returned {limit : Nat} {m m' : Machine ι ω} {outcome : Outcome}
      (hrun : m.run limit = (outcome, m')) (hended : outcome ≠ .stopped)
      (hio : ∀ error, outcome ≠ .faulted (.io error)) : Persevering 1 m outcome m'
  | again {limit executions : Nat} {m m₁ m' : Machine ι ω} {error : IoError} {outcome : Outcome}
      (hrun : m.run limit = (.faulted (.io error), m₁)) (h : Persevering executions m₁ outcome m') :
      Persevering (executions + 1) m outcome m'

omit [Input κ] [Output ψ] in
/-- A run leaves the program, so it still reads at most once at a time. -/
theorem readsOnce_run (h : Twins (R r) (S s) m c) (honce : m.program.ReadsOnce) (limit : Nat) :
    (m.run limit).2.program.ReadsOnce := by
  cases hf : m.fetch with
  | none =>
    cases limit with
    | zero => exact honce
    | succ limit =>
      rw [run_of_fetch_none hf]
      exact honce
  | some instruction =>
    rw [(kept_run (h.covered _ hf) limit).1]
    exact honce

/-- What the other machine does in one execution, the first one does in several: one more than
failures were to come, or fewer. -/
theorem persevering_of_run (hR : TransientInput R) (hS : TransientOutput S) {count : Nat}
    (hcount : r + s = count) (h : Twins (R r) (S s) m c) (honce : m.program.ReadsOnce) {limit : Nat}
    {outcome : Outcome} {c' : Machine κ ψ} (hrun : c.run limit = (outcome, c'))
    (hended : outcome ≠ .stopped) :
    ∃ executions m' r' s', executions ≤ count + 1 ∧ Persevering executions m outcome m' ∧
      Twins (R r') (S s') m' c' := by
  -- on the number of failures: each execution that has to be repeated uses one up
  induction count using Nat.strongRecOn generalizing r s m c limit with
  | ind count ih =>
    obtain @⟨error, after, earlier, before, r', s', hfault, hle, hbefore, hlt, htwins⟩ |
      @⟨_, m', _, hio, hdone, hdone', htwins⟩ := execution hR hS h honce limit
    · have honce' := readsOnce_run h honce limit
      rw [hfault] at honce'
      have hrest : before.run (limit - earlier) = (outcome, c') := by
        rw [← run_add hbefore, Nat.add_sub_cancel' hle, hrun]
      obtain ⟨executions, m', r'', s'', hbound, hpersevering, hsame⟩ :=
        ih (r' + s') (by omega) rfl htwins honce' hrest
      exact ⟨executions + 1, m', r'', s'', by omega, .again hfault hpersevering, hsame⟩
    · cases hrun.symm.trans hdone'
      exact ⟨1, m', r, s, by omega, .returned hdone hended hio, htwins⟩

/-- What the first machine does in several executions, the other one does in a single one. -/
theorem run_of_persevering (hR : TransientInput R) (hS : TransientOutput S)
    (h : Twins (R r) (S s) m c) (honce : m.program.ReadsOnce) {executions : Nat} {outcome : Outcome}
    {m' : Machine ι ω} (hpersevering : Persevering executions m outcome m') :
    ∃ limit c' r' s', c.run limit = (outcome, c') ∧ Twins (R r') (S s') m' c' := by
  -- the single run is put together from the runs up to each fault
  induction hpersevering generalizing r s c with
  | @returned limit m m' outcome hrun hended hio =>
    obtain ⟨hfault, -⟩ | @⟨_, _, c', -, hdone, hdone', htwins⟩ := execution hR hS h honce limit
    · cases hrun.symm.trans hfault
      exact absurd rfl (hio _)
    · cases hrun.symm.trans hdone
      exact ⟨limit, c', r, s, hdone', htwins⟩
  | @again limit executions m m₁ m' error outcome hrun hlater ih =>
    have honce' := readsOnce_run h honce limit
    rw [hrun] at honce'
    obtain ⟨hfault, -, hbefore, -, htwins⟩ | ⟨hio, hdone, -⟩ := execution hR hS h honce limit
    · cases hrun.symm.trans hfault
      obtain ⟨more, c', r', s', hrun', hsame⟩ := ih htwins honce'
      exact ⟨_ + more, c', r', s', (run_add hbefore more).trans hrun', hsame⟩
    · cases hrun.symm.trans hdone
      exact absurd rfl (hio error)

/-- The machines have the same registers and cells, and devices that differ by failures to come. -/
structure SameButFailures (R : Nat → ι → κ → Prop) (S : Nat → ω → ψ → Prop) (m : Machine ι ω)
    (c : Machine κ ψ) : Prop where
  snapshot : m.snapshot = c.snapshot
  tape : m.tape = c.tape
  input : ∃ errors, R errors m.input c.input
  output : ∃ errors, S errors m.output c.output

/-- Executing again after transient failures is transparent.  Take a program that reads at most once
at a time, and devices of which `errors` calls to the input and `errors'` calls to the output are
still to fail.  When a single execution on devices without these failures returns, then so does
executing again after each I/O fault, with the same outcome and in at most one execution more than
there are failures; and conversely.  Registers, cells and the rest of the devices are then the same,
apart from the failures. -/
theorem resumption_transparent (hR : TransientInput R) (hS : TransientOutput S) {errors errors' : Nat}
    {input : ι} {input' : κ} {output : ω} {output' : ψ} (hinput : R errors input input')
    (houtput : S errors' output output') (config : Config) {program : Program}
    (honce : program.ReadsOnce) :
    let machine := (Machine.new config input output).load program
    let unfailing := (Machine.new config input' output').load program
    (∀ limit outcome c', unfailing.run limit = (outcome, c') → outcome ≠ .stopped →
      ∃ executions m', executions ≤ errors + errors' + 1 ∧
        Persevering executions machine outcome m' ∧ SameButFailures R S m' c') ∧
    ∀ executions outcome m', Persevering executions machine outcome m' →
      ∃ limit c', unfailing.run limit = (outcome, c') ∧ SameButFailures R S m' c' := by
  intro machine unfailing
  have htwins : Twins (R errors) (S errors') machine unfailing :=
    (Twins.new hinput houtput config).load program
  refine ⟨?_, ?_⟩
  · intro limit outcome c' hrun hended
    obtain ⟨executions, m', r', s', hbound, hpersevering, h⟩ :=
      persevering_of_run hR hS rfl htwins honce hrun hended
    exact ⟨executions, m', hbound, hpersevering, h.snapshot, h.tape, ⟨r', h.input⟩, s', h.output⟩
  · intro executions outcome m' hpersevering
    obtain ⟨limit, c', r', s', hrun, h⟩ := run_of_persevering hR hS htwins honce hpersevering
    exact ⟨limit, c', hrun, h.snapshot, h.tape, ⟨r', h.input⟩, s', h.output⟩

/-- Two bytes and the end are copied, although three calls fail in between. -/
theorem resumption_transparent_copying :
    let error : IoError := ⟨.other, "again"⟩
    let input : ScriptedInput := ⟨[.atEndFailure error, .byte 5, .byteFailure error, .byte 7]⟩
    let output : BatchRecorder := ⟨[none, some error], []⟩
    let program : Program := .ofList [.ofOpcode .readByte 1, .ofOpcode .writeByte 1,
      .ofOpcode .jumpIfNonzero (-2)]
    let config : Config := { tapeLength := 1 }
    let unfailing :=
      (Machine.new config input.withoutFailures output.withoutFailures).load program
    (unfailing.run 10).1 = .halted ∧
      ∃ executions m', executions ≤ 4 ∧
        Persevering executions ((Machine.new config input output).load program) .halted m' ∧
        m'.snapshot = (unfailing.run 10).2.snapshot ∧ m'.output.batches = [[5], [7], [0]] := by
  intro error input output program config unfailing
  have houtcome : (unfailing.run 10).1 = .halted := by decide +kernel
  have hbatches : (unfailing.run 10).2.output.batches = [[5], [7], [0]] := by decide +kernel
  have honce : program.ReadsOnce := by
    unfold Program.ReadsOnce
    decide
  have hinput : ScriptedInput.Without 2 input input.withoutFailures := ⟨rfl, rfl⟩
  have houtput : BatchRecorder.Without 1 output output.withoutFailures := ⟨rfl, rfl⟩
  obtain ⟨hresumed, -⟩ := resumption_transparent ScriptedInput.transient BatchRecorder.transient
    hinput houtput config honce
  have hrun : unfailing.run 10 = (.halted, (unfailing.run 10).2) := by rw [← houtcome]
  obtain ⟨executions, m', hbound, hpersevering, hsame⟩ := hresumed 10 _ _ hrun (by simp)
  obtain ⟨errors, -, hrecorder⟩ := hsame.output
  refine ⟨houtcome, executions, m', hbound, hpersevering, hsame.snapshot, ?_⟩
  rw [hrecorder] at hbatches
  exact hbatches

end Machine

end TapeMachine
