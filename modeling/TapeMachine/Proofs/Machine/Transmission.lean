import TapeMachine.Proofs.Device.Writer
import TapeMachine.Proofs.Machine.Calls
import TapeMachine.Proofs.Machine.Twins

/-!
# TapeMachine.Proofs.Machine.Transmission — output through a writer

A machine whose output goes to a writer is a twin of one whose output goes to a buffer, for as long
as the writer takes whole batches: what it has taken is what the buffer holds.  When it fails in the
middle of a batch, the machine stops at the instruction that wrote the batch, with its memory and
registers as they were, and the writer has taken a part of the batch more than the buffer held
before it.  So what a writer takes is always the beginning of what a buffer takes
(`output_conserved`).
-/

namespace TapeMachine

namespace Machine

variable {ι ω : Type}

/-- The machine with another output. -/
def withOutput {ω' : Type} (machine : Machine ι ω) (output : ω') : Machine ι ω' :=
  { machine with output }

/-- The writer has taken what the buffer holds, after what it had taken before. -/
def Mirrors (writer : Writer ω) (before : List UInt8) (w : ω) (buffer : ByteBuffer) : Prop :=
  writer.taken w = before ++ buffer.toList

variable [Input ι]

/-! ### Buffers only grow -/

theorem prefix_output_run (machine : Machine ι ByteBuffer) (limit : Nat) :
    machine.output.toList <+: (machine.run limit).2.output.toList := by
  have hRO : TakesAlike fun a b : ByteBuffer => a = b ∧ machine.output.toList <+: a.toList := by
    rintro a b ⟨rfl, hprefix⟩ batch
    refine ⟨rfl, rfl, hprefix.trans ?_⟩
    show a.toList <+: (a.append batch).toList
    rw [ByteBuffer.toList_append]
    exact List.prefix_append _ _
  have hself : Alike Eq (fun a b : ByteBuffer => a = b ∧ machine.output.toList <+: a.toList)
      machine machine := ⟨rfl, rfl, ⟨rfl, List.prefix_refl _⟩, rfl, rfl, rfl, fun _ => rfl⟩
  exact (hself.run answersAlike_eq hRO limit).2.output.2

/-- A machine that performs a write within a run has written its batch at the end of the run. -/
theorem prefix_output_of_write {machine : Machine ι ByteBuffer} {instruction : Instruction}
    (hf : machine.fetch = some instruction) (hop : instruction.opcode? = some .writeByte)
    (hpos : 0 < instruction.argument.toInt) (limit : Nat) :
    machine.output.toList ++ machine.batch instruction <+:
      (machine.run (limit + 1)).2.output.toList := by
  obtain ⟨next, hperform, houtput⟩ : ∃ next, machine.perform instruction = (.ok (), next) ∧
      next.output = machine.output.append (machine.batch instruction) := by
    obtain ⟨scratch, hperform⟩ := perform_batch machine hop hpos
    exact ⟨_, hperform, rfl⟩
  rw [run_of_ok hf hperform, ← ByteBuffer.toList_append, ← houtput]
  exact prefix_output_run next limit

/-! ### One instruction -/

variable [Output ω] {writer : Writer ω} {before : List UInt8} {m : Machine ι ω}
  {c : Machine ι ByteBuffer} {instruction : Instruction}

/-- The machine has stopped at an instruction in the middle of whose batch the writer failed: its
twin is about to perform the instruction, and nothing else tells them apart than that the writer has
taken a part of the batch. -/
structure BrokenOff (writer : Writer ω) (before : List UInt8) (m : Machine ι ω)
    (c : Machine ι ByteBuffer) (instruction : Instruction) : Prop where
  writes : instruction.opcode? = some .writeByte
  positive : 0 < instruction.argument.toInt
  fetch : c.fetch = some instruction
  twins : Twins Eq (fun _ _ => True) m c
  taken : ∃ part, writer.taken m.output = before ++ (c.output.toList ++ part) ∧
    part <+: c.batch instruction ∧ part.length < (c.batch instruction).length

/-- How an instruction on a machine with a writer compares with the instruction on its twin. -/
inductive Conveyance (writer : Writer ω) (before : List UInt8) (m : Machine ι ω)
    (c : Machine ι ByteBuffer) (instruction : Instruction) : Prop
  | refused {error : IoError} {after : Machine ι ω}
      (hcalls : m.calls instruction = [.write (c.batch instruction) (.error error)])
      (hperform : m.perform instruction = (.error (.io error), after))
      (h : BrokenOff writer before after c instruction)
  | conveyed {result : Except Fault Unit} {after : Machine ι ω} {after' : Machine ι ByteBuffer}
      (hcalls : ∀ batch error, Call.write batch (.error error) ∉ m.calls instruction)
      (hperform : m.perform instruction = (result, after))
      (hperform' : c.perform instruction = (result, after'))
      (h : Twins Eq (Mirrors writer before) after after')

theorem conveyance_silent (h : Twins Eq (Mirrors writer before) m c)
    (hf : m.fetch = some instruction)
    (hwrite : instruction.opcode? = some .writeByte → instruction.argument.toInt ≤ 0) :
    Conveyance writer before m c instruction := by
  obtain ⟨hresult, hafter⟩ := h.toAlike.perform_silent answersAlike_eq hwrite
  exact .conveyed (fun batch error => calls_silent m hwrite batch _) rfl
    (Prod.ext hresult.symm rfl) (h.performed hf hafter)

theorem conveyance_write (hserves : writer.Serves) (h : Twins Eq (Mirrors writer before) m c)
    (hf : m.fetch = some instruction) (hop : instruction.opcode? = some .writeByte)
    (hpos : 0 < instruction.argument.toInt) : Conveyance writer before m c instruction := by
  have hbatch := h.batch instruction
  have hcalls := calls_writeByte m hop hpos
  obtain ⟨scratch, hperform⟩ := perform_batch m hop hpos
  obtain ⟨scratch', hperform'⟩ := perform_batch c hop hpos
  obtain ⟨part, htaken, hpart, hall, hshort⟩ := (hserves m.output (m.batch instruction)).taken
  rcases hanswer : Output.write m.output (m.batch instruction) with ⟨error | _, output⟩
  · rw [hanswer, hbatch] at hcalls
    rw [hanswer] at hperform htaken hshort
    rw [hbatch] at hpart hshort
    have houtput : writer.taken output = before ++ (c.output.toList ++ part) := by
      rw [htaken, h.output, List.append_assoc]
    exact .refused hcalls hperform ⟨hop, hpos, h.fetch.symm.trans hf,
      ⟨h.toAlike.written scratch _ trivial, h.config, h.length, h.maxGrowth, h.covered⟩,
      part, houtput, hpart, hshort nofun⟩
  · rw [hanswer] at hcalls hperform htaken hall
    have hmirrors : Mirrors writer before output (c.output.append (c.batch instruction)) := by
      unfold Mirrors
      rw [htaken, hall rfl, h.output, ByteBuffer.toList_append, List.append_assoc, hbatch]
    have hafter : Alike Eq (Mirrors writer before) (m.perform instruction).2
        (c.perform instruction).2 := by
      rw [hperform, hperform']
      exact (h.toAlike.written scratch scratch' hmirrors).advance
    have htwins := h.performed hf hafter
    rw [hperform, hperform'] at htwins
    refine .conveyed ?_ hperform hperform' htwins
    intro batch error hmem
    rw [hcalls, List.mem_singleton] at hmem
    cases hmem

theorem conveyance (hserves : writer.Serves) (h : Twins Eq (Mirrors writer before) m c)
    (hf : m.fetch = some instruction) : Conveyance writer before m c instruction := by
  by_cases hwrite : instruction.opcode? = some .writeByte → instruction.argument.toInt ≤ 0
  · exact conveyance_silent h hf hwrite
  · obtain ⟨hop, hpos⟩ := Classical.not_imp.mp hwrite
    exact conveyance_write hserves h hf hop (by omega)

/-! ### Runs -/

/-- How a run of a machine with a writer compares with the run of its twin: it is the same, or it
has broken off at an instruction that its twin comes to as well. -/
inductive Transmission (writer : Writer ω) (before : List UInt8) (m : Machine ι ω)
    (c : Machine ι ByteBuffer) (limit : Nat) : Prop
  | refused {error : IoError} {after : Machine ι ω} {earlier : Nat} {atWrite : Machine ι ByteBuffer}
      {instruction : Instruction}
      (hcalls : ∀ batch error', Call.write batch (.error error') ∈ m.callsWithin limit ↔
        batch = atWrite.batch instruction ∧ error' = error)
      (hrun : m.run limit = (.faulted (.io error), after)) (hlt : earlier < limit)
      (hrun' : c.run earlier = (.stopped, atWrite))
      (h : BrokenOff writer before after atWrite instruction)
  | conveyed {outcome : Outcome} {after : Machine ι ω} {after' : Machine ι ByteBuffer}
      (hcalls : ∀ batch error, Call.write batch (.error error) ∉ m.callsWithin limit)
      (hrun : m.run limit = (outcome, after)) (hrun' : c.run limit = (outcome, after'))
      (h : Twins Eq (Mirrors writer before) after after')

theorem transmission (hserves : writer.Serves) (h : Twins Eq (Mirrors writer before) m c)
    (limit : Nat) : Transmission writer before m c limit := by
  induction limit generalizing m c with
  | zero => exact .conveyed (fun _ _ => List.not_mem_nil) rfl rfl h
  | succ limit ih =>
    cases hf : m.fetch with
    | none =>
      have hf' : c.fetch = none := h.fetch.symm.trans hf
      refine .conveyed ?_ (run_of_fetch_none hf limit) (run_of_fetch_none hf' limit) h
      intro batch error
      rw [callsWithin, hf]
      exact List.not_mem_nil
    | some instruction =>
      have hf' : c.fetch = some instruction := h.fetch.symm.trans hf
      obtain ⟨hcalls, hperform, hbroken⟩ |
        @⟨result, after, after', hcalls, hperform, hperform', hafter⟩ := conveyance hserves h hf
      · refine .refused ?_ (run_of_error hf hperform limit) (Nat.succ_pos limit) rfl hbroken
        intro batch error'
        rw [callsWithin_of_error hf hperform, hcalls, List.mem_singleton]
        simp
      · cases result with
        | error fault =>
          refine .conveyed ?_ (run_of_error hf hperform limit)
            (run_of_error hf' hperform' limit) hafter
          rw [callsWithin_of_error hf hperform]
          exact hcalls
        | ok =>
          have hmem : ∀ batch error, Call.write batch (.error error) ∈ m.callsWithin (limit + 1) ↔
              Call.write batch (.error error) ∈ after.callsWithin limit := by
            intro batch error
            rw [callsWithin_of_ok hf hperform, List.mem_append, or_iff_right (hcalls batch error)]
          obtain ⟨hcalls', hrun, hlt, hrun', hbroken⟩ | ⟨hcalls', hrun, hrun', hlater⟩ := ih hafter
          · exact .refused (fun batch error' => (hmem batch error').trans (hcalls' batch error'))
              ((run_of_ok hf hperform limit).trans hrun) (Nat.succ_lt_succ hlt)
              ((run_of_ok hf' hperform' _).trans hrun') hbroken
          · exact .conveyed (fun batch error => (hmem batch error).not.mpr (hcalls' batch error))
              ((run_of_ok hf hperform limit).trans hrun)
              ((run_of_ok hf' hperform' limit).trans hrun') hlater

/-- Once a machine has performed a write, its batch is part of what is in the buffer. -/
theorem prefix_output_of_run {earlier limit : Nat} {atWrite : Machine ι ByteBuffer}
    (hlt : earlier < limit) (hrun : c.run earlier = (.stopped, atWrite))
    (hf : atWrite.fetch = some instruction) (hop : instruction.opcode? = some .writeByte)
    (hpos : 0 < instruction.argument.toInt) :
    atWrite.output.toList ++ atWrite.batch instruction <+: (c.run limit).2.output.toList := by
  obtain ⟨more, rfl⟩ := Nat.exists_eq_add_of_lt hlt
  rw [Nat.add_assoc, run_add hrun]
  exact prefix_output_of_write hf hop hpos more

/-- No byte is lost, doubled or moved on the way to a writer, whatever the writer does.  The bytes
that it takes during a load and a run are the first of those that the same run writes to a buffer.
If no write fails, they are all of them, and the run ends in the same way, with the same cells,
cursor and program counter.  If a write fails, that is the fault of the run; the program counter
is at an instruction that writes, and the writer has taken what came before its batch and a part of
the batch that ends before its end. -/
theorem output_conserved (hserves : writer.Serves) (machine : Machine ι ω) (program : Program)
    (limit : Nat) :
    let m := machine.load program
    let c := (machine.withOutput ByteBuffer.empty).load program
    let run := m.run limit
    let run' := c.run limit
    ∃ bytes, writer.taken run.2.output = writer.taken machine.output ++ bytes ∧
      bytes <+: run'.2.output.toList ∧
      ((∀ batch error, Call.write batch (.error error) ∉ m.callsWithin limit) →
        bytes = run'.2.output.toList ∧ run.1 = run'.1 ∧ run.2.tape = run'.2.tape ∧
          run.2.snapshot = run'.2.snapshot ∧ run.2.input = run'.2.input) ∧
      ∀ batch error, Call.write batch (.error error) ∈ m.callsWithin limit →
        run.1 = .faulted (.io error) ∧ ∃ instruction earlier atWrite part,
          run.2.fetch = some instruction ∧ instruction.opcode? = some .writeByte ∧
          0 < instruction.argument.toInt ∧ batch = run.2.batch instruction ∧
          earlier < limit ∧ c.run earlier = (.stopped, atWrite) ∧
          atWrite.tape = run.2.tape ∧ atWrite.snapshot = run.2.snapshot ∧
          atWrite.output.toList ++ batch <+: run'.2.output.toList ∧
          bytes = atWrite.output.toList ++ part ∧ part <+: batch ∧ part.length < batch.length := by
  intro m c run run'
  have hmirrors : Mirrors writer (writer.taken machine.output) machine.output .empty :=
    (List.append_nil _).symm
  have hconfig : machine.config = (machine.withOutput ByteBuffer.empty).config := rfl
  have hinput : machine.input = (machine.withOutput ByteBuffer.empty).input := rfl
  have hstart : Twins Eq (Mirrors writer (writer.taken machine.output)) m c :=
    Twins.loaded hconfig hinput hmirrors program
  obtain @⟨error, after, earlier, atWrite, instruction, hcalls, hrun, hlt, hrun', hbroken⟩ |
    @⟨outcome, after, after', hcalls, hrun, hrun', hafter⟩ := transmission hserves hstart limit
  · obtain ⟨part, htaken, hpart, hshort⟩ := hbroken.taken
    have hwritten := prefix_output_of_run hlt hrun' hbroken.fetch hbroken.writes hbroken.positive
    have hbatch := hbroken.twins.batch instruction
    have hafter : run.2 = after := congrArg Prod.snd hrun
    have hprefix : atWrite.output.toList ++ part <+: run'.2.output.toList :=
      ((List.prefix_append_right_inj _).mpr hpart).trans hwritten
    rw [hafter]
    refine ⟨atWrite.output.toList ++ part, htaken, hprefix, ?_, ?_⟩
    · intro hnone
      exact absurd ((hcalls _ _).mpr ⟨rfl, rfl⟩) (hnone _ _)
    · intro batch error' hmem
      obtain ⟨rfl, rfl⟩ := (hcalls batch error').mp hmem
      exact ⟨congrArg Prod.fst hrun, instruction, earlier, atWrite, part,
        hbroken.twins.fetch.trans hbroken.fetch, hbroken.writes, hbroken.positive, hbatch.symm, hlt,
        hrun', hbroken.twins.tape.symm, hbroken.twins.snapshot.symm, hwritten, rfl, hpart, hshort⟩
  · have hrun₁ : run = (outcome, after) := hrun
    have hrun₂ : run' = (outcome, after') := hrun'
    rw [hrun₁, hrun₂]
    refine ⟨after'.output.toList, hafter.output, List.prefix_refl _, ?_, ?_⟩
    · intro _
      exact ⟨rfl, rfl, hafter.tape, hafter.snapshot, hafter.input⟩
    · intro batch error hmem
      exact absurd hmem (hcalls batch error)

/-- A batch of three bytes that a writer takes in two pieces, with an interruption in between, and
one of two bytes of which it takes one before it fails. -/
theorem output_conserved_broken_off :
    let error : IoError := ⟨.other, "closed"⟩
    let output : ScriptedWriter :=
      ⟨[.upTo 1, .failure ⟨.interrupted, "again"⟩, .upTo 7, .upTo 1, .failure error], [], []⟩
    let machine := Machine.new { tapeLength := 1 } (ByteBlock.ofList []) output
    let program : Program := .ofList [.ofOpcode .addValue 5, .ofOpcode .writeByte 3,
      .ofOpcode .addValue 1, .ofOpcode .writeByte 2, .ofOpcode .writeByte 1]
    ScriptedWriter.asWriter.Serves ∧
      ((machine.load program).run 9).1 = .faulted (.io error) ∧
      ((machine.load program).run 9).2.programCounter = 3 ∧
      (((machine.withOutput ByteBuffer.empty).load program).run 9).2.output.toList =
        [5, 5, 5, 6, 6, 6] ∧
      [5, 5, 5, 6] <+:
        (((machine.withOutput ByteBuffer.empty).load program).run 9).2.output.toList := by
  intro error output machine program
  obtain ⟨bytes, htaken, hprefix, -⟩ :=
    output_conserved ScriptedWriter.serves_asWriter machine program 9
  have hoffered : ScriptedWriter.asWriter.taken ((machine.load program).run 9).2.output =
      [5, 5, 5, 6] := by decide +kernel
  have hbefore : ScriptedWriter.asWriter.taken machine.output = [] := rfl
  rw [hoffered, hbefore, List.nil_append] at htaken
  rw [← htaken] at hprefix
  exact ⟨ScriptedWriter.serves_asWriter, by decide +kernel, by decide +kernel, by decide +kernel,
    hprefix⟩
end Machine

end TapeMachine
