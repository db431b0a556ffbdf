import TapeMachine.Proofs.CommandLine.Batch
import TapeMachine.Proofs.Device.Writer

/-!
# TapeMachine.Proofs.CommandLine.Flushing — a run and the flush after it

A run may fault and the flush after it may fail, so there are four ways for a delivery to end
(`Delivery.Classified`).  A writer that is watched has been flushed once, after all its writes
(`Watched`).  And since nothing is written after the flush, writers that answer offers alike have
accepted the same bytes in the end, whatever their flushes do (`delivery_classified`).
-/

namespace TapeMachine

/-! ### What is asked of a writer -/

/-- A call to a writer, with its answer. -/
inductive SinkCall where
  | write (batch : List UInt8) (answer : Except IoError Unit)
  | flush (answer : Except IoError Unit)

/-- A writer with the calls made to it, in order. -/
structure Watched (σ : Type) where
  sink : σ
  calls : List SinkCall

namespace Watched

variable {σ : Type}

/-- A writer, and the same watched and not flushed. -/
def Unflushed (sink : σ) (watched : Watched σ) : Prop :=
  watched.sink = sink ∧ ∀ answer, SinkCall.flush answer ∉ watched.calls

variable [Sink σ]

instance : Sink (Watched σ) where
  writeAll watched batch :=
    let (answer, sink) := Sink.writeAll watched.sink batch
    (answer, ⟨sink, watched.calls ++ [.write batch answer]⟩)
  flush watched :=
    let (answer, sink) := Sink.flush watched.sink
    (answer, ⟨sink, watched.calls ++ [.flush answer]⟩)

theorem takesAlike_unflushed : TakesAlike (@Unflushed σ) := by
  rintro _ watched ⟨rfl, hcalls⟩ batch
  refine ⟨rfl, rfl, fun answer hmem => ?_⟩
  rcases List.mem_append.mp hmem with hmem | hmem
  · exact hcalls answer hmem
  · cases List.mem_singleton.mp hmem

end Watched

/-! ### Verdicts -/

namespace Delivery

variable {ι σ : Type}

/-- What is told of a run that ended so and of the flush after it. -/
structure Classified (delivery : Delivery ι σ) (path : String) (fault? : Option Fault)
    (flushed : Except IoError Unit) : Prop where
  faulted : ∀ fault, delivery.result = .error (.faulted path fault) ↔ fault? = some fault
  unwritable : ∀ error, delivery.result = .error (.unwritable path error) ↔
    fault? = none ∧ flushed = .error error
  delivered : delivery.result = .ok () ↔ fault? = none ∧ flushed = .ok ()
  told : ∀ diagnose text,
    (∃ cause, .failure cause ∈ delivery.notices ∧ cause.message diagnose = text) ↔
    ∃ fault error, fault? = some fault ∧ flushed = .error error ∧
      text = path ++ ": cannot write output: " ++ error.text
  once : delivery.notices.Nodup

variable [Sink σ] {path : String} {showState : Bool} {fault? : Option Fault} {machine : Machine ι σ}

theorem machine_ofRun : (ofRun path showState fault? machine).machine =
    { machine with output := (Sink.flush machine.output).2 } := by
  unfold ofRun
  rcases Sink.flush machine.output with ⟨_ | _, output⟩ <;> cases fault? <;> rfl

theorem result_ofRun : (ofRun path showState fault? machine).result =
    match fault?, (Sink.flush machine.output).1 with
    | some fault, _ => .error (.faulted path fault)
    | none, .error error => .error (.unwritable path error)
    | none, .ok () => .ok () := by
  unfold ofRun
  rcases Sink.flush machine.output with ⟨_ | _, output⟩ <;> cases fault? <;> rfl

theorem notices_ofRun : (ofRun path showState fault? machine).notices =
    (if showState then [.state path machine.snapshot] else []) ++
      match fault?, (Sink.flush machine.output).1 with
      | some _, .error error => [.failure (.unwritable path error)]
      | _, _ => [] := by
  unfold ofRun
  rcases Sink.flush machine.output with ⟨_ | _, output⟩ <;> cases fault? <;> simp <;> rfl

theorem failure_mem_notices_ofRun {cause : Failure} :
    .failure cause ∈ (ofRun path showState fault? machine).notices ↔
      ∃ fault error, fault? = some fault ∧ (Sink.flush machine.output).1 = .error error ∧
        cause = .unwritable path error := by
  have hstates : Notice.failure cause ∉
      (if showState then [Notice.state path machine.snapshot] else []) := by
    cases showState <;> simp
  rw [notices_ofRun, List.mem_append, or_iff_right hstates]
  rcases fault? with _ | fault <;> rcases (Sink.flush machine.output).1 with error | _ <;> simp

theorem nodup_notices_ofRun : (ofRun path showState fault? machine).notices.Nodup := by
  rw [notices_ofRun]
  rcases fault? with _ | fault <;> rcases (Sink.flush machine.output).1 with error | _ <;>
    cases showState <;> simp

theorem classified_ofRun : (ofRun path showState fault? machine).Classified path fault?
    (Sink.flush machine.output).1 where
  faulted fault := by
    rw [result_ofRun]
    rcases fault? with _ | fault <;> rcases (Sink.flush machine.output).1 with error | _ <;> simp
  unwritable error := by
    rw [result_ofRun]
    rcases fault? with _ | fault <;> rcases (Sink.flush machine.output).1 with error | _ <;> simp
  delivered := by
    rw [result_ofRun]
    rcases fault? with _ | fault <;> rcases (Sink.flush machine.output).1 with error | _ <;> simp
  told diagnose text := by
    simp only [failure_mem_notices_ofRun]
    constructor
    · rintro ⟨cause, ⟨fault, error, hfault, hflushed, rfl⟩, rfl⟩
      exact ⟨fault, error, hfault, hflushed, rfl⟩
    · rintro ⟨fault, error, hfault, hflushed, rfl⟩
      exact ⟨_, ⟨fault, error, hfault, hflushed, rfl⟩, rfl⟩
  once := nodup_notices_ofRun

end Delivery

/-! ### Runs on other writers -/

section Runs

variable {ι σ σ' : Type} [Input ι] [Sink σ] [Sink σ'] {limit : Nat} {path : String}
  {program : Program} {input : ι} {output : σ} {output' : σ'} {config : Config} {showState : Bool}
  {fault? : Option Fault} {machine : Machine ι σ}

theorem takesAlike_of_offersAlike {writer : Writer σ} {writer' : Writer σ'} {R : σ → σ' → Prop}
    (hR : Writer.OffersAlike writer writer' R) (hserves : writer.Serves)
    (hserves' : writer'.Serves) : TakesAlike R := fun h batch =>
  (hserves _ batch).alike hR (hserves' _ batch) h

/-- Writers that take batches alike let a program end in the same way. -/
theorem ended_of_takesAlike {R : σ → σ' → Prop} (hR : TakesAlike R) (houtput : R output output')
    (hrun : ((Machine.new config input output).load program).run limit =
      (.ended fault?, machine)) :
    ∃ machine', ((Machine.new config input output').load program).run limit =
      (.ended fault?, machine') ∧ Machine.Twins Eq R machine machine' := by
  have hstart : Machine.Twins Eq R ((Machine.new config input output).load program)
      ((Machine.new config input output').load program) :=
    (Machine.Twins.new rfl houtput config).load program
  obtain ⟨hended, htwins⟩ := hstart.run answersAlike_eq hR limit
  rw [hrun] at hended htwins
  exact ⟨_, Prod.ext hended.symm rfl, htwins⟩

/-- The output was flushed once in this delivery, with this answer, when the run had ended and
written all its batches. -/
def FlushedOnce (limit : Nat) (path : String) (program : Program) (input : ι) (output : σ)
    (config : Config) (showState : Bool) (fault? : Option Fault) (flushed : Except IoError Unit)
    (delivery : Delivery ι σ) : Prop :=
  ∃ stopped watched,
    ((Machine.new config input (⟨output, []⟩ : Watched σ)).load program).run limit =
      (.ended fault?, stopped) ∧
    deliver limit path program input (⟨output, []⟩ : Watched σ) config showState = .ok watched ∧
    watched.result = delivery.result ∧ watched.notices = delivery.notices ∧
    watched.machine.output.sink = delivery.machine.output ∧
    watched.machine.output.calls = stopped.output.calls ++ [.flush flushed] ∧
    ∀ answer, SinkCall.flush answer ∉ stopped.output.calls

theorem flushedOnce_of_ended (hrun : ((Machine.new config input output).load program).run limit =
      (.ended fault?, machine)) :
    FlushedOnce limit path program input output config showState fault?
      (Sink.flush machine.output).1 (.ofRun path showState fault? machine) := by
  have hnew : Watched.Unflushed output ⟨output, []⟩ := ⟨rfl, fun _ => List.not_mem_nil⟩
  obtain ⟨stopped, hstopped, htwins⟩ := ended_of_takesAlike Watched.takesAlike_unflushed hnew hrun
  obtain ⟨hsink, hcalls⟩ := htwins.output
  have hflushed : Sink.flush stopped.output = ((Sink.flush machine.output).1,
      ⟨(Sink.flush machine.output).2,
        stopped.output.calls ++ [.flush (Sink.flush machine.output).1]⟩) := by
    rw [← hsink]
    rfl
  refine ⟨stopped, _, hstopped, deliver_of_ended hstopped, ?_, ?_, ?_, ?_, hcalls⟩
  · rw [Delivery.result_ofRun, Delivery.result_ofRun, hflushed]
  · rw [Delivery.notices_ofRun, Delivery.notices_ofRun, hflushed, htwins.snapshot]
  · rw [Delivery.machine_ofRun, Delivery.machine_ofRun]
    dsimp only
    rw [hflushed]
  · rw [Delivery.machine_ofRun]
    dsimp only
    rw [hflushed]

/-- Writers that answer offers alike have accepted the same bytes of a run when it ends. -/
theorem abreast_of_ended {writer : Writer σ} {writer' : Writer σ'} (hwriter : writer.Serves)
    (hwriter' : writer'.Serves) {R : σ → σ' → Prop} (hR : Writer.OffersAlike writer writer' R)
    (houtput : R output output')
    (hrun : ((Machine.new config input output).load program).run limit =
      (.ended fault?, machine)) :
    ∃ machine' bytes, ((Machine.new config input output').load program).run limit =
        (.ended fault?, machine') ∧
      writer.taken machine.output = writer.taken output ++ bytes ∧
      writer'.taken machine'.output = writer'.taken output' ++ bytes := by
  have hbatches : TakesAlike (Writer.Abreast writer writer' R output output') :=
    takesAlike_of_offersAlike (Writer.OffersAlike.abreast hR output output') hwriter hwriter'
  obtain ⟨machine', hrun', htwins⟩ :=
    ended_of_takesAlike hbatches (Writer.abreast_start houtput) hrun
  obtain ⟨-, bytes, htaken, htaken'⟩ := htwins.output
  exact ⟨machine', bytes, hrun', htaken, htaken'⟩

/-- The output of every run that ends is flushed once, when the run has ended.  How the run ended and
whether the flush failed decide the result and what is told besides, and the bytes accepted are the
same for all writers that answer offers alike, whatever their flushes do. -/
theorem delivery_classified {writer : Writer σ} (hwriter : writer.Backs)
    (hrun : ((Machine.new config input output).load program).run limit =
      (.ended fault?, machine)) (path : String) (showState : Bool) :
    ∃ delivery, deliver limit path program input output config showState = .ok delivery ∧
      delivery.Classified path fault? (Sink.flush machine.output).1 ∧
      FlushedOnce limit path program input output config showState fault?
        (Sink.flush machine.output).1 delivery ∧
      ∃ bytes, writer.taken delivery.machine.output = writer.taken output ++ bytes ∧
        ∀ (σ' : Type) [Sink σ'] (writer' : Writer σ') (R : σ → σ' → Prop) (output' : σ'),
          writer'.Backs → Writer.OffersAlike writer writer' R → R output output' →
            ∃ delivery', deliver limit path program input output' config showState =
                .ok delivery' ∧
              writer'.taken delivery'.machine.output = writer'.taken output' ++ bytes := by
  refine ⟨_, deliver_of_ended hrun, Delivery.classified_ofRun, flushedOnce_of_ended hrun, ?_⟩
  have hself : Writer.OffersAlike writer writer Eq := by
    rintro a _ rfl bytes
    exact ⟨rfl, rfl⟩
  obtain ⟨-, bytes, -, htaken, -⟩ :=
    abreast_of_ended hwriter.serves hwriter.serves hself rfl hrun
  refine ⟨bytes, ?_, fun σ' _ writer' R output' hwriter' hR houtput => ?_⟩
  · rw [Delivery.machine_ofRun]
    exact (hwriter.flush _).trans htaken
  · obtain ⟨machine', bytes', hrun', hsame, htaken'⟩ :=
      abreast_of_ended hwriter.serves hwriter'.serves hR houtput hrun
    obtain rfl : bytes = bytes' := List.append_cancel_left (htaken.symm.trans hsame)
    refine ⟨_, deliver_of_ended hrun', ?_⟩
    rw [Delivery.machine_ofRun]
    exact (hwriter'.flush _).trans htaken'

/-- Both the run and the flush fail: the fault is the result, and the flush is told of.  The writer
that does not fail to flush has taken the same byte. -/
theorem delivery_classified_both_failed :
    let closed : IoError := ⟨.brokenPipe, "closed"⟩
    let full : IoError := ⟨.storageFull, "full"⟩
    let output : ScriptedWriter :=
      ⟨[.failure ⟨.interrupted, "again"⟩, .upTo 1, .failure closed], [some full], []⟩
    let program : Program := .ofList [.ofOpcode .addValue 7, .ofOpcode .writeByte 2]
    let deliverOn (output : ScriptedWriter) :=
      deliver 9 "a.bf" program (ByteBlock.ofList []) output { tapeLength := 1 } false
    ∃ delivery delivery', deliverOn output = .ok delivery ∧
      deliverOn { output with flushes := [] } = .ok delivery' ∧
      delivery.result = .error (.faulted "a.bf" (.io closed)) ∧
      (∃ cause, .failure cause ∈ delivery.notices ∧
        cause.message = "a.bf: cannot write output: full") ∧
      ScriptedWriter.asWriter.taken delivery'.machine.output =
        ScriptedWriter.asWriter.taken delivery.machine.output := by
  intro closed full output program deliverOn
  let start := (Machine.new { tapeLength := 1 } (ByteBlock.ofList []) output).load program
  have hended : (start.run 9).1 = .ended (some (.io closed)) := by decide +kernel
  have hflushed : (Sink.flush (start.run 9).2.output).1 = .error full := by decide +kernel
  rcases hrun : start.run 9 with ⟨ended, machine⟩
  rw [hrun] at hended hflushed
  obtain rfl : ended = _ := hended
  obtain ⟨delivery, hdelivery, hclassified, -, bytes, htaken, hother⟩ :=
    delivery_classified ScriptedWriter.backs_asWriter hrun "a.bf" false
  obtain ⟨delivery', hdelivery', htaken'⟩ := hother ScriptedWriter ScriptedWriter.asWriter _
    { output with flushes := [] } ScriptedWriter.backs_asWriter ScriptedWriter.offersAlike_asWriter
    rfl
  exact ⟨delivery, delivery', hdelivery, hdelivery', (hclassified.faulted _).mpr rfl,
    (hclassified.told _ _).mpr ⟨_, full, rfl, hflushed, rfl⟩, htaken'.trans htaken.symm⟩

end Runs

end TapeMachine
