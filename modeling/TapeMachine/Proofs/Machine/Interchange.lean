import TapeMachine.Proofs.Device.Supply
import TapeMachine.Proofs.Machine.Calls
import TapeMachine.Proofs.Machine.Faults
import TapeMachine.Proofs.Machine.Twins

/-!
# TapeMachine.Proofs.Machine.Interchange — where the bytes come from does not matter

Inputs that hold the same bytes answer alike, whatever they are made of, so machines on them are
twins.  A machine asks whether the input has ended before it takes a byte; so an input that supplies
its bytes never fails it, and every I/O fault is an answer of the output (`refused_of_io`).
-/

namespace TapeMachine

/-- The inputs hold the same bytes. -/
def Interchangeable {ι ι' : Type} (Holds : ι → List UInt8 → Prop) (Holds' : ι' → List UInt8 → Prop)
    (a : ι) (b : ι') : Prop :=
  ∃ bytes, Holds a bytes ∧ Holds' b bytes

theorem answersAlike_of_supplies {ι ι' : Type} [Input ι] [Input ι']
    {Holds : ι → List UInt8 → Prop} {Holds' : ι' → List UInt8 → Prop} (h : Supplies Holds)
    (h' : Supplies Holds') : AnswersAlike (Interchangeable Holds Holds') where
  atEnd := by
    rintro a b ⟨bytes, ha, hb⟩
    obtain ⟨a', hatEnd, ha'⟩ := h.atEnd ha
    obtain ⟨b', hatEnd', hb'⟩ := h'.atEnd hb
    rw [hatEnd, hatEnd']
    exact ⟨rfl, bytes, ha', hb'⟩
  next := by
    rintro a b ⟨bytes, ha, hb⟩
    cases bytes with
    | nil =>
      obtain ⟨a', hnext, ha'⟩ := h.exhausted ha
      obtain ⟨b', hnext', hb'⟩ := h'.exhausted hb
      rw [hnext, hnext']
      exact ⟨rfl, [], ha', hb'⟩
    | cons byte bytes =>
      obtain ⟨a', hnext, ha'⟩ := h.next ha
      obtain ⟨b', hnext', hb'⟩ := h'.next hb
      rw [hnext, hnext']
      exact ⟨rfl, bytes, ha', hb'⟩

namespace Machine

variable {ι ω : Type} [Input ι] {Holds : ι → List UInt8 → Prop}

/-- Reading from an input that supplies its bytes does not fail. -/
theorem readings_ok (hS : Supplies Holds) (eof : Int32) (count : Nat) {input : ι}
    {bytes : List UInt8} (h : Holds input bytes) (last : Option Int32) :
    (readings eof count last input).result = .ok () := by
  induction count generalizing input bytes last with
  | zero => rfl
  | succ count ih =>
    obtain ⟨input', hatEnd, h'⟩ := hS.atEnd h
    rw [readings, hatEnd]
    cases bytes with
    | nil => exact ih h' _
    | cons byte bytes =>
      obtain ⟨input'', hnext, h''⟩ := hS.next h'
      dsimp only [List.isEmpty]
      rw [hnext]
      exact ih h'' _

variable [Output ω]

/-- Where the input supplies its bytes, an I/O fault is the answer of the output to a batch. -/
theorem refused_of_io (hS : Supplies Holds) {machine : Machine ι ω} {bytes : List UInt8}
    (h : Holds machine.input bytes) {limit : Nat} {error : IoError}
    (hrun : (machine.run limit).1 = .faulted (.io error)) :
    ∃ batch, Call.write batch (.error error) ∈ machine.callsWithin limit := by
  induction limit generalizing machine bytes with
  | zero => cases hrun
  | succ limit ih =>
    cases hf : machine.fetch with
    | none =>
      rw [run_of_fetch_none hf] at hrun
      cases hrun
    | some instruction =>
      -- a machine is alike to itself, so the input still supplies its bytes afterwards
      have hself : Alike (Interchangeable Holds Holds) Eq machine machine :=
        ⟨rfl, ⟨bytes, h, h⟩, rfl, rfl, rfl, rfl, fun _ => rfl⟩
      obtain ⟨-, hafter⟩ :=
        hself.perform (answersAlike_of_supplies hS hS) takesAlike_eq instruction
      rcases hp : machine.perform instruction with ⟨fault | _, next⟩
      · rw [run_of_error hf hp] at hrun
        rw [callsWithin_of_error hf hp]
        cases hrun
        rcases faulting_of_perform hp with _ | _ | ⟨-, hread⟩ | ⟨hop, hpos, hwrite⟩
        · have hok := readings_ok hS machine.config.eof instruction.argument.toInt.toNat h none
          rw [hread] at hok
          cases hok
        · have hanswer : (Output.write machine.output (machine.batch instruction)).1 = .error error :=
            congrArg Prod.fst hwrite
          rw [calls_writeByte machine hop hpos, hanswer]
          exact ⟨_, List.mem_singleton_self _⟩
      · rw [hp] at hafter
        rw [run_of_ok hf hp] at hrun
        rw [callsWithin_of_ok hf hp]
        obtain ⟨bytes', h', -⟩ := hafter.input
        obtain ⟨batch, hmem⟩ := ih h' hrun
        exact ⟨batch, List.mem_append_right _ hmem⟩

/-- What a caller finds out by a run: how it ended, the registers and the tape it left, the calls
that it made to the devices, the output after them, and the bytes still to be read. -/
structure Findings (ω : Type) where
  outcome : Outcome
  snapshot : Snapshot
  tape : Tape
  calls : List Call
  output : ω
  unread : List UInt8

/-- The findings of a run of at most `limit` fetches. -/
def findings (unread : ι → List UInt8) (machine : Machine ι ω) (limit : Nat) : Findings ω where
  outcome := (machine.run limit).1
  snapshot := (machine.run limit).2.snapshot
  tape := (machine.run limit).2.tape
  calls := machine.callsWithin limit
  output := (machine.run limit).2.output
  unread := unread (machine.run limit).2.input

theorem Twins.findings {ι' : Type} [Input ι'] {Holds' : ι' → List UInt8 → Prop}
    (hS : Supplies Holds) (hS' : Supplies Holds') {unread : ι → List UInt8}
    {unread' : ι' → List UInt8} (hunread : ∀ {input bytes}, Holds input bytes → unread input = bytes)
    (hunread' : ∀ {input bytes}, Holds' input bytes → unread' input = bytes) {m : Machine ι ω}
    {m' : Machine ι' ω} (h : Twins (Interchangeable Holds Holds') Eq m m') (limit : Nat) :
    m.findings unread limit = m'.findings unread' limit := by
  have hRI := answersAlike_of_supplies hS hS'
  obtain ⟨houtcome, hafter⟩ := h.run hRI takesAlike_eq limit
  obtain ⟨bytes, hheld, hheld'⟩ := hafter.input
  unfold Machine.findings
  rw [houtcome, hafter.snapshot, hafter.tape, hafter.output,
    callsWithin_alike hRI takesAlike_eq h.toAlike, hunread hheld, hunread' hheld']

/-- A block, a queue and a reader that hold the same bytes are interchangeable, however the bytes
arrive at the reader: in chunks of any lengths, with interruptions anywhere in between.  After any
requests, every run has the same findings on all three of them, and an I/O fault in it is always
the answer of the output to a batch, so none of the inputs ever reports that it is exhausted. -/
theorem inputs_interchangeable {block : ByteBlock} {queue : ByteQueue} {reader : ChunkedReader}
    (hqueue : queue.toList = block.toList) (hreader : reader.toList = block.toList)
    (hsteady : Steady reader.arrivals) (config : Config) (output : ω) (requests : List Request)
    (limit : Nat) :
    let onBlock := (Machine.new config block output).served requests
    let onQueue := (Machine.new config queue output).served requests
    let onReader := (Machine.new config reader output).served requests
    onQueue.findings ByteQueue.toList limit = onBlock.findings ByteBlock.toList limit ∧
      onReader.findings ChunkedReader.toList limit = onBlock.findings ByteBlock.toList limit ∧
      ∀ error, (onBlock.run limit).1 = .faulted (.io error) →
        ∃ batch, Call.write batch (.error error) ∈ onBlock.callsWithin limit := by
  intro onBlock onQueue onReader
  have hblock : Interchangeable ByteQueue.Holds ByteBlock.Holds queue block := ⟨_, hqueue, rfl⟩
  have hblock' : Interchangeable ChunkedReader.Holds ByteBlock.Holds reader block :=
    ⟨_, ⟨hreader, hsteady⟩, rfl⟩
  have htwins := (Twins.new hblock (rfl : output = output) config).served
    (answersAlike_of_supplies supplies_queue supplies_block) takesAlike_eq requests
  have htwins' := (Twins.new hblock' (rfl : output = output) config).served
    (answersAlike_of_supplies supplies_reader supplies_block) takesAlike_eq requests
  refine ⟨htwins.findings supplies_queue supplies_block id id limit,
    htwins'.findings supplies_reader supplies_block And.left id limit, ?_⟩
  intro error hfault
  exact refused_of_io supplies_block rfl hfault

/-- Three bytes in two chunks, with interruptions around them. -/
theorem inputs_interchangeable_interrupted :
    let interruption : Arrival := .failure ⟨.interrupted, "again"⟩
    let block : ByteBlock := .ofList [7, 8, 9]
    let queue : ByteQueue := ⟨[7], [9, 8]⟩
    let reader : ChunkedReader :=
      ⟨[], [interruption, .bytes [7], interruption, interruption, .bytes [8, 9], .bytes []]⟩
    let requests : List Request := [.load (.ofList [.ofOpcode .readByte 1, .ofOpcode .movePointer 1,
      .ofOpcode .readByte 5, .ofOpcode .writeByte 2])]
    let config : Config := { tapeLength := 1, eof := -1 }
    let onBlock := (Machine.new config block ByteBuffer.empty).served requests
    let onQueue := (Machine.new config queue ByteBuffer.empty).served requests
    let onReader := (Machine.new config reader ByteBuffer.empty).served requests
    (onBlock.run 9).2.tape.cells = #[7, -1] ∧ (onBlock.run 9).2.output.toList = [255, 255] ∧
      onQueue.findings ByteQueue.toList 9 = onBlock.findings ByteBlock.toList 9 ∧
      onReader.findings ChunkedReader.toList 9 = onBlock.findings ByteBlock.toList 9 := by
  intro interruption block queue reader requests config onBlock onQueue onReader
  have hqueue : queue.toList = block.toList := rfl
  have hreader : reader.toList = block.toList := rfl
  have hsteady : Steady reader.arrivals :=
    .interrupted rfl (.chunk nofun (.interrupted rfl (.interrupted rfl (.chunk nofun
      (.ended rfl .nil)))))
  have h := inputs_interchangeable hqueue hreader hsteady config ByteBuffer.empty requests 9
  refine ⟨?_, ?_, h.1, h.2.1⟩
  · decide +kernel
  · decide +kernel

end Machine

end TapeMachine
