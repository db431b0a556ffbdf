import TapeMachine.Proofs.Machine.After

/-!
# TapeMachine.Proofs.Machine.Alike — machines that nobody can tell apart

Two machines are alike when they hold the same program, registers and cells and their devices stand
in given relations.  Sizes of tape and scratch memory, limits of growth and journals may differ.
Where related devices answer alike, alike machines do the same: `Alike.perform` for an instruction,
`Alike.run` for a run of any length.
-/

namespace TapeMachine

/-- Inputs in the relation give the same answers and stay in it. -/
structure AnswersAlike {ι ι' : Type} [Input ι] [Input ι'] (R : ι → ι' → Prop) : Prop where
  atEnd : ∀ {a b}, R a b →
    (Input.atEnd a).1 = (Input.atEnd b).1 ∧ R (Input.atEnd a).2 (Input.atEnd b).2
  next : ∀ {a b}, R a b → (Input.next a).1 = (Input.next b).1 ∧ R (Input.next a).2 (Input.next b).2

/-- Outputs in the relation take the same batches and stay in it. -/
def TakesAlike {ω ω' : Type} [Output ω] [Output ω'] (R : ω → ω' → Prop) : Prop :=
  ∀ {a b}, R a b → ∀ batch,
    (Output.write a batch).1 = (Output.write b batch).1 ∧
      R (Output.write a batch).2 (Output.write b batch).2

theorem answersAlike_eq {ι : Type} [Input ι] : AnswersAlike (@Eq ι) where
  atEnd h := by subst h; exact ⟨rfl, rfl⟩
  next h := by subst h; exact ⟨rfl, rfl⟩

theorem takesAlike_eq {ω : Type} [Output ω] : TakesAlike (@Eq ω) := by
  rintro a b rfl batch
  exact ⟨rfl, rfl⟩

namespace Machine

variable {ι ι' ω ω' : Type}

/-- What a program can find out about two machines is the same. -/
structure Alike (RI : ι → ι' → Prop) (RO : ω → ω' → Prop) (m : Machine ι ω) (m' : Machine ι' ω') :
    Prop where
  eof : m.config.eof = m'.config.eof
  input : RI m.input m'.input
  output : RO m.output m'.output
  program : m.program = m'.program
  programCounter : m.programCounter = m'.programCounter
  cursor : m.cursor = m'.cursor
  cell : ∀ index, m.cell index = m'.cell index

namespace Alike

variable {RI : ι → ι' → Prop} {RO : ω → ω' → Prop} {m : Machine ι ω} {m' : Machine ι' ω'}

theorem current (h : Alike RI RO m m') : m.current = m'.current := by
  rw [current_eq, current_eq, h.cursor]
  exact h.cell _

theorem batch (h : Alike RI RO m m') (instruction : Instruction) :
    m.batch instruction = m'.batch instruction := by
  unfold Machine.batch
  rw [h.current]

theorem fetch (h : Alike RI RO m m') : m.fetch = m'.fetch := by
  unfold Machine.fetch
  rw [h.program, h.programCounter]

theorem load (h : m.config.eof = m'.config.eof) (hi : RI m.input m'.input)
    (ho : RO m.output m'.output) (program : Program) :
    Alike RI RO (m.load program) (m'.load program) :=
  ⟨h, hi, ho, rfl, rfl, rfl, fun index => by rw [cell_load, cell_load]⟩

/-! ### The parts of an instruction -/

theorem goto (h : Alike RI RO m m') (counter : UInt64) :
    Alike RI RO (m.goto counter) (m'.goto counter) :=
  ⟨h.eof, h.input, h.output, h.program, rfl, h.cursor, h.cell⟩

theorem advance (h : Alike RI RO m m') : Alike RI RO m.advance m'.advance := by
  have hg := h.goto (m.programCounter + 1)
  have heq : m'.goto (m.programCounter + 1) = m'.advance := by rw [h.programCounter]; rfl
  rw [heq] at hg
  exact hg

theorem store (h : Alike RI RO m m') (value : Int32) :
    Alike RI RO (m.store value) (m'.store value) := by
  have hcell : ∀ index, (m.store value).cell index = (m'.store value).cell index := by
    intro index
    rw [cell_store, cell_store, h.cursor, h.cell]
  rw [store_eq, store_eq] at hcell ⊢
  exact ⟨h.eof, h.input, h.output, h.program, h.programCounter, h.cursor, hcell⟩

theorem moveTo (h : Alike RI RO m m') (target : UInt64) :
    Alike RI RO ({ m with cursor := target } : Machine ι ω).cover
      ({ m' with cursor := target } : Machine ι' ω').cover := by
  have hcell : ∀ index, ({ m with cursor := target } : Machine ι ω).cover.cell index =
      ({ m' with cursor := target } : Machine ι' ω').cover.cell index := by
    intro index
    rw [cell_cover, cell_cover]
    exact h.cell index
  rw [cover_eq, cover_eq] at hcell ⊢
  exact ⟨h.eof, h.input, h.output, h.program, h.programCounter, rfl, hcell⟩

theorem jump (h : Alike RI RO m m') (distance : Int32) (taken : Bool) :
    Alike RI RO (m.jump distance taken) (m'.jump distance taken) := by
  cases taken with
  | false => exact h.advance
  | true =>
    have hg := h.goto (m.programCounter + distance.toInt64.toUInt64)
    refine ⟨hg.eof, hg.input, hg.output, hg.program, ?_, hg.cursor, hg.cell⟩
    show m.programCounter + _ = m'.programCounter + _
    rw [h.programCounter]

theorem settle {done : Except IoError Unit × Machine ι ω}
    {done' : Except IoError Unit × Machine ι' ω'} (hr : done.1 = done'.1) (h : Alike RI RO done.2 done'.2) :
    (settle done).1 = (settle done').1 ∧ Alike RI RO (settle done).2 (settle done').2 := by
  obtain ⟨result, machine⟩ := done
  obtain ⟨result', machine'⟩ := done'
  obtain rfl : result = result' := hr
  cases result with
  | ok => exact ⟨rfl, h.advance⟩
  | error => exact ⟨rfl, h⟩

theorem movePointer (h : Alike RI RO m m') (amount : Int32) :
    (m.movePointer amount).1 = (m'.movePointer amount).1 ∧
      Alike RI RO (m.movePointer amount).2 (m'.movePointer amount).2 := by
  by_cases hneg : m.cursor.toInt64 + amount.toInt64 < 0
  · have hneg' : m'.cursor.toInt64 + amount.toInt64 < 0 := by rwa [← h.cursor]
    rw [movePointer_below m hneg, movePointer_below m' hneg', h.cursor]
    exact ⟨rfl, h⟩
  · have hneg' : ¬ m'.cursor.toInt64 + amount.toInt64 < 0 := by rwa [← h.cursor]
    rw [movePointer_within m hneg, movePointer_within m' hneg', h.cursor]
    exact ⟨rfl, (h.moveTo _).advance⟩

theorem readings [Input ι] [Input ι'] (hRI : AnswersAlike RI) (eof : Int32) (count : Nat)
    {a : ι} {b : ι'} (h : RI a b) (last : Option Int32) :
    let after := readings eof count last a
    let after' := readings eof count last b
    after.result = after'.result ∧ after.last = after'.last ∧ RI after.input after'.input := by
  induction count generalizing a b last with
  | zero => exact ⟨rfl, rfl, h⟩
  | succ count ih =>
    obtain ⟨hans, hnext⟩ := hRI.atEnd h
    rw [Machine.readings, Machine.readings]
    rcases ha : Input.atEnd a with ⟨answer, a'⟩
    rcases hb : Input.atEnd b with ⟨answer', b'⟩
    rw [ha, hb] at hans hnext
    obtain rfl : answer = answer' := hans
    rcases answer with error | ended
    · exact ⟨rfl, rfl, hnext⟩
    · cases ended with
      | true => exact ih hnext _
      | false =>
        obtain ⟨hbyte, hlater⟩ := hRI.next hnext
        dsimp only at hbyte hlater ⊢
        rcases ha' : Input.next a' with ⟨byte, a''⟩
        rcases hb' : Input.next b' with ⟨byte', b''⟩
        rw [ha', hb'] at hbyte hlater
        obtain rfl : byte = byte' := hbyte
        rcases byte with error | byte
        · exact ⟨rfl, rfl, hlater⟩
        · exact ih hlater _

/-- The last value read is stored, and the inputs have gone on to whatever they are now. -/
theorem read {RI' : ι → ι' → Prop} (h : Alike RI RO m m') (last : Option Int32) {a : ι} {b : ι'}
    (hi : RI' a b) :
    Alike RI' RO { m.storeLast last with input := a } { m'.storeLast last with input := b } := by
  cases last with
  | none => exact ⟨h.eof, hi, h.output, h.program, h.programCounter, h.cursor, h.cell⟩
  | some value =>
    have hs := h.store value
    exact ⟨hs.eof, hi, hs.output, hs.program, hs.programCounter, hs.cursor, hs.cell⟩

/-- The outputs have gone on to whatever they are now; scratch memory does not matter. -/
theorem written {RO' : ω → ω' → Prop} (h : Alike RI RO m m') (scratch scratch' : Array UInt8)
    {a : ω} {b : ω'} (ho : RO' a b) :
    Alike RI RO' { m with scratch, output := a } { m' with scratch := scratch', output := b } :=
  ⟨h.eof, h.input, ho, h.program, h.programCounter, h.cursor, h.cell⟩

theorem readBytes [Input ι] [Input ι'] (hRI : AnswersAlike RI) (h : Alike RI RO m m')
    (count : Nat) :
    (m.readBytes count).1 = (m'.readBytes count).1 ∧
      Alike RI RO (m.readBytes count).2 (m'.readBytes count).2 := by
  obtain ⟨hr, hl, hi⟩ := readings hRI m.config.eof count h.input none
  rw [readBytes_eq, readBytes_eq, ← h.eof]
  refine ⟨hr, ?_⟩
  dsimp only
  rw [← hl]
  exact h.read _ hi

theorem writeBytes [Output ω] [Output ω'] (hRO : TakesAlike RO) (h : Alike RI RO m m')
    (count : Nat) :
    (m.writeBytes count).1 = (m'.writeBytes count).1 ∧
      Alike RI RO (m.writeBytes count).2 (m'.writeBytes count).2 := by
  obtain ⟨hr, ho⟩ := hRO h.output (List.replicate count m.current.toUInt32.toUInt8)
  rw [writeBytes_eq, writeBytes_eq, ← h.current]
  exact ⟨hr, h.written _ _ ho⟩

/-! ### Instructions and runs -/

variable [Input ι] [Input ι'] [Output ω] [Output ω']

/-- An instruction that calls no device does the same whatever the devices are. -/
theorem perform_quiet (h : Alike RI RO m m') {instruction : Instruction}
    (hread : instruction.opcode? ≠ some .readByte)
    (hwrite : instruction.opcode? = some .writeByte → instruction.argument.toInt ≤ 0) :
    (m.perform instruction).1 = (m'.perform instruction).1 ∧
      Alike RI RO (m.perform instruction).2 (m'.perform instruction).2 := by
  cases hop : instruction.opcode? with
  | none =>
    rw [perform_unknown m hop, perform_unknown m' hop, h.programCounter]
    exact ⟨rfl, h⟩
  | some opcode =>
    cases opcode with
    | addValue =>
      rw [perform_addValue m hop, perform_addValue m' hop, addValue, addValue, h.current]
      exact ⟨rfl, (h.store _).advance⟩
    | movePointer =>
      rw [perform_movePointer m hop, perform_movePointer m' hop]
      exact h.movePointer _
    | readByte => exact absurd hop hread
    | writeByte =>
      have hle := hwrite hop
      rw [perform_writeByte m hop, perform_writeByte m' hop, if_pos hle, if_pos hle]
      exact ⟨rfl, h.advance⟩
    | jumpIfZero =>
      rw [perform_jumpIfZero m hop, perform_jumpIfZero m' hop, h.current]
      exact ⟨rfl, h.jump _ _⟩
    | jumpIfNonzero =>
      rw [perform_jumpIfNonzero m hop, perform_jumpIfNonzero m' hop, h.current]
      exact ⟨rfl, h.jump _ _⟩

/-- An instruction that writes nothing does the same whatever the outputs are. -/
theorem perform_silent (hRI : AnswersAlike RI) (h : Alike RI RO m m') {instruction : Instruction}
    (hwrite : instruction.opcode? = some .writeByte → instruction.argument.toInt ≤ 0) :
    (m.perform instruction).1 = (m'.perform instruction).1 ∧
      Alike RI RO (m.perform instruction).2 (m'.perform instruction).2 := by
  by_cases hread : instruction.opcode? = some .readByte
  · rw [perform_readByte m hread, perform_readByte m' hread]
    obtain ⟨hr, hm⟩ := h.readBytes hRI instruction.argument.toInt.toNat
    exact settle hr hm
  · exact h.perform_quiet hread hwrite

theorem perform (hRI : AnswersAlike RI) (hRO : TakesAlike RO) (h : Alike RI RO m m')
    (instruction : Instruction) :
    (m.perform instruction).1 = (m'.perform instruction).1 ∧
      Alike RI RO (m.perform instruction).2 (m'.perform instruction).2 := by
  by_cases hwrite : instruction.opcode? = some .writeByte → instruction.argument.toInt ≤ 0
  · exact h.perform_silent hRI hwrite
  · obtain ⟨hop, hpos⟩ := Classical.not_imp.mp hwrite
    rw [perform_writeByte m hop, perform_writeByte m' hop, if_neg hpos, if_neg hpos]
    obtain ⟨hr, hm⟩ := h.writeBytes hRO instruction.argument.toInt.toNat
    exact settle hr hm

theorem run (hRI : AnswersAlike RI) (hRO : TakesAlike RO) (h : Alike RI RO m m') (limit : Nat) :
    (m.run limit).1 = (m'.run limit).1 ∧ Alike RI RO (m.run limit).2 (m'.run limit).2 :=
  run_related Alike.fetch (fun h _ => h.perform hRI hRO _) h limit

end Alike

end Machine

end TapeMachine
