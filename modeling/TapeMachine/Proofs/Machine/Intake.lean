import TapeMachine.Device.Scripted
import TapeMachine.Proofs.Device.Supply
import TapeMachine.Proofs.Machine.Calls
import TapeMachine.Proofs.Machine.Visited

/-!
# TapeMachine.Proofs.Machine.Intake — what a reading instruction does to everything around it

A reading asks whether the input has ended and, only if it has not, takes a byte.  What it brings is
an `Intake`, and the call that ends it early is a `Breakdown`.  `Yields` and `Fails` say how an
input, whatever it is, goes through readings.  An instruction with the count `n` makes `n` readings
or stops at the first that fails; `Receipt` has one case for each, with the calls that were made,
the value that stays under the cursor, and all that stays as it was.  From a block or a queue the
instruction takes `n` bytes or all there are (`readings_accounted`).
-/

namespace TapeMachine

/-- What a reading brings. -/
inductive Intake where
  /-- The input said that it had ended. -/
  | ended
  | byte (value : UInt8)

/-- How a reading fails. -/
inductive Breakdown where
  /-- The question for the end failed. -/
  | atEnd (error : IoError)
  /-- There was to be a byte, but taking it failed. -/
  | next (error : IoError)

/-- The calls of a reading, with their answers. -/
def Intake.calls : Intake → List Call
  | ended => [.atEnd (.ok true)]
  | byte value => [.atEnd (.ok false), .next (.ok value)]

/-- What a reading stores. -/
def Intake.value (eof : Int32) : Intake → Int32
  | ended => eof
  | byte value => Int32.ofNat value.toNat

/-- The calls of a reading that fails. -/
def Breakdown.calls : Breakdown → List Call
  | atEnd error => [.atEnd (.error error)]
  | next error => [.atEnd (.ok false), .next (.error error)]

def Breakdown.error : Breakdown → IoError
  | atEnd error | next error => error

/-- The value stored by the last of some readings. -/
def lastValue (eof : Int32) (intakes : List Intake) : Option Int32 :=
  intakes.getLast?.map (Intake.value eof)

theorem lastValue_cons (eof : Int32) (intake : Intake) (intakes : List Intake) :
    lastValue eof (intake :: intakes) = (lastValue eof intakes).or (some (intake.value eof)) := by
  unfold lastValue
  rw [List.getLast?_cons]
  cases intakes.getLast? <;> rfl

variable {ι ω : Type}

/-! ### Readings of any input -/

section Readings

variable [Input ι] {input between after : ι} {intakes : List Intake} {breakdown : Breakdown}

/-- Readings, none of which fails, bring these things and take the input from one state to
another. -/
inductive Yields : ι → List Intake → ι → Prop
  | nil (input : ι) : Yields input [] input
  | ended {input asked after : ι} {intakes : List Intake}
      (hend : Input.atEnd input = (.ok true, asked)) (h : Yields asked intakes after) :
      Yields input (.ended :: intakes) after
  | byte {input asked later after : ι} {value : UInt8} {intakes : List Intake}
      (hend : Input.atEnd input = (.ok false, asked))
      (hnext : Input.next asked = (.ok value, later)) (h : Yields later intakes after) :
      Yields input (.byte value :: intakes) after

/-- The next reading fails. -/
inductive Fails : ι → Breakdown → ι → Prop
  | atEnd {input after : ι} {error : IoError} (h : Input.atEnd input = (.error error, after)) :
      Fails input (.atEnd error) after
  | next {input asked after : ι} {error : IoError} (hend : Input.atEnd input = (.ok false, asked))
      (hnext : Input.next asked = (.error error, after)) : Fails input (.next error) after

/-- Any number of readings can be made, up to the first that fails. -/
theorem yields_or_fails (count : Nat) (input : ι) :
    (∃ intakes after, Yields input intakes after ∧ intakes.length = count) ∨
      ∃ intakes between breakdown after, Yields input intakes between ∧
        Fails between breakdown after ∧ intakes.length < count := by
  induction count generalizing input with
  | zero => exact .inl ⟨[], input, .nil input, rfl⟩
  | succ count ih =>
    rcases hend : Input.atEnd input with ⟨error | ended, asked⟩
    · exact .inr ⟨[], input, _, asked, .nil input, .atEnd hend, Nat.succ_pos count⟩
    · cases ended with
      | true =>
        rcases ih asked with ⟨intakes, after, h, hlen⟩ |
          ⟨intakes, between, breakdown, after, h, hfails, hlt⟩
        · exact .inl ⟨_, after, .ended hend h, congrArg (· + 1) hlen⟩
        · exact .inr ⟨_, between, breakdown, after, .ended hend h, hfails, Nat.succ_lt_succ hlt⟩
      | false =>
        rcases hnext : Input.next asked with ⟨error | value, later⟩
        · exact .inr ⟨[], input, _, later, .nil input, .next hend hnext, Nat.succ_pos count⟩
        · rcases ih later with ⟨intakes, after, h, hlen⟩ |
            ⟨intakes, between, breakdown, after, h, hfails, hlt⟩
          · exact .inl ⟨_, after, .byte hend hnext h, congrArg (· + 1) hlen⟩
          · exact .inr ⟨_, between, breakdown, after, .byte hend hnext h, hfails,
              Nat.succ_lt_succ hlt⟩

/-- A logged input goes through the same readings, and notes their calls down. -/
theorem Yields.logged (h : Yields input intakes after) (log : List Call) :
    Yields (⟨input, log⟩ : Logged ι) intakes
      ⟨after, (intakes.flatMap Intake.calls).reverse ++ log⟩ := by
  induction h generalizing log with
  | nil input => exact .nil _
  | ended hend h ih => simpa [Intake.calls] using Yields.ended (Logged.atEnd_eq hend log) (ih _)
  | byte hend hnext h ih =>
    have hend' := Logged.atEnd_eq hend log
    simpa [Intake.calls] using Yields.byte hend' (Logged.next_eq hnext _) (ih _)

theorem Fails.logged (h : Fails input breakdown after) (log : List Call) :
    Fails (⟨input, log⟩ : Logged ι) breakdown ⟨after, breakdown.calls.reverse ++ log⟩ := by
  cases h with
  | atEnd h => exact .atEnd (Logged.atEnd_eq h log)
  | next hend hnext =>
    have hend' := Logged.atEnd_eq hend log
    exact .next hend' (Logged.next_eq hnext _)

end Readings

/-! ### The instruction -/

namespace Machine

section Perform

variable [Input ι] {input between after : ι} {intakes : List Intake} {breakdown : Breakdown}

/-- A byte is stored as its number, never as a negative one. -/
theorem intake_word (value : UInt8) : value.toUInt32.toInt32 = Int32.ofNat value.toNat := by
  apply Int32.toBitVec_inj.mp
  apply BitVec.eq_of_toNat_eq
  simp

/-- Of readings that do not fail only the last one matters. -/
theorem readings_of_yields (h : Yields input intakes after) (eof : Int32) (more : Nat)
    (last : Option Int32) :
    readings eof (intakes.length + more) last input =
      readings eof more ((lastValue eof intakes).or last) after := by
  -- on the readings; what was read before them stays only if there are none
  induction h generalizing last with
  | nil input =>
    rw [List.length_nil, Nat.zero_add]
    rfl
  | ended hend h ih =>
    rw [List.length_cons, Nat.succ_add, readings, hend]
    dsimp only
    rw [ih, lastValue_cons, Option.or_assoc]
    rfl
  | byte hend hnext h ih =>
    rw [List.length_cons, Nat.succ_add, readings, hend]
    dsimp only
    rw [hnext]
    dsimp only
    rw [ih, lastValue_cons, Option.or_assoc, intake_word]
    rfl

theorem readings_of_fails (h : Fails between breakdown after) (eof : Int32) (count : Nat)
    (last : Option Int32) :
    readings eof (count + 1) last between = ⟨.error breakdown.error, last, after⟩ := by
  rw [readings]
  cases h with
  | atEnd h => rw [h]; rfl
  | next hend hnext =>
    rw [hend]
    dsimp only
    rw [hnext]
    rfl

variable [Output ω] {m : Machine ι ω} {instruction : Instruction}

theorem perform_of_yields (hop : instruction.opcode? = some .readByte)
    (h : Yields m.input intakes after)
    (hlength : intakes.length = instruction.argument.toInt.toNat) :
    m.perform instruction = (.ok (),
      ({ m.storeLast (lastValue m.config.eof intakes) with input := after } :
        Machine ι ω).advance) := by
  have hread := readings_of_yields h m.config.eof 0 none
  rw [Nat.add_zero, hlength, Option.or_none] at hread
  rw [perform_readByte m hop, readBytes_eq, hread]
  rfl

theorem perform_of_fails (hop : instruction.opcode? = some .readByte)
    (h : Yields m.input intakes between) (hfails : Fails between breakdown after)
    (hlength : intakes.length < instruction.argument.toInt.toNat) :
    m.perform instruction = (.error (.io breakdown.error),
      { m.storeLast (lastValue m.config.eof intakes) with input := after }) := by
  -- the readings that do not fail, the one that does, and those that are not made any more
  obtain ⟨more, hmore⟩ := Nat.exists_eq_add_of_lt hlength
  have hread := readings_of_yields h m.config.eof (more + 1) none
  rw [← Nat.add_assoc, ← hmore, readings_of_fails hfails, Option.or_none] at hread
  rw [perform_readByte m hop, readBytes_eq, hread]
  rfl

omit [Input ι] [Output ω] in
theorem noted_storeLast (m : Machine ι ω) (last : Option Int32) (input : Logged ι) :
    ({ m.logged.storeLast last with input } : Machine (Logged ι) (Logged ω)).noted =
      input.log.reverse := by
  rw [storeLast_eq]
  exact List.append_nil _

theorem calls_of_yields (hop : instruction.opcode? = some .readByte)
    (h : Yields m.input intakes after)
    (hlength : intakes.length = instruction.argument.toInt.toNat) :
    m.calls instruction = intakes.flatMap Intake.calls := by
  have hlogged : Yields m.logged.input intakes _ := h.logged []
  have hnoted := noted_storeLast m (lastValue m.config.eof intakes)
    ⟨after, (intakes.flatMap Intake.calls).reverse ++ []⟩
  rw [List.append_nil, List.reverse_reverse] at hnoted
  unfold calls
  rw [perform_of_yields hop hlogged hlength, List.append_nil]
  exact hnoted

theorem calls_of_fails (hop : instruction.opcode? = some .readByte)
    (h : Yields m.input intakes between) (hfails : Fails between breakdown after)
    (hlength : intakes.length < instruction.argument.toInt.toNat) :
    m.calls instruction = intakes.flatMap Intake.calls ++ breakdown.calls := by
  have hlogged : Yields m.logged.input intakes _ := h.logged []
  have hnoted := noted_storeLast m (lastValue m.config.eof intakes)
    ⟨after, breakdown.calls.reverse ++ ((intakes.flatMap Intake.calls).reverse ++ [])⟩
  rw [List.append_nil, List.reverse_append, List.reverse_reverse, List.reverse_reverse] at hnoted
  unfold calls
  rw [perform_of_fails hop hlogged (hfails.logged _) hlength, List.append_nil]
  exact hnoted

end Perform

/-- A value has been stored under the cursor, if there is one, and the input may have gone on. -/
structure Received (m : Machine ι ω) (last : Option Int32) (m' : Machine ι ω) : Prop where
  current : m'.current = last.getD m.current
  cell : ∀ index, index ≠ m.cursor.toNat → m'.cell index = m.cell index
  length : m'.tape.length = m.tape.length
  cursor : m'.cursor = m.cursor
  output : m'.output = m.output
  program : m'.program = m.program

theorem Received.storeLast {m : Machine ι ω} (h : Covered m) (last : Option Int32) (input : ι) :
    Received m last { m.storeLast last with input } := by
  have hk := Keeps.storeLast h last
  have heq := m.storeLast_eq last
  have hcursor : (m.storeLast last).cursor = m.cursor := by rw [heq]
  refine ⟨?_, hk.cell, ?_, hcursor, by rw [heq], by rw [heq]⟩
  · show (m.storeLast last).current = _
    rw [current_eq, hcursor]
    cases last with
    | none => rfl
    | some value =>
      show (m.store value).cell m.cursor.toNat = value
      rw [cell_store, if_pos rfl]
  · show (m.storeLast last).tape.length = _
    rw [hk.length, hcursor, Tape.growTo_of_lt h]

theorem Received.advance {m m' : Machine ι ω} {last : Option Int32} (h : Received m last m') :
    Received m last m'.advance :=
  ⟨h.current, h.cell, h.length, h.cursor, h.output, h.program⟩

/-- What a reading instruction does.  If all its readings bring something, the value of the last
one stays and the machine goes on to the next instruction.  If one fails, it is the last call that
is made, the value of the one before it stays, and the machine does not go on. -/
inductive Receipt [Input ι] [Output ω] (eof : Int32) (m : Machine ι ω) (instruction : Instruction) :
    Prop
  | complete {intakes : List Intake} {m' : Machine ι ω} (hyields : Yields m.input intakes m'.input)
      (hlength : intakes.length = instruction.argument.toInt.toNat)
      (hcalls : m.calls instruction = intakes.flatMap Intake.calls)
      (hperform : m.perform instruction = (.ok (), m'))
      (hrun : ∀ limit, m.run (limit + 1) = m'.run limit)
      (hcounter : m'.programCounter = m.programCounter + 1)
      (hreceived : Received m (lastValue eof intakes) m')
  | broken {intakes : List Intake} {between : ι} {breakdown : Breakdown} {m' : Machine ι ω}
      (hyields : Yields m.input intakes between) (hfails : Fails between breakdown m'.input)
      (hlength : intakes.length < instruction.argument.toInt.toNat)
      (hcalls : m.calls instruction = intakes.flatMap Intake.calls ++ breakdown.calls)
      (hperform : m.perform instruction = (.error (.io breakdown.error), m'))
      (hrun : ∀ limit, m.run (limit + 1) = (.faulted (.io breakdown.error), m'))
      (hcounter : m'.programCounter = m.programCounter)
      (hreceived : Received m (lastValue eof intakes) m')

section Receipt

variable [Input ι] [Output ω] {m : Machine ι ω} {instruction : Instruction}

theorem receipt_of_fetch (hcov : Covered m) (hf : m.fetch = some instruction)
    (hop : instruction.opcode? = some .readByte) : Receipt m.config.eof m instruction := by
  rcases yields_or_fails instruction.argument.toInt.toNat m.input with
    ⟨intakes, after, hyields, hlength⟩ |
    ⟨intakes, between, breakdown, after, hyields, hfails, hlength⟩
  · have hperform := perform_of_yields hop hyields hlength
    exact .complete hyields hlength (calls_of_yields hop hyields hlength) hperform
      (run_of_ok hf hperform) (congrArg (· + 1) (programCounter_storeLast m _))
      (Received.storeLast hcov (lastValue m.config.eof intakes) after).advance
  · have hperform := perform_of_fails hop hyields hfails hlength
    exact .broken hyields hfails hlength (calls_of_fails hop hyields hfails hlength) hperform
      (run_of_error hf hperform) (programCounter_storeLast m _)
      (.storeLast hcov (lastValue m.config.eof intakes) after)

end Receipt

end Machine

/-! ### Bytes in memory -/

section Memory

variable [Input ι] {Holds : ι → List UInt8 → Prop} {input : ι} {bytes : List UInt8}

/-- An input that holds a sequence of bytes brings these, and then its end over and over. -/
theorem yields_of_holds (hsupplies : Supplies Holds) (h : Holds input bytes) (count : Nat) :
    ∃ after, Holds after (bytes.drop count) ∧
      Yields input ((bytes.take count).map Intake.byte ++
        List.replicate (count - bytes.length) .ended) after := by
  induction count generalizing input bytes with
  | zero => exact ⟨input, h, by simpa using Yields.nil input⟩
  | succ count ih =>
    obtain ⟨asked, hend, hasked⟩ := hsupplies.atEnd h
    cases bytes with
    | nil =>
      obtain ⟨after, hafter, hyields⟩ := ih hasked
      refine ⟨after, by simpa using hafter, ?_⟩
      simpa [List.replicate_succ] using Yields.ended hend hyields
    | cons byte bytes =>
      obtain ⟨later, hnext, hlater⟩ := hsupplies.next hasked
      obtain ⟨after, hafter, hyields⟩ := ih hlater
      exact ⟨after, hafter, by simpa using Yields.byte hend hnext hyields⟩

/-- The value of the last of some readings is the byte in its place, or the one for the end. -/
theorem lastValue_bytes (eof : Int32) (bytes : List UInt8) {count : Nat} (h : 0 < count) :
    lastValue eof ((bytes.take count).map Intake.byte ++
        List.replicate (count - bytes.length) .ended) =
      some ((bytes[count - 1]?.map fun byte => Int32.ofNat byte.toNat).getD eof) := by
  unfold lastValue
  by_cases hle : count ≤ bytes.length
  · have hlt : count - 1 < bytes.length := by omega
    rw [Nat.sub_eq_zero_of_le hle, List.replicate_zero, List.append_nil, List.getLast?_map,
      List.getLast?_take, if_neg (by omega), List.getElem?_eq_getElem hlt]
    rfl
  · rw [List.getLast?_append, List.getLast?_replicate, if_neg (by omega),
      List.getElem?_eq_none (by omega)]
    rfl

end Memory

namespace Machine

/-- The instruction takes the first bytes that the input holds, as many as it asks for or all there
are; what it asked for last stays under the cursor, which is the end if there were not so many. -/
def Draws [Input ι] [Output ω] (contents : ι → List UInt8) (eof : Int32) (m : Machine ι ω)
    (instruction : Instruction) : Prop :=
  let count := instruction.argument.toInt.toNat
  ∃ m' taken, m.perform instruction = (.ok (), m') ∧
    contents m.input = taken ++ contents m'.input ∧
    taken.length = min count (contents m.input).length ∧
    (0 < count → m'.current =
      ((contents m.input)[count - 1]?.map fun byte => Int32.ofNat byte.toNat).getD eof)

theorem draws_of_supplies [Input ι] [Output ω] {contents : ι → List UInt8}
    (hsupplies : Supplies fun input bytes => contents input = bytes) {m : Machine ι ω}
    (hcov : Covered m) {instruction : Instruction} (hop : instruction.opcode? = some .readByte) :
    Draws contents m.config.eof m instruction := by
  obtain ⟨after, hafter, hyields⟩ :=
    yields_of_holds hsupplies (rfl : contents m.input = _) instruction.argument.toInt.toNat
  have hperform := perform_of_yields hop hyields (by simp; omega)
  refine ⟨_, (contents m.input).take instruction.argument.toInt.toNat, hperform, ?_, ?_, ?_⟩
  · show _ = _ ++ contents after
    rw [hafter, List.take_append_drop]
  · exact List.length_take
  · intro hpos
    rw [lastValue_bytes _ _ hpos]
    exact (Received.storeLast hcov (some _) after).current

/-- The next instruction of the machine is one that reads. -/
def AboutToRead (m : Machine ι ω) (instruction : Instruction) : Prop :=
  m.fetch = some instruction ∧ instruction.opcode? = some .readByte

/-- In whatever state of a session a machine comes to an instruction that reads, and whatever its
input does, the instruction goes through its readings one by one, up to the first that fails, and
has no effect but those of a receipt.  From a block or a queue it takes as many bytes as it asks
for, or all there are. -/
theorem readings_accounted [Output ω] (config : Config) (output : ω) (requests : List Request)
    (instruction : Instruction) :
    (∀ {ι : Type} [Input ι] (input : ι),
      let m := (Machine.new config input output).served requests
      AboutToRead m instruction → Receipt config.eof m instruction) ∧
    (∀ block : ByteBlock,
      let m := (Machine.new config block output).served requests
      AboutToRead m instruction → Draws ByteBlock.toList config.eof m instruction) ∧
    ∀ queue : ByteQueue,
      let m := (Machine.new config queue output).served requests
      AboutToRead m instruction → Draws ByteQueue.toList config.eof m instruction := by
  refine ⟨?_, ?_, ?_⟩
  · rintro ι _ input m ⟨hf, hop⟩
    obtain ⟨visited, hfits⟩ := Watched.exists_fits_of_fetch hf
    rw [← hfits.config_eq]
    exact receipt_of_fetch hfits.covered hf hop
  · rintro block m ⟨hf, hop⟩
    obtain ⟨visited, hfits⟩ := Watched.exists_fits_of_fetch hf
    rw [← hfits.config_eq]
    exact draws_of_supplies supplies_block hfits.covered hop
  · rintro queue m ⟨hf, hop⟩
    obtain ⟨visited, hfits⟩ := Watched.exists_fits_of_fetch hf
    rw [← hfits.config_eq]
    exact draws_of_supplies supplies_queue hfits.covered hop

/-- Three readings, of an input that fails when the second byte is taken, and of two bytes in
memory. -/
theorem readings_accounted_failure :
    let error : IoError := ⟨.other, "boom"⟩
    let config : Config := { eof := -1, tapeLength := 1 }
    let reading : Instruction := .ofOpcode .readByte 3
    let requests : List Request := [.load (.ofList [.ofOpcode .addValue 9, reading]), .execute 1]
    let input : ScriptedInput := ⟨[.byte 5, .byteFailure error]⟩
    let m := (Machine.new config input ByteBuffer.empty).served requests
    let block := (Machine.new config (ByteBlock.ofList [7, 8]) ByteBuffer.empty).served requests
    let queue := (Machine.new config (ByteQueue.ofList [7, 8]) ByteBuffer.empty).served requests
    AboutToRead m reading ∧ AboutToRead block reading ∧ AboutToRead queue reading ∧
      m.calls reading =
        [.atEnd (.ok false), .next (.ok 5), .atEnd (.ok false), .next (.error error)] ∧
      (m.run 1).1 = .faulted (.io error) ∧ m.current = 9 ∧ (m.run 1).2.current = 5 ∧
      (block.run 1).2.current = -1 ∧ Receipt config.eof m reading ∧
      Draws ByteBlock.toList config.eof block reading ∧
      Draws ByteQueue.toList config.eof queue reading := by
  intro error config reading requests input m block queue
  have hm : AboutToRead m reading := ⟨by decide, by decide⟩
  have hblock : AboutToRead block reading := ⟨by decide, by decide⟩
  have hqueue : AboutToRead queue reading := ⟨by decide, by decide⟩
  obtain ⟨hany, hblocks, hqueues⟩ :=
    readings_accounted config ByteBuffer.empty requests reading
  exact ⟨hm, hblock, hqueue, rfl, by decide, by decide, by decide, by decide, hany input hm,
    hblocks _ hblock, hqueues _ hqueue⟩

end Machine

end TapeMachine
