import TapeMachine.Proofs.Machine.After
import TapeMachine.Proofs.Machine.Words

/-!
# TapeMachine.Proofs.Machine.Integral — registers that are integers

An `Integral` machine has integers for registers and an endless row of cells for a tape; nothing in
it wraps around but the cells.  From a load on it goes through the same states as the machine with
64-bit registers, as long as the tape of that one stays below `2 ^ 62` cells: the cursor is the same
integer and the program counter is the integer modulo `2 ^ 64` (`integral_registers`).  The
invariant is `Represents`; it keeps the integer program counter near the program, so that no jump
below the program comes out inside it.
-/

namespace TapeMachine

/-- A machine with integers for registers and an endless tape. -/
structure Integral (ι ω : Type) where
  eof : Int32
  program : Program
  programCounter : Int
  cursor : Int
  cells : Int → Int32
  input : ι
  output : ω

namespace Integral

variable {ι ω : Type}

/-- A program with zeros for memory and both registers at 0. -/
def start (eof : Int32) (program : Program) (input : ι) (output : ω) : Integral ι ω :=
  ⟨eof, program, 0, 0, fun _ => 0, input, output⟩

/-- The instruction at the program counter, if that is an index of the program. -/
def fetch (w : Integral ι ω) : Option Instruction :=
  if 0 ≤ w.programCounter then w.program.get? w.programCounter.toNat else none

def current (w : Integral ι ω) : Int32 := w.cells w.cursor

def store (w : Integral ι ω) (value : Int32) : Integral ι ω :=
  { w with cells := fun index => if index = w.cursor then value else w.cells index }

def storeLast (w : Integral ι ω) : Option Int32 → Integral ι ω
  | none => w
  | some value => w.store value

theorem storeLast_place (w : Integral ι ω) (last : Option Int32) :
    (w.storeLast last).program = w.program ∧
      (w.storeLast last).programCounter = w.programCounter := by
  cases last <;> exact ⟨rfl, rfl⟩

/-- Moves the program counter by a distance. -/
def skip (w : Integral ι ω) (distance : Int) : Integral ι ω :=
  { w with programCounter := w.programCounter + distance }

/-- On to the next instruction after a success of a device, a fault after a failure. -/
def settle (result : Except IoError Unit) (w : Integral ι ω) : Except Fault Unit × Integral ι ω :=
  match result with
  | .ok () => (.ok (), w.skip 1)
  | .error error => (.error (.io error), w)

/-- The machine has no instruction once its program counter is outside the program. -/
theorem fetch_eq_none_iff (w : Integral ι ω) :
    w.fetch = none ↔ w.programCounter < 0 ∨ w.program.length ≤ w.programCounter := by
  unfold fetch Program.get? Program.length
  by_cases h : 0 ≤ w.programCounter
  · rw [if_pos h, Array.getElem?_eq_none_iff]
    omega
  · rw [if_neg h]
    exact ⟨fun _ => .inl (by omega), fun _ => rfl⟩

theorem settle_ne_outOfBounds (result : Except IoError Unit) (w : Integral ι ω) (cursor : UInt64)
    (delta : Int32) : (settle result w).1 ≠ .error (.memoryOutOfBounds cursor delta) := by
  rcases result with error | _ <;> exact nofun

variable [Input ι] [Output ω]

/-- Carries out an instruction over the integers.  A fault names the registers as words. -/
def perform (w : Integral ι ω) (instruction : Instruction) :
    Except Fault Unit × Integral ι ω :=
  let argument := instruction.argument
  match instruction.opcode? with
  | none => (.error (.invalidCommand instruction.code (.ofInt w.programCounter)), w)
  | some .addValue => (.ok (), (w.store (w.current + argument)).skip 1)
  | some .movePointer =>
    if w.cursor + argument.toInt < 0 then
      (.error (.memoryOutOfBounds (.ofInt w.cursor) argument), w)
    else (.ok (), ({ w with cursor := w.cursor + argument.toInt } : Integral ι ω).skip 1)
  | some .jumpIfZero => (.ok (), w.skip (if w.current = 0 then argument.toInt else 1))
  | some .jumpIfNonzero => (.ok (), w.skip (if w.current ≠ 0 then argument.toInt else 1))
  | some .readByte =>
    let after := Machine.readings w.eof argument.toInt.toNat none w.input
    settle after.result { w.storeLast after.last with input := after.input }
  | some .writeByte =>
    if argument.toInt ≤ 0 then (.ok (), w.skip 1)
    else
      let written := Output.write w.output
        (List.replicate argument.toInt.toNat w.current.toUInt32.toUInt8)
      settle written.1 { w with output := written.2 }

/-- Tries the instruction at the program counter, if there is one. -/
def tick (w : Integral ι ω) : Integral ι ω :=
  match w.fetch with
  | none => w
  | some instruction => (w.perform instruction).2

/-- The machine when a number of instructions have been tried. -/
def after (w : Integral ι ω) : Nat → Integral ι ω
  | 0 => w
  | count + 1 => (w.after count).tick

/-- Runs the machine for at most `limit` fetches. -/
def run : (limit : Nat) → Integral ι ω → Machine.Outcome × Integral ι ω
  | 0, w => (.stopped, w)
  | limit + 1, w =>
    match w.fetch with
    | none => (.halted, w)
    | some instruction =>
      match w.perform instruction with
      | (.ok (), w) => run limit w
      | (.error fault, w) => (.faulted fault, w)

/-- Nothing but a move to below zero is out of bounds. -/
theorem outOfBounds_iff (w : Integral ι ω) (instruction : Instruction) :
    (∃ cursor delta, (w.perform instruction).1 = .error (.memoryOutOfBounds cursor delta)) ↔
      instruction.opcode? = some .movePointer ∧ w.cursor + instruction.argument.toInt < 0 := by
  unfold perform
  cases hop : instruction.opcode? with
  | none => exact ⟨nofun, nofun⟩
  | some opcode =>
    cases opcode with
    | addValue => exact ⟨nofun, nofun⟩
    | jumpIfZero => exact ⟨nofun, nofun⟩
    | jumpIfNonzero => exact ⟨nofun, nofun⟩
    | readByte =>
      refine ⟨?_, nofun⟩
      rintro ⟨cursor, delta, h⟩
      exact absurd h (settle_ne_outOfBounds _ _ cursor delta)
    | writeByte =>
      refine ⟨?_, nofun⟩
      rintro ⟨cursor, delta, h⟩
      dsimp only at h
      by_cases hle : instruction.argument.toInt ≤ 0
      · rw [if_pos hle] at h
        cases h
      · rw [if_neg hle] at h
        exact absurd h (settle_ne_outOfBounds _ _ cursor delta)
    | movePointer =>
      dsimp only
      by_cases hlt : w.cursor + instruction.argument.toInt < 0
      · rw [if_pos hlt]
        exact ⟨fun _ => ⟨rfl, hlt⟩, fun _ => ⟨_, _, rfl⟩⟩
      · rw [if_neg hlt]
        exact ⟨nofun, fun h => absurd h.2 hlt⟩

end Integral

namespace Machine

variable {ι ω : Type}

/-- The machine holds in words what the other one holds in integers.  The bounds of the program
counter say that it has not gone further from the program than one jump goes. -/
structure Represents (m : Machine ι ω) (w : Integral ι ω) : Prop where
  eof : m.config.eof = w.eof
  program : m.program = w.program
  programCounter : (m.programCounter.toNat : Int) = w.programCounter % 2 ^ 64
  cursor : (m.cursor.toNat : Int) = w.cursor
  cell : ∀ index : Nat, m.cell index = w.cells index
  input : m.input = w.input
  output : m.output = w.output
  below : -2 ^ 31 ≤ w.programCounter
  above : w.programCounter ≤ w.program.length + 2 ^ 31

namespace Represents

variable {m : Machine ι ω} {w : Integral ι ω}

theorem load (machine : Machine ι ω) (program : Program) :
    Represents (machine.load program)
      (.start machine.config.eof program machine.input machine.output) where
  eof := rfl
  program := rfl
  programCounter := rfl
  cursor := rfl
  cell index := cell_load machine program index
  input := rfl
  output := rfl
  below := by show (-2 ^ 31 : Int) ≤ 0; decide
  above := by show (0 : Int) ≤ program.length + 2 ^ 31; omega

theorem current (h : Represents m w) : m.current = w.current := by
  unfold Integral.current
  rw [current_eq, h.cell, h.cursor]

/-- A fetch from outside the program over the integers is one over the words. -/
theorem fetch (h : Represents m w) (hlen : m.program.length < 2 ^ 63) : m.fetch = w.fetch := by
  have hc := h.programCounter
  have hb := h.below
  have ha := h.above
  unfold Machine.fetch Integral.fetch
  rw [← h.program] at ha ⊢
  by_cases h0 : 0 ≤ w.programCounter
  · rw [if_pos h0]
    congr 1
    omega
  · rw [if_neg h0]
    exact Array.getElem?_eq_none (by
      show m.program.length ≤ m.programCounter.toNat
      omega)

theorem ofInt_programCounter (h : Represents m w) :
    UInt64.ofInt w.programCounter = m.programCounter := by
  unfold UInt64.ofInt
  rw [← h.programCounter]
  exact UInt64.ofNat_toNat

theorem ofInt_cursor (h : Represents m w) : UInt64.ofInt w.cursor = m.cursor := by
  have hlt := m.cursor.toNat_lt
  unfold UInt64.ofInt
  rw [← h.cursor, Int.emod_eq_of_lt (by omega) (by omega)]
  exact UInt64.ofNat_toNat

/-- An instruction is fetched from inside the program over the integers too. -/
theorem within (h : Represents m w) (hlen : m.program.length < 2 ^ 63) {instruction : Instruction}
    (hf : m.fetch = some instruction) :
    0 ≤ w.programCounter ∧ w.programCounter < w.program.length := by
  have hw := h.fetch hlen
  rw [hf] at hw
  unfold Integral.fetch at hw
  by_cases h0 : 0 ≤ w.programCounter
  · rw [if_pos h0] at hw
    obtain ⟨hlt, -⟩ := Array.getElem?_eq_some_iff.mp hw.symm
    have hlt' : w.programCounter.toNat < w.program.length := hlt
    omega
  · rw [if_neg h0] at hw
    cases hw

/-! ### The parts of an instruction -/

theorem store (h : Represents m w) (value : Int32) :
    Represents (m.store value) (w.store value) := by
  have hcell : ∀ index : Nat, (m.store value).cell index = (w.store value).cells index := by
    intro index
    have hiff : index = m.cursor.toNat ↔ (index : Int) = w.cursor := by
      rw [← h.cursor]
      omega
    rw [cell_store]
    show _ = if (index : Int) = w.cursor then value else w.cells index
    by_cases hi : index = m.cursor.toNat
    · rw [if_pos hi, if_pos (hiff.mp hi)]
    · rw [if_neg hi, if_neg (fun hw => hi (hiff.mpr hw)), h.cell]
  rw [store_eq] at hcell ⊢
  exact ⟨h.eof, h.program, h.programCounter, h.cursor, hcell, h.input, h.output, h.below, h.above⟩

theorem storeLast (h : Represents m w) (last : Option Int32) :
    Represents (m.storeLast last) (w.storeLast last) := by
  cases last with
  | none => exact h
  | some value => exact h.store value

theorem withInput (h : Represents m w) (input : ι) :
    Represents { m with input } { w with input } :=
  ⟨h.eof, h.program, h.programCounter, h.cursor, h.cell, rfl, h.output, h.below, h.above⟩

theorem withOutput (h : Represents m w) (scratch : Array UInt8) (output : ω) :
    Represents { m with scratch, output } { w with output } :=
  ⟨h.eof, h.program, h.programCounter, h.cursor, h.cell, h.input, rfl, h.below, h.above⟩

/-- A move of the program counter that ends near the program. -/
theorem goto (h : Represents m w) {counter : UInt64} {distance : Int}
    (hc : (counter.toNat : Int) = (w.programCounter + distance) % 2 ^ 64)
    (hb : -2 ^ 31 ≤ w.programCounter + distance)
    (ha : w.programCounter + distance ≤ w.program.length + 2 ^ 31) :
    Represents (m.goto counter) (w.skip distance) :=
  ⟨h.eof, h.program, hc, h.cursor, h.cell, h.input, h.output, hb, ha⟩

theorem advance (h : Represents m w) (hlen : w.program.length < 2 ^ 63)
    (hin : 0 ≤ w.programCounter ∧ w.programCounter < w.program.length) :
    Represents m.advance (w.skip 1) := by
  have hc := h.programCounter
  refine h.goto ?_ (by omega) (by omega)
  rw [toNat_add_one (by omega)]
  omega

theorem jump (h : Represents m w) (hlen : w.program.length < 2 ^ 63)
    (hin : 0 ≤ w.programCounter ∧ w.programCounter < w.program.length) (distance : Int32)
    (taken : Prop) [Decidable taken] :
    Represents (m.jump distance (decide taken))
      (w.skip (if taken then distance.toInt else 1)) := by
  by_cases ht : taken
  · have hc := h.programCounter
    have hd := distance.le_toInt
    have hd' := distance.toInt_lt
    rw [decide_eq_true ht, if_pos ht]
    refine h.goto ?_ (by omega) (by omega)
    rw [toNat_add_distance]
    omega
  · rw [decide_eq_false ht, if_neg ht]
    exact h.advance hlen hin

theorem settle (h : Represents m w) (hlen : w.program.length < 2 ^ 63)
    (hin : 0 ≤ w.programCounter ∧ w.programCounter < w.program.length)
    (result : Except IoError Unit) :
    (settle (result, m)).1 = (Integral.settle result w).1 ∧
      Represents (settle (result, m)).2 (Integral.settle result w).2 := by
  cases result with
  | ok => exact ⟨rfl, h.advance hlen hin⟩
  | error error => exact ⟨rfl, h⟩

theorem moveTo (h : Represents m w) {target : UInt64} {amount : Int}
    (ht : (target.toNat : Int) = w.cursor + amount) :
    Represents ({ m with cursor := target } : Machine ι ω).cover
      { w with cursor := w.cursor + amount } := by
  have hcell : ∀ index : Nat,
      ({ m with cursor := target } : Machine ι ω).cover.cell index = w.cells index := by
    intro index
    rw [cell_cover]
    exact h.cell index
  rw [cover_eq] at hcell ⊢
  exact ⟨h.eof, h.program, h.programCounter, ht, hcell, h.input, h.output, h.below, h.above⟩

/-! ### Instructions -/

variable [Input ι] [Output ω]

theorem perform_move (h : Represents m w) (hshort : m.cursor.toNat < 2 ^ 62)
    (hlen : w.program.length < 2 ^ 63)
    (hin : 0 ≤ w.programCounter ∧ w.programCounter < w.program.length)
    {instruction : Instruction} (hop : instruction.opcode? = some .movePointer) :
    (m.perform instruction).1 = (w.perform instruction).1 ∧
      Represents (m.perform instruction).2 (w.perform instruction).2 := by
  have ha := instruction.argument.toInt_lt
  have hneg := @target_lt_zero_iff m.cursor instruction.argument
    (by omega) (by omega)
  rw [h.cursor] at hneg
  rw [perform_movePointer m hop]
  unfold Integral.perform
  rw [hop]
  dsimp only
  by_cases hlt : w.cursor + instruction.argument.toInt < 0
  · rw [movePointer_below m (hneg.mpr hlt), if_pos hlt, h.ofInt_cursor]
    exact ⟨rfl, h⟩
  · rw [movePointer_within m (fun ht => hlt (hneg.mp ht)), if_neg hlt]
    have ht := @toNat_target m.cursor instruction.argument
      (by omega) (by omega) (by rw [h.cursor]; omega)
    rw [h.cursor] at ht
    exact ⟨rfl, (h.moveTo ht).advance hlen hin⟩

theorem perform (h : Represents m w) (hshort : m.cursor.toNat < 2 ^ 62)
    (hlen : m.program.length < 2 ^ 63) {instruction : Instruction}
    (hf : m.fetch = some instruction) :
    (m.perform instruction).1 = (w.perform instruction).1 ∧
      Represents (m.perform instruction).2 (w.perform instruction).2 := by
  have hin := h.within hlen hf
  rw [h.program] at hlen
  cases hop : instruction.opcode? with
  | none =>
    rw [perform_unknown m hop, Integral.perform, hop]
    dsimp only
    rw [h.ofInt_programCounter]
    exact ⟨rfl, h⟩
  | some opcode =>
    cases opcode with
    | movePointer => exact h.perform_move hshort hlen hin hop
    | addValue =>
      rw [perform_addValue m hop, Integral.perform, hop, addValue, h.current]
      exact ⟨rfl, (h.store _).advance hlen hin⟩
    | readByte =>
      rw [perform_readByte m hop, readBytes_eq, Integral.perform, hop, h.eof, h.input]
      dsimp only
      generalize readings w.eof instruction.argument.toInt.toNat none w.input = after
      obtain ⟨hprog, hpc⟩ := w.storeLast_place after.last
      rw [← hprog] at hlen
      rw [← hprog, ← hpc] at hin
      exact ((h.storeLast after.last).withInput after.input).settle hlen hin after.result
    | writeByte =>
      rw [perform_writeByte m hop, Integral.perform, hop]
      dsimp only
      by_cases hle : instruction.argument.toInt ≤ 0
      · rw [if_pos hle, if_pos hle]
        exact ⟨rfl, h.advance hlen hin⟩
      · rw [if_neg hle, if_neg hle, writeBytes_eq, h.current, h.output]
        dsimp only
        generalize Output.write w.output
          (List.replicate instruction.argument.toInt.toNat w.current.toUInt32.toUInt8) = written
        exact (h.withOutput _ written.2).settle hlen hin written.1
    | jumpIfZero =>
      rw [perform_jumpIfZero m hop, Integral.perform, hop, h.current]
      exact ⟨rfl, h.jump hlen hin _ _⟩
    | jumpIfNonzero =>
      rw [perform_jumpIfNonzero m hop, Integral.perform, hop, h.current]
      exact ⟨rfl, h.jump hlen hin _ _⟩

theorem tick (h : Represents m w) (hshort : m.cursor.toNat < 2 ^ 62)
    (hlen : m.program.length < 2 ^ 63) : Represents m.tick w.tick := by
  have hw := h.fetch hlen
  unfold Integral.tick
  cases hf : m.fetch with
  | none =>
    rw [← hw, hf]
    unfold Machine.tick
    rw [hf]
    exact h
  | some instruction =>
    rw [← hw, hf, tick_of_fetch hf]
    exact (h.perform hshort hlen hf).2

/-- A run ends in the same way with integers for registers, and leaves the same behind. -/
theorem run (h : Represents m w) (hcov : Covered m) (hlen : m.program.length < 2 ^ 63) (limit : Nat)
    (hshort : (m.run limit).2.tape.length < 2 ^ 62) :
    (m.run limit).1 = (w.run limit).1 ∧ Represents (m.run limit).2 (w.run limit).2 := by
  induction limit generalizing m w with
  | zero => exact ⟨rfl, h⟩
  | succ limit ih =>
    have hw := h.fetch hlen
    -- the tape never gets shorter, so its bound at the end of the run is one at every fetch
    have hcur : m.cursor.toNat < 2 ^ 62 :=
      Nat.lt_trans hcov (Nat.lt_of_le_of_lt (kept_run hcov (limit + 1)).2 hshort)
    rw [Machine.run] at hshort ⊢
    rw [Integral.run, ← hw]
    cases hf : m.fetch with
    | none => exact ⟨rfl, h⟩
    | some instruction =>
      have hk := Keeps.perform hcov instruction
      obtain ⟨hr, hm⟩ := h.perform hcur hlen hf
      rw [hf] at hshort
      dsimp only at hshort ⊢
      rcases hp : m.perform instruction with ⟨result, next⟩
      rcases hp' : w.perform instruction with ⟨result', next'⟩
      rw [hp] at hk hr hm hshort
      rw [hp'] at hr hm
      obtain rfl : result = result' := hr
      cases result with
      | error fault => exact ⟨rfl, hm⟩
      | ok => exact ih hm hk.covered (by rw [hk.program]; exact hlen) hshort

end Represents

/-! ### Every state after a load -/

variable [Input ι] [Output ω]

theorem represents_after (machine : Machine ι ω) (program : Program)
    (hlen : program.length < 2 ^ 63) (count : Nat)
    (hshort : ((machine.load program).after count).tape.length < 2 ^ 62) :
    Represents ((machine.load program).after count)
      ((Integral.start machine.config.eof program machine.input machine.output).after count) := by
  induction count with
  | zero => exact .load machine program
  | succ count ih =>
    obtain ⟨hcov, hprogram⟩ := after_load machine program count
    have hle := (Keeps.tick hcov).length_le
    have hshort' := Nat.lt_of_le_of_lt hle hshort
    exact (ih hshort').tick (Nat.lt_trans hcov hshort') (by rw [hprogram]; exact hlen)

/-- A state of a machine is exact when its registers, the ones it computes for the instruction there
and everything that follows are those of a state with integers for registers. -/
structure Exact (m : Machine ι ω) (w : Integral ι ω) : Prop where
  cursor : (m.cursor.toNat : Int) = w.cursor
  programCounter : (m.programCounter.toNat : Int) = w.programCounter % 2 ^ 64
  /-- No program counter below the program is an index of the program. -/
  below : w.programCounter < 0 → m.program.length ≤ m.programCounter.toNat
  fetch : m.fetch = w.fetch
  left : m.fetch = none ↔ w.programCounter < 0 ∨ m.program.length ≤ w.programCounter
  /-- A program that has been left is not taken up again. -/
  stays : m.fetch = none → m.tick = m ∧ ∀ limit, m.run (limit + 1) = (.halted, m)
  move : ∀ instruction, m.fetch = some instruction →
    (m.cursor.toInt64 + instruction.argument.toInt64).toInt =
      w.cursor + instruction.argument.toInt
  advance : ∀ instruction, m.fetch = some instruction →
    ((m.programCounter + 1).toNat : Int) = w.programCounter + 1
  jump : ∀ instruction, m.fetch = some instruction →
    ((m.programCounter + instruction.argument.toInt64.toUInt64).toNat : Int) =
      (w.programCounter + instruction.argument.toInt) % 2 ^ 64
  outOfBounds : ∀ instruction, m.fetch = some instruction →
    ((∃ cursor delta, (m.perform instruction).1 = .error (.memoryOutOfBounds cursor delta)) ↔
      instruction.opcode? = some .movePointer ∧ w.cursor + instruction.argument.toInt < 0)
  perform : ∀ instruction, m.fetch = some instruction →
    (m.perform instruction).1 = (w.perform instruction).1 ∧
      Represents (m.perform instruction).2 (w.perform instruction).2
  run : ∀ limit, (m.run limit).2.tape.length < 2 ^ 62 →
    (m.run limit).1 = (w.run limit).1 ∧ Represents (m.run limit).2 (w.run limit).2
  halted : ∀ limit, (m.run limit).2.tape.length < 2 ^ 62 →
    ((m.run (limit + 1)).1 = .halted ↔
      (w.run limit).2.programCounter < 0 ∨
        m.program.length ≤ (w.run limit).2.programCounter)

theorem Represents.exact {m : Machine ι ω} {w : Integral ι ω} (h : Represents m w)
    (hcov : Covered m) (hlen : m.program.length < 2 ^ 63) (hshort : m.tape.length < 2 ^ 62) :
    Exact m w where
  cursor := h.cursor
  programCounter := h.programCounter
  below hneg := by
    have hc := h.programCounter
    have hb := h.below
    omega
  fetch := h.fetch hlen
  left := by
    rw [h.fetch hlen, h.program]
    exact w.fetch_eq_none_iff
  stays hnone := by
    refine ⟨?_, run_of_fetch_none hnone⟩
    unfold Machine.tick
    rw [hnone]
  move instruction _ := by
    have ha := instruction.argument.toInt_lt
    have hcur : m.cursor.toNat < 2 ^ 62 := Nat.lt_trans hcov hshort
    rw [toInt_target (by omega) (by omega), h.cursor]
  advance instruction hf := by
    have hin := h.within hlen hf
    have hc := h.programCounter
    rw [h.program] at hlen
    rw [toNat_add_one (by omega)]
    omega
  jump instruction _ := by
    rw [toNat_add_distance, h.programCounter, Int.emod_add_emod]
  outOfBounds instruction hf := by
    rw [(h.perform (Nat.lt_trans hcov hshort) hlen hf).1]
    exact w.outOfBounds_iff instruction
  perform instruction hf := h.perform (Nat.lt_trans hcov hshort) hlen hf
  run limit hrun := h.run hcov hlen limit hrun
  halted limit hrun := by
    obtain ⟨-, hm⟩ := h.run hcov hlen limit hrun
    have hp := (kept_run hcov limit).1
    rw [run_halted_iff hcov, hm.fetch (by rw [hp]; exact hlen), ← hp, hm.program]
    exact Integral.fetch_eq_none_iff _

/-- After any load of a program, as long as the tape has fewer than `2 ^ 62` cells, every state of
the machine is exact: its registers and all their successors are those of a machine with integers
for registers, and nothing but the intended wrap of the program counter happens. -/
theorem integral_registers (machine : Machine ι ω) (program : Program)
    (hlen : program.length < 2 ^ 63) (count : Nat)
    (hshort : ((machine.load program).after count).tape.length < 2 ^ 62) :
    Exact ((machine.load program).after count)
      ((Integral.start machine.config.eof program machine.input machine.output).after count) := by
  obtain ⟨hcov, hprogram⟩ := after_load machine program count
  exact (represents_after machine program hlen count hshort).exact hcov
    (by rw [hprogram]; exact hlen) hshort

/-- Two instructions of a program that jumps from its place 1 to the place -4. -/
theorem integral_registers_below_program :
    let program := Program.ofList [.ofOpcode .movePointer 3, .ofOpcode .jumpIfZero (-5)]
    let machine : Machine ByteBlock ByteBuffer := .new { tapeLength := 1 } (.ofList []) .empty
    let m := (machine.load program).after 2
    let w := (Integral.start 0 program machine.input machine.output).after 2
    program.length < 2 ^ 63 ∧ m.tape.length < 2 ^ 62 ∧ w.programCounter = -4 ∧ w.cursor = 3 ∧
      Exact m w := by
  intro program machine m w
  have hlen : program.length < 2 ^ 63 := by decide
  have hshort : m.tape.length < 2 ^ 62 := by decide
  exact ⟨hlen, hshort, by decide, by decide, integral_registers machine program hlen 2 hshort⟩

end Machine

end TapeMachine
