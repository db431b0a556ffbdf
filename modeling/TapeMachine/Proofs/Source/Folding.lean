import TapeMachine.Proofs.Device.Supply
import TapeMachine.Proofs.Machine.Words
import TapeMachine.Proofs.Source.Spelling

/-!
# TapeMachine.Proofs.Source.Folding — a forest runs like its commands

A structured run of a forest takes a leaf where the naive interpreter takes each command of a run.
Between two nodes the machine and the interpreter agree on cursor, cells, input and output
(`Matches`), and the position of the interpreter stands for the agenda of the run (`Reading`).  The
interpreter may fault in the middle of a run whose net effect is harmless; but for that, one does
what the other does (`follows_run`).
-/

namespace TapeMachine

open Machine

/-- A machine and an interpreter that have read and written the same and hold the same. -/
structure Matches (eof : Int32) (m : Machine ByteBlock ByteBuffer) (s : Naive) : Prop where
  eof : m.config.eof = eof
  cursor : m.cursor.toNat = s.cursor
  cell : ∀ index, m.cell index = s.cells index
  input : m.input.toList = s.unread
  output : m.output.toList = s.written

/-! ### What a leaf does to the interpreter -/

namespace Naive

/-- Reads a number of times. -/
def reads (eof : Int32) : Nat → Naive → Naive
  | 0, s => s
  | count + 1, s => reads eof count (s.read eof)

theorem reads_succ (eof : Int32) (count : Nat) (s : Naive) :
    reads eof (count + 1) s = (reads eof count s).read eof := by
  induction count generalizing s with
  | zero => rfl
  | succ count ih =>
    rw [reads, ih]
    rfl

/-- A whole run of commands at once; `none` if that ends below the first cell. -/
def act (eof : Int32) (s : Naive) (action : Action) (amount : Int) : Option Naive :=
  match action with
  | .addValue => some (s.put (s.current + Int32.ofInt amount))
  | .movePointer =>
    if s.cursor + amount < 0 then none else some { s with cursor := (s.cursor + amount).toNat }
  | .readByte => some (s.reads eof amount.toNat)
  | .writeByte => some (s.write amount.toNat)

variable {commands : List Command} {eof : Int32} {s s' : Naive} {action : Action} {amount : Int}

theorem act_below (h : s.cursor + amount < 0) : act eof s .movePointer amount = none := if_pos h

theorem act_move (h : ¬ s.cursor + amount < 0) :
    act eof s .movePointer amount = some { s with cursor := (s.cursor + amount).toNat } :=
  if_neg h

theorem read_goto (s : Naive) (position : Nat) :
    (s.goto position).read eof = (s.read eof).goto position := by
  obtain ⟨_, _, _, unread, _⟩ := s
  cases unread <;> rfl

theorem reads_goto (s : Naive) (position count : Nat) :
    (s.goto position).reads eof count = (s.reads eof count).goto position := by
  induction count generalizing s with
  | zero => rfl
  | succ count ih => rw [reads, read_goto, ih, reads]

/-- A run of commands does the same at every position. -/
theorem act_goto (s : Naive) (position : Nat) (action : Action) (amount : Int) :
    act eof (s.goto position) action amount = (act eof s action amount).map (·.goto position) := by
  cases action with
  | addValue => rfl
  | writeByte => rfl
  | readByte => exact congrArg some (reads_goto s position _)
  | movePointer =>
    by_cases h : s.cursor + amount < 0
    · rw [act_below h]
      exact act_below h
    · rw [act_move h]
      exact act_move h

/-- A command that is no bracket faults, or does what a run of one command does. -/
theorem step_act {command : Command} (hc : command.contribution? = some (action, amount))
    (hget : commands[s.position]? = some command) :
    step commands eof s = .error .faulted ∨
      ∃ s', act eof s action amount = some s' ∧
        step commands eof s = .ok (s'.goto (s.position + 1)) := by
  unfold step
  rw [hget]
  cases command <;> cases hc
  case increment => exact .inr ⟨_, rfl, rfl⟩
  case decrement =>
    refine .inr ⟨_, rfl, ?_⟩
    dsimp only
    rw [Int32.sub_eq_add_neg]
    rfl
  case moveRight =>
    have h : ¬ (s.cursor : Int) + 1 < 0 := by omega
    exact .inr ⟨_, act_move h, rfl⟩
  case moveLeft =>
    dsimp only
    by_cases h0 : s.cursor = 0
    · rw [if_pos h0]
      exact .inl rfl
    · have h : ¬ (s.cursor : Int) + -1 < 0 := by omega
      have hcursor : ((s.cursor : Int) + -1).toNat = s.cursor - 1 := by omega
      refine .inr ⟨_, act_move h, ?_⟩
      rw [if_neg h0, hcursor]
  case readByte => exact .inr ⟨_, rfl, rfl⟩
  case writeByte => exact .inr ⟨_, rfl, rfl⟩

/-! ### Runs of commands -/

theorem put_put (s : Naive) (value value' : Int32) : (s.put value).put value' = s.put value' := by
  have hcells : ∀ index, ((s.put value).put value').cells index = (s.put value').cells index := by
    intro index
    show (if index = s.cursor then value' else if index = s.cursor then value else _) =
      if index = s.cursor then value' else _
    by_cases h : index = s.cursor
    · rw [if_pos h, if_pos h]
    · rw [if_neg h, if_neg h, if_neg h]
  exact congrArg (fun cells => { s with cells }) (funext hcells)

theorem write_write (s : Naive) (count count' : Nat) :
    (s.write count).write count' = s.write (count + count') := by
  have hwritten : ((s.write count).write count').written = (s.write (count + count')).written := by
    show s.written ++ List.replicate count s.current.toUInt32.toUInt8 ++
        List.replicate count' s.current.toUInt32.toUInt8 =
      s.written ++ List.replicate (count + count') s.current.toUInt32.toUInt8
    rw [List.append_assoc, List.replicate_append_replicate]
  exact congrArg (fun written => { s with written }) hwritten

/-- One more command of a run adds to what the run did. -/
theorem act_act {total change : Int} (hfirst : act eof s action total = some s')
    (hcount : action = .readByte ∨ action = .writeByte → 0 ≤ total ∧ change = 1) :
    act eof s' action change = act eof s action (total + change) := by
  cases action with
  | addValue =>
    cases hfirst
    have hcurrent : (s.put (s.current + Int32.ofInt total)).current =
        s.current + Int32.ofInt total := if_pos rfl
    unfold act
    rw [hcurrent, put_put, Int32.ofInt_add, ← Int32.add_assoc]
  | movePointer =>
    by_cases h : s.cursor + total < 0
    · rw [act_below h] at hfirst
      cases hfirst
    · rw [act_move h] at hfirst
      cases hfirst
      have hcursor : ((s.cursor + total).toNat : Int) = s.cursor + total := by omega
      unfold act
      dsimp only
      rw [hcursor, Int.add_assoc]
  | readByte =>
    cases hfirst
    obtain ⟨h0, rfl⟩ := hcount (.inl rfl)
    have hnat : (total + 1).toNat = total.toNat + 1 := by omega
    unfold act
    rw [hnat, reads_succ]
    rfl
  | writeByte =>
    cases hfirst
    obtain ⟨h0, rfl⟩ := hcount (.inr rfl)
    have hnat : (total + 1).toNat = total.toNat + 1 := by omega
    unfold act
    rw [hnat, ← write_write]
    rfl

theorem count_of_run {run : List Command} {total : Int32} (h : Run action run total)
    (haction : action = .readByte ∨ action = .writeByte) : 0 ≤ total.toInt := by
  induction h with
  | single hc =>
    rw [(toInt_change hc).1, change_of_count hc haction]
    decide
  | extend hrun hc htotal ih =>
    have hone := change_of_count hc haction
    omega

/-- The commands of a run, one after the other, do what the run does at once, unless one of them
faults. -/
theorem run_spelled {run : List Command} {total : Int32} (hrun : Run action run total)
    (hat : PartAt commands s.position run) :
    Faults commands eof s ∨ ∃ s', act eof s action total.toInt = some s' ∧
      Naive.run commands eof run.length s = (.stopped, s'.goto (s.position + run.length)) := by
  induction hrun with
  | single hc =>
    rw [(toInt_change hc).1]
    rcases @step_act commands eof s _ _ _ hc hat.head with hfault | ⟨s', hact, hstep⟩
    · exact .inl (faults_of_step hfault)
    · exact .inr ⟨s', hact, run_one hstep⟩
  -- the commands before the last one leave the interpreter in a state of which only the position
  -- is not that of the whole run so far
  | @extend run total total' command change hrun hc htotal ih =>
    obtain ⟨hfront, hlast⟩ := hat.append
    rcases ih hfront with hfault | ⟨mid, hmid, hmidrun⟩
    · exact .inl hfault
    · have hget : commands[(mid.goto (s.position + run.length)).position]? = some command :=
        hlast.head
      rcases @step_act commands eof _ _ _ _ hc hget with hfault | ⟨last, hact, hstep⟩
      · exact .inl ((faults_of_step hfault).of_run hmidrun)
      · rw [act_goto] at hact
        obtain ⟨s', hs', rfl⟩ := Option.map_eq_some_iff.mp hact
        refine .inr ⟨s', ?_, ?_⟩
        · rw [htotal, ← act_act hmid fun h => ⟨count_of_run hrun h, change_of_count hc h⟩]
          exact hs'
        · rw [List.length_append, run_add hmidrun]
          exact run_one hstep

end Naive

/-! ### What a leaf does to the machine -/

namespace Matches

variable {eof : Int32} {m : Machine ByteBlock ByteBuffer} {s s' : Naive}

theorem current (h : Matches eof m s) : m.current = s.current := by
  rw [current_eq, h.cell, h.cursor]
  rfl

theorem goto (h : Matches eof m s) (position : Nat) : Matches eof m (s.goto position) :=
  ⟨h.eof, h.cursor, h.cell, h.input, h.output⟩

theorem elsewhere (h : Matches eof m s) (counter : UInt64) : Matches eof (m.goto counter) s :=
  ⟨h.eof, h.cursor, h.cell, h.input, h.output⟩

theorem advance (h : Matches eof m s) : Matches eof m.advance s := h.elsewhere _

theorem store (h : Matches eof m s) (value : Int32) :
    Matches eof (m.store value) (s.put value) := by
  have hcell : ∀ index, (m.store value).cell index = (s.put value).cells index := by
    intro index
    rw [cell_store, h.cursor, h.cell]
    rfl
  rw [store_eq] at hcell ⊢
  exact ⟨h.eof, h.cursor, hcell, h.input, h.output⟩

theorem readBytes (h : Matches eof m s) (count : Nat) :
    ∃ m', m.readBytes count = (.ok (), m') ∧ Matches eof m' (s.reads eof count) := by
  induction count generalizing m s with
  | zero => exact ⟨m, rfl, h⟩
  | succ count ih =>
    have hinput := h.input
    rw [Machine.readBytes, Naive.reads, Naive.read]
    cases hunread : s.unread with
    | nil =>
      rw [hunread] at hinput
      rw [atEnd_block hinput, h.eof]
      exact ih (h.store eof)
    | cons byte unread =>
      rw [hunread] at hinput
      obtain ⟨hend, after, hnext, hafter⟩ := next_block hinput
      rw [hend]
      dsimp only
      rw [hnext]
      have hread : Matches eof { m with input := after } { s with unread } :=
        ⟨h.eof, h.cursor, h.cell, hafter, h.output⟩
      exact ih (hread.store _)

theorem writeBytes (h : Matches eof m s) (count : Nat) :
    ∃ m', m.writeBytes count = (.ok (), m') ∧ Matches eof m' (s.write count) := by
  rw [writeBytes_eq, h.current]
  refine ⟨_, rfl, h.eof, h.cursor, h.cell, h.input, ?_⟩
  show (m.output.append _).toList = s.written ++ _
  rw [ByteBuffer.toList_append, h.output]

theorem movePointer (h : Matches eof m s) (hnear : m.cursor.toNat < 2 ^ 62) {amount : Int32}
    (hmove : ¬ s.cursor + amount.toInt < 0) :
    ∃ m', m.movePointer amount = (.ok (), m') ∧
      Matches eof m' { s with cursor := (s.cursor + amount.toInt).toNat } := by
  have hlt := amount.toInt_lt
  rw [← h.cursor] at hmove ⊢
  have htarget := @toNat_target m.cursor amount (by omega) (by omega) (by omega)
  have hneg := @target_lt_zero_iff m.cursor amount (by omega) (by omega)
  rw [movePointer_within m fun hn => hmove (hneg.mp hn)]
  refine ⟨_, rfl, ?_⟩
  generalize (m.cursor.toInt64 + amount.toInt64).toUInt64 = target at htarget ⊢
  have hcell : ∀ index, ({ m with cursor := target } : Machine _ _).cover.cell index =
      s.cells index := by
    intro index
    rw [cell_cover]
    exact h.cell index
  refine advance ?_
  rw [cover_eq] at hcell ⊢
  refine ⟨h.eof, ?_, hcell, h.input, h.output⟩
  show target.toNat = (m.cursor.toNat + amount.toInt).toNat
  omega

/-- The instruction of a leaf does what its run of commands does at once. -/
theorem perform (h : Matches eof m s) (hnear : m.cursor.toNat < 2 ^ 62) {action : Action}
    {argument : Int32} (hact : s.act eof action argument.toInt = some s') :
    ∃ m', m.perform (.ofOpcode (.ofAction action) argument) = (.ok (), m') ∧
      Matches eof m' s' := by
  have hop := Instruction.opcode?_ofOpcode (.ofAction action) argument
  cases action with
  | addValue =>
    cases hact
    rw [perform_addValue m hop, addValue, h.current, Int32.ofInt_toInt]
    exact ⟨_, rfl, (h.store _).advance⟩
  | movePointer =>
    by_cases hneg : s.cursor + argument.toInt < 0
    · rw [Naive.act_below hneg] at hact
      cases hact
    · rw [Naive.act_move hneg] at hact
      cases hact
      rw [perform_movePointer m hop]
      exact h.movePointer hnear hneg
  | readByte =>
    cases hact
    obtain ⟨m', hread, hm'⟩ := h.readBytes argument.toInt.toNat
    rw [perform_readByte m hop]
    refine ⟨m'.advance, ?_, hm'.advance⟩
    show settle (m.readBytes argument.toInt.toNat) = _
    rw [hread]
    rfl
  | writeByte =>
    cases hact
    rw [perform_writeByte m hop]
    show ∃ m', (if argument.toInt ≤ 0 then _
      else settle (m.writeBytes argument.toInt.toNat)) = _ ∧ _
    by_cases hle : argument.toInt ≤ 0
    · have hzero : argument.toInt.toNat = 0 := by omega
      rw [if_pos hle, hzero]
      refine ⟨m.advance, rfl, h.eof, h.cursor, h.cell, h.input, ?_⟩
      rw [Naive.write, List.replicate_zero, List.append_nil]
      exact h.output
    · obtain ⟨m', hwrite, hm'⟩ := h.writeBytes argument.toInt.toNat
      rw [if_neg hle, hwrite]
      exact ⟨_, rfl, hm'.advance⟩

end Matches

/-! ### Positions and agendas -/

/-- Going on from a position of the commands amounts to working through an agenda. -/
inductive Reading (commands : List Command) : Nat → List Placed → Prop
  | done : Reading commands commands.length []
  | leaf {position place : Nat} {action : Action} {argument : Int32} {run : List Command}
      {rest : List Placed} (hrun : Run action run argument) (htext : PartAt commands position run)
      (hrest : Reading commands (position + run.length) rest) :
      Reading commands position (⟨place, .leaf action argument⟩ :: rest)
  | loop {position place offset : Nat} {body : Forest} {inner : List Command} {rest : List Placed}
      (hbody : Spells inner body)
      (htext : PartAt commands position (.loopStart :: (inner ++ [.loopEnd])))
      (hrest : Reading commands (position + 1 + inner.length + 1) rest) :
      Reading commands position (⟨place, .loop offset body⟩ :: rest)
  /-- The body of a loop has been done, and the bracket behind it is next. -/
  | again {position place offset : Nat} {body : Forest} {inner : List Command} {rest : List Placed}
      (hbody : Spells inner body)
      (htext : PartAt commands position (.loopStart :: (inner ++ [.loopEnd])))
      (hrest : Reading commands (position + 1 + inner.length + 1) rest) :
      Reading commands (position + 1 + inner.length) (⟨place, .loop offset body⟩ :: rest)

namespace Reading

variable {commands text : List Command} {s : Naive} {position place offset : Nat} {body : Forest}
  {rest : List Placed}

theorem placed {forest : List Node} (h : Spells text forest) (htext : PartAt commands position text)
    (hrest : Reading commands (position + text.length) rest) :
    Reading commands position (Forest.placed place forest ++ rest) := by
  induction h generalizing position place with
  | nil => exact hrest
  | leaf hrun hspelled ih =>
    obtain ⟨hfront, hback⟩ := htext.append
    rw [List.length_append, ← Nat.add_assoc] at hrest
    exact .leaf hrun hfront (ih hback hrest)
  | @loop offset inner text body forest hbody hspelled ihbody ih =>
    obtain ⟨hfront, hback⟩ := htext.append
    have hlen : position + (Command.loopStart :: (inner ++ [.loopEnd])).length =
        position + 1 + inner.length + 1 := by
      rw [List.length_cons, List.length_append, List.length_singleton]
      omega
    rw [List.length_append, ← Nat.add_assoc, hlen] at hrest
    rw [hlen] at hback
    exact .loop hbody hfront (ih hback hrest)

/-- The search forward from the bracket in front of a body finds the one behind it. -/
theorem closing_eq {inner : List Command} (hbody : Spells inner body)
    (htext : PartAt commands position (.loopStart :: (inner ++ [.loopEnd]))) :
    Naive.closing commands position = some (position + 1 + inner.length) := by
  obtain ⟨tail, htail⟩ := htext.tail
  unfold Naive.closing
  rw [← htail, List.append_assoc, List.singleton_append, hbody.passes.1.found nofun]
  rfl

/-- The search backward from the bracket behind a body finds the one in front of it. -/
theorem opening_eq {inner : List Command} (hbody : Spells inner body)
    (htext : PartAt commands position (.loopStart :: (inner ++ [.loopEnd]))) :
    Naive.opening commands (position + 1 + inner.length) = some position := by
  obtain ⟨tail, htail⟩ := htext
  have hlen : (Command.loopStart :: inner).length = 1 + inner.length := by
    rw [List.length_cons, Nat.add_comm]
  have htake : commands.take (position + 1 + inner.length) =
      commands.take position ++ (.loopStart :: inner) := by
    rw [Nat.add_assoc, List.take_add, ← htail, ← hlen, List.cons_append, List.append_assoc,
      ← List.cons_append, List.take_left]
  unfold Naive.opening
  rw [htake, List.reverse_append, List.reverse_cons, List.append_assoc, List.singleton_append,
    hbody.passes.2.found nofun, List.length_reverse]
  show some (position + 1 + inner.length - 1 - inner.length) = some position
  congr 1
  omega

/-- At a loop, the next command is a bracket that tests it. -/
theorem step_loop (eof : Int32)
    (h : Reading commands s.position (⟨place, .loop offset body⟩ :: rest)) :
    ∃ next, Naive.step commands eof s = .ok (s.goto next) ∧
      Reading commands next (if s.current = 0 then rest
        else Forest.placed (place + 1) body ++ ⟨place, .loop offset body⟩ :: rest) := by
  generalize hposition : s.position = position at h
  unfold Naive.step
  rw [hposition]
  cases h with
  | loop hbody htext hrest =>
    obtain ⟨hhead, hinner, hlast⟩ := htext.between
    rw [hhead]
    dsimp only
    by_cases hzero : s.current = 0
    · rw [if_pos hzero, if_pos hzero, closing_eq hbody htext]
      exact ⟨_, rfl, hrest⟩
    · rw [if_neg hzero, if_neg hzero]
      exact ⟨_, rfl, placed hbody hinner (.again hbody htext hrest)⟩
  | again hbody htext hrest =>
    obtain ⟨hhead, hinner, hlast⟩ := htext.between
    rw [hlast]
    dsimp only
    by_cases hzero : s.current = 0
    · rw [if_neg (not_not_intro hzero), if_pos hzero]
      exact ⟨_, rfl, hrest⟩
    · rw [if_pos hzero, if_neg hzero, opening_eq hbody htext]
      exact ⟨_, rfl, placed hbody hinner (.again hbody htext hrest)⟩

end Reading

/-! ### Runs -/

/-- What the interpreter does while a run of `limit` steps comes to a result: it faults, or it halts
as the run does, or it is as far as the run after no fewer commands. -/
def Follows (commands : List Command) (eof : Int32) (limit : Nat) (s : Naive)
    (outcome : Outcome) (machine : Machine ByteBlock ByteBuffer) : Prop :=
  Naive.Faults commands eof s ∨ ∃ count s', Matches eof machine s' ∧
    (outcome = .halted ∧ Naive.run commands eof count s = (.halted, s') ∨
      outcome = .stopped ∧ limit ≤ count ∧ Naive.run commands eof count s = (.stopped, s'))

/-- The commands of one step come in front of those of the steps after it. -/
theorem Follows.of_run {commands : List Command} {eof : Int32} {limit count : Nat} {s next : Naive}
    {outcome : Outcome} {machine : Machine ByteBlock ByteBuffer}
    (hrun : Naive.run commands eof count s = (.stopped, next)) (hpos : 1 ≤ count)
    (h : Follows commands eof limit next outcome machine) :
    Follows commands eof (limit + 1) s outcome machine := by
  rcases h with hfault | ⟨more, s', hm, ⟨hend, hmore⟩ | ⟨hend, hle, hmore⟩⟩
  · exact .inl (hfault.of_run hrun)
  · exact .inr ⟨count + more, s', hm, .inl ⟨hend, (Naive.run_add hrun more).trans hmore⟩⟩
  · exact .inr ⟨count + more, s', hm,
      .inr ⟨hend, by omega, (Naive.run_add hrun more).trans hmore⟩⟩

theorem Follows.elsewhere {commands : List Command} {eof : Int32} {limit : Nat} {s : Naive}
    {outcome : Outcome} {machine : Machine ByteBlock ByteBuffer}
    (h : Follows commands eof limit s outcome machine) (counter : UInt64) :
    Follows commands eof limit s outcome (machine.goto counter) := by
  rcases h with hfault | ⟨count, s', hm, hend⟩
  · exact .inl hfault
  · exact .inr ⟨count, s', hm.elsewhere counter, hend⟩

/-- The interpreter follows every structured run whose cursors stay below `2 ^ 62`. -/
theorem follows_run {commands : List Command} {eof : Int32} {m : Machine ByteBlock ByteBuffer}
    {s : Naive} {agenda : List Placed} (hread : Reading commands s.position agenda)
    (hm : Matches eof m s) (limit : Nat)
    (hnear : ∀ earlier, earlier < limit →
      (Structured.run earlier agenda m).machine.cursor.toNat < 2 ^ 62) :
    Follows commands eof limit s (Structured.run limit agenda m).outcome
      (Structured.run limit agenda m).machine := by
  induction limit generalizing m s agenda with
  | zero => exact .inr ⟨0, s, hm, .inr ⟨rfl, Nat.le_refl 0, rfl⟩⟩
  | succ limit ih =>
    have hfirst : m.cursor.toNat < 2 ^ 62 := hnear 0 (Nat.succ_pos limit)
    -- the first step of the structured run, and what it leaves to the others
    have hgoes : ∀ {agenda' m'}, (∀ k, Structured.run (k + 1) agenda m =
        Structured.run k agenda' m') → ∀ earlier, earlier < limit →
          (Structured.run earlier agenda' m').machine.cursor.toNat < 2 ^ 62 := by
      intro agenda' m' hstep earlier hlt
      rw [← hstep]
      exact hnear (earlier + 1) (Nat.succ_lt_succ hlt)
    rcases agenda with _ | ⟨⟨place, node⟩, rest⟩
    · generalize hposition : s.position = position at hread
      cases hread with
      | done =>
        refine .inr ⟨1, s, hm, .inl ⟨rfl, ?_⟩⟩
        rw [Naive.run, Naive.step, hposition, List.getElem?_eq_none (Nat.le_refl _)]
    · cases node with
      | leaf action argument =>
        generalize hposition : s.position = position at hread
        cases hread with
        | leaf hrun htext hrest =>
          rw [← hposition] at htext hrest
          rcases @Naive.run_spelled commands eof s _ _ _ hrun htext with
            hfault | ⟨s', hact, hcommands⟩
          · exact .inl hfault
          · obtain ⟨m', hperform, hm'⟩ := hm.perform hfirst hact
            have hstep : ∀ k, Structured.run (k + 1) (⟨place, .leaf action argument⟩ :: rest) m =
                Structured.run k rest m' := by
              intro k
              rw [Structured.run, hperform]
            rw [hstep]
            exact .of_run hcommands hrun.length_pos (ih hrest (hm'.goto _) (hgoes hstep))
      | loop offset body =>
        obtain ⟨next, hcommand, hrest⟩ := hread.step_loop eof
        have hstep : ∀ k, Structured.run (k + 1) (⟨place, .loop offset body⟩ :: rest) m =
            Structured.run k (if s.current = 0 then rest
              else Forest.placed (place + 1) body ++ ⟨place, .loop offset body⟩ :: rest) m := by
          intro k
          rw [Structured.run, hm.current]
          by_cases hzero : s.current = 0
          · rw [if_pos hzero, if_pos hzero]
          · rw [if_neg hzero, if_neg hzero]
        rw [hstep]
        exact .of_run (Naive.run_one hcommand) (Nat.le_refl 1)
          (ih hrest (hm.goto next) (hgoes hstep))

end TapeMachine
