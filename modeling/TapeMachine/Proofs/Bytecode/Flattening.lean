import TapeMachine.Proofs.Bytecode.Layout
import TapeMachine.Proofs.Machine.After
import TapeMachine.Proofs.Machine.Words

/-!
# TapeMachine.Proofs.Bytecode.Flattening — flat code runs like the forest it comes from

The program counter stands for an agenda: `Ready code place agenda` says that running on from a
place amounts to working through the agenda.  A loop is at the head of an agenda in two places, at
the jump in front of its body and at the jump behind it.  One instruction takes one step of the
structured run (`Ready.leaf`, `Ready.loop`), so a run of any length goes along with the structured
run of that length (`flatten_lockstep`), whether it halts, faults or never ends (`flatten_run`).
-/

namespace TapeMachine

open Machine

variable {ι ω : Type} {code : List Instruction} {place : Nat} {offset : Nat} {body : Forest}
  {rest : List Placed}

/-- Running on from a place of the code amounts to working through an agenda. -/
inductive Ready (code : List Instruction) : Nat → List Placed → Prop
  | done : Ready code code.length []
  | start {place : Nat} {node : Node} {rest : List Placed} (hcode : PartAt code place node.code)
      (hfits : node.Fits) (hrest : Ready code (place + node.size) rest) :
      Ready code place (⟨place, node⟩ :: rest)
  /-- The body of a loop has been done, and the loop is to be tested again. -/
  | again {place offset : Nat} {body : Forest} {rest : List Placed}
      (hcode : PartAt code place (Node.loop offset body).code)
      (hfits : (Node.loop offset body).Fits)
      (hrest : Ready code (place + (Node.loop offset body).size) rest) :
      Ready code (place + 1 + Forest.size body) (⟨place, .loop offset body⟩ :: rest)

/-! ### The code of a loop -/

/-- The three parts of the code of a loop. -/
theorem loop_code (h : PartAt code place (Node.loop offset body).code) :
    code[place]? = some (.ofOpcode .jumpIfZero (Int32.ofNat (Forest.size body + 2))) ∧
      PartAt code (place + 1) (Forest.code body) ∧
      code[place + 1 + Forest.size body]? =
        some (.ofOpcode .jumpIfNonzero (Int32.ofInt (-Forest.size body))) := by
  obtain ⟨hhead, hbody, hlast⟩ := PartAt.between h
  rw [Forest.length_code] at hlast
  exact ⟨hhead, hbody, hlast⟩

/-- The first jump of a loop lands behind the loop. -/
theorem toNat_jump_over (counter : UInt64) {k : Nat} (hk : k + 2 ≤ Int32.maxValue.toInt.toNat)
    (hlt : counter.toNat + (k + 2) < 2 ^ 64) :
    (counter + (Int32.ofNat (k + 2)).toInt64.toUInt64).toNat = counter.toNat + (k + 2) := by
  have hjump := toNat_add_distance counter (Int32.ofNat (k + 2))
  rw [(toInt_jumps hk).1] at hjump
  omega

/-- The last jump of a loop lands on its body. -/
theorem toNat_jump_back (counter : UInt64) {k : Nat} (hk : k + 2 ≤ Int32.maxValue.toInt.toNat)
    (hle : k ≤ counter.toNat) :
    (counter + (Int32.ofInt (-k)).toInt64.toUInt64).toNat = counter.toNat - k := by
  have hjump := toNat_add_distance counter (Int32.ofInt (-k))
  have hlt := counter.toNat_lt
  rw [(toInt_jumps hk).2] at hjump
  omega

namespace Ready

theorem le_length {agenda : List Placed} (h : Ready code place agenda) : place ≤ code.length := by
  induction h with
  | done => exact Nat.le_refl _
  | start hcode hfits hrest ih => omega
  | again hcode hfits hrest ih =>
    rw [Node.size] at ih
    omega

theorem eq_length (h : Ready code place []) : place = code.length := by
  cases h with
  | done => rfl

/-- Before a forest whose code is at this place comes what the forest has to do. -/
theorem placed {forest : List Node} (hcode : PartAt code place (Forest.code forest))
    (hfits : Forest.Fits forest) (hrest : Ready code (place + Forest.size forest) rest) :
    Ready code place (Forest.placed place forest ++ rest) := by
  induction forest generalizing place with
  | nil => exact hrest
  | cons node nodes ih =>
    obtain ⟨hnode, hnodes⟩ := hcode.append
    rw [Node.length_code] at hnodes
    refine .start hnode hfits.1 (ih hnodes hfits.2 ?_)
    rw [Forest.size, ← Nat.add_assoc] at hrest
    exact hrest

/-- At a leaf, its instruction is next. -/
theorem leaf {action : Action} {argument : Int32} {pc : Nat}
    (h : Ready code pc (⟨place, .leaf action argument⟩ :: rest)) :
    place = pc ∧ code[pc]? = some (.ofOpcode (.ofAction action) argument) ∧
      Ready code (pc + 1) rest := by
  cases h with
  | start hcode hfits hrest => exact ⟨rfl, hcode.head, hrest⟩

variable {m : Machine ι ω} {counter : UInt64}

theorem fetch_goto {instruction : Instruction} (hprogram : m.program = .ofList code)
    (h : code[counter.toNat]? = some instruction) :
    (m.goto counter).fetch = some instruction := by
  show m.program.get? counter.toNat = some instruction
  rw [hprogram, ← h]
  exact Array.getElem?_toList.symm

theorem jump_true {taken : Prop} [Decidable taken] (h : taken) (distance : Int32) :
    ((.ok (), (m.goto counter).jump distance (decide taken)) : Except Fault Unit × Machine ι ω) =
      (.ok (), m.goto (counter + distance.toInt64.toUInt64)) := by
  rw [decide_eq_true h]
  rfl

theorem jump_false {taken : Prop} [Decidable taken] (h : ¬ taken) (distance : Int32) :
    ((.ok (), (m.goto counter).jump distance (decide taken)) : Except Fault Unit × Machine ι ω) =
      (.ok (), m.goto (counter + 1)) := by
  rw [decide_eq_false h]
  rfl

variable [Input ι] [Output ω]

/-- At a loop, the next instruction is a jump that tests it.  It is not the same one before the
first round as after each round, but either leads on to what the test leaves to be done. -/
theorem loop (h : Ready code counter.toNat (⟨place, .loop offset body⟩ :: rest))
    (hprogram : m.program = .ofList code) (hlen : code.length < 2 ^ 64) :
    ∃ instruction next, (m.goto counter).fetch = some instruction ∧
      (m.goto counter).perform instruction = (.ok (), m.goto next) ∧
      (m.goto counter).calls instruction = [] ∧
      Ready code next.toNat (if m.current = 0 then rest
        else Forest.placed (place + 1) body ++ ⟨place, .loop offset body⟩ :: rest) := by
  generalize hpc : counter.toNat = pc at h
  have hle := h.le_length
  cases h with
  | start hcode hfits hrest =>
    obtain ⟨hhead, hbody, hlast⟩ := loop_code hcode
    have hin := hrest.le_length
    rw [Node.size] at hrest hin
    have hop := Instruction.opcode?_ofOpcode .jumpIfZero (Int32.ofNat (Forest.size body + 2))
    have hperform := perform_jumpIfZero (m.goto counter) hop
    have hcalls := calls_jump (m.goto counter) (.inl hop)
    have hfetch := fetch_goto hprogram (by rw [hpc]; exact hhead)
    by_cases hzero : m.current = 0
    · have hnext := toNat_jump_over counter hfits.1 (by omega)
      refine ⟨_, counter + (Int32.ofNat (Forest.size body + 2)).toInt64.toUInt64, hfetch,
        hperform.trans (jump_true hzero _), hcalls, ?_⟩
      rw [if_pos hzero, hnext, hpc]
      exact hrest
    · have hnext := @toNat_add_one counter (by omega)
      refine ⟨_, _, hfetch, hperform.trans (jump_false hzero _), hcalls, ?_⟩
      rw [if_neg hzero, hnext, hpc]
      refine placed hbody hfits.2 ?_
      exact .again hcode hfits hrest
  | again hcode hfits hrest =>
    obtain ⟨hhead, hbody, hlast⟩ := loop_code hcode
    have hin := hrest.le_length
    have hop := Instruction.opcode?_ofOpcode .jumpIfNonzero (Int32.ofInt (-Forest.size body))
    have hperform := perform_jumpIfNonzero (m.goto counter) hop
    have hcalls := calls_jump (m.goto counter) (.inr hop)
    have hfetch := fetch_goto hprogram (by rw [hpc]; exact hlast)
    rw [Node.size] at hin
    by_cases hzero : m.current = 0
    · have hnext := @toNat_add_one counter (by omega)
      refine ⟨_, _, hfetch, hperform.trans (jump_false (not_not_intro hzero) _), hcalls, ?_⟩
      have hbehind : place + 1 + Forest.size body + 1 = place + (Forest.size body + 2) := by omega
      rw [if_pos hzero, hnext, hpc, hbehind]
      exact hrest
    · have hnext := toNat_jump_back counter hfits.1 (by omega)
      refine ⟨_, counter + (Int32.ofInt (-Forest.size body)).toInt64.toUInt64, hfetch,
        hperform.trans (jump_true hzero _), hcalls, ?_⟩
      rw [if_neg hzero, hnext, hpc, Nat.add_sub_cancel]
      exact placed hbody hfits.2 (.again hcode hfits hrest)

end Ready

/-! ### Runs -/

theorem fetch_end {m : Machine ι ω} {counter : UInt64} (hprogram : m.program = .ofList code)
    (h : Ready code counter.toNat []) : (m.goto counter).fetch = none := by
  show m.program.get? counter.toNat = none
  rw [hprogram, h.eq_length]
  exact Array.getElem?_eq_none (Nat.le_refl _)

variable [Input ι] [Output ω]

/-- Instruction by instruction, flat code does what the agenda at the program counter says. -/
theorem flatten_lockstep {m : Machine ι ω} {counter : UInt64} {agenda : List Placed}
    (h : Ready code counter.toNat agenda) (hprogram : m.program = .ofList code) (hcov : Covered m)
    (hlen : code.length < 2 ^ 64) (limit : Nat) :
    ((m.goto counter).run limit).1 = (Structured.run limit agenda m).outcome ∧
      (m.goto counter).callsWithin limit = Structured.calls limit agenda m ∧
      ∃ next, ((m.goto counter).run limit).2 = (Structured.run limit agenda m).machine.goto next ∧
        Ready code next.toNat (Structured.run limit agenda m).agenda := by
  -- on the limit, for every agenda: a loop puts its body in front of what is left to be done
  induction limit generalizing m counter agenda with
  | zero => exact ⟨rfl, rfl, counter, rfl, h⟩
  | succ limit ih =>
    rw [Machine.run, callsWithin]
    rcases agenda with _ | ⟨⟨place, node⟩, rest⟩
    · rw [fetch_end hprogram h]
      exact ⟨rfl, rfl, counter, rfl, h⟩
    · cases node with
      | leaf action argument =>
        obtain ⟨hplace, hget, hrest⟩ := h.leaf
        have hlt := (List.getElem?_eq_some_iff.mp hget).1
        have hnext := @toNat_add_one counter (by omega)
        have hk := Keeps.perform hcov (.ofOpcode (.ofAction action) argument)
        rw [Ready.fetch_goto hprogram hget, Structured.run, Structured.calls]
        dsimp only
        rw [calls_goto, perform_goto]
        rcases hp : m.perform (.ofOpcode (.ofAction action) argument) with ⟨fault | _, after⟩
        · exact ⟨rfl, rfl, counter, rfl, h⟩
        · rw [hp] at hk
          rw [← hnext] at hrest
          obtain ⟨hr, hc, hm⟩ := ih hrest (hk.program.trans hprogram) hk.covered
          exact ⟨hr, congrArg (_ ++ ·) hc, hm⟩
      | loop offset body =>
        obtain ⟨instruction, next, hfetch, hperform, hcalls, hready⟩ := h.loop hprogram hlen
        rw [hfetch, Structured.run, Structured.calls]
        dsimp only
        rw [hperform, hcalls]
        by_cases hzero : m.current = 0
        · rw [if_pos hzero] at hready
          rw [if_pos hzero, if_pos hzero]
          exact ih hready hprogram hcov
        · rw [if_neg hzero] at hready
          rw [if_neg hzero, if_neg hzero]
          exact ih hready hprogram hcov

/-- From its first instruction on, the code of a forest does what the forest has to do. -/
theorem ready_flatten {forest : Forest} (h : forest.flatten = .ok code) :
    Ready code 0 (Forest.placed 0 forest) := by
  obtain ⟨hcode, hfits⟩ := Forest.flatten_code h
  have hall : PartAt code 0 (Forest.code forest) := by
    rw [← hcode]
    exact List.prefix_refl code
  have hend : Ready code (0 + Forest.size forest) [] := by
    rw [← Forest.length_code, ← hcode, Nat.zero_add]
    exact .done
  have hready := Ready.placed hall hfits hend
  rw [List.append_nil] at hready
  exact hready

/-- The code of a forest, run from a load, does what the structured run of the forest does: it ends
in the same way after the same calls to the devices, and leaves the same machine behind but for the
program counter.  That is the end of the code when the run has halted, and the place of the leaf
that faulted when it has faulted.  Neither run ever ends if the other does not. -/
theorem flatten_run (forest : Forest) {code : List Instruction} (h : forest.flatten = .ok code)
    (hlen : code.length < 2 ^ 64) (machine : Machine ι ω) :
    let m := machine.load (.ofList code)
    (∀ limit,
      let executed := m.run limit
      let structured := Structured.run limit (Forest.placed 0 forest) m
      executed.1 = structured.outcome ∧
        m.callsWithin limit = Structured.calls limit (Forest.placed 0 forest) m ∧
        executed.2 = structured.machine.goto executed.2.programCounter ∧
        (structured.outcome = .halted → executed.2.programCounter.toNat = code.length) ∧
        ∀ fault, structured.outcome = .faulted fault → ∃ place action argument rest,
          structured.agenda = ⟨place, .leaf action argument⟩ :: rest ∧
            executed.2.programCounter.toNat = place ∧
            code[place]? = some (.ofOpcode (.ofAction action) argument)) ∧
      ((∀ limit, (m.run limit).1 = .stopped) ↔
        ∀ limit, (Structured.run limit (Forest.placed 0 forest) m).outcome = .stopped) := by
  intro m
  have hstep := fun limit =>
    @flatten_lockstep _ _ code _ _ m 0 _ (ready_flatten h) rfl (covered_load machine _) hlen limit
  refine ⟨fun limit => ?_, forall_congr' fun limit => by rw [← (hstep limit).1]; rfl⟩
  obtain ⟨hr, hc, next, hm, hready⟩ := hstep limit
  have hpc : (m.run limit).2.programCounter = next := congrArg (·.programCounter) hm
  have hleft := Structured.left_run limit (Forest.placed 0 forest) m
  intro executed structured
  refine ⟨hr, hc, ?_, ?_, ?_⟩
  · rw [hpc]
    exact hm
  · intro hhalted
    rw [hhalted] at hleft
    rw [show (Structured.run limit (Forest.placed 0 forest) m).agenda = [] from hleft] at hready
    exact (congrArg UInt64.toNat hpc).trans hready.eq_length
  · intro fault hfault
    rw [hfault] at hleft
    obtain ⟨place, action, argument, rest, hagenda⟩ := hleft
    rw [hagenda] at hready
    obtain ⟨rfl, hget, -⟩ := hready.leaf
    exact ⟨_, action, argument, rest, hagenda, congrArg UInt64.toNat hpc, hget⟩

/-- A forest that writes twice in a loop and then faults at its last leaf, the sixth instruction. -/
theorem flatten_run_of_fault :
    let forest : Forest := [.leaf .addValue 2,
      .loop 1 [.leaf .writeByte 1, .leaf .addValue (-1)], .leaf .movePointer (-1)]
    let code : List Instruction := Forest.code forest
    let machine : Machine ByteBlock ByteBuffer := .new { tapeLength := 1 } (.ofList []) .empty
    let m := machine.load (.ofList code)
    forest.flatten = .ok code ∧ code.length < 2 ^ 64 ∧
      (m.run 100).1 = .faulted (.memoryOutOfBounds 0 (-1)) ∧
      m.callsWithin 100 = Structured.calls 100 (Forest.placed 0 forest) m ∧
      (m.run 100).2.programCounter = 5 := by
  intro forest code machine m
  have h : forest.flatten = .ok code := by rfl
  have hlen : code.length < 2 ^ 64 := by decide
  obtain ⟨-, hc, -⟩ := (flatten_run forest h hlen machine).1 100
  exact ⟨h, hlen, by decide, hc, by decide⟩

end TapeMachine
