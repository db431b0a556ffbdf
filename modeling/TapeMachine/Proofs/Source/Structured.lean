import TapeMachine.Proofs.Machine.Calls

/-!
# TapeMachine.Proofs.Source.Structured — running a forest as it stands

A structured run works through an agenda of nodes on a machine whose program plays no part.  A leaf
is carried out like the instruction of its action.  A loop is tested when its turn comes: when the
current cell is zero it is done with, otherwise its body comes first and then the loop again
(`run_loop`).  There is no code and there are no jumps; a place is only a name for a node, by which a
run tells which node it stopped at.
-/

namespace TapeMachine

mutual

/-- The number of instructions that a node takes: one for a leaf, two more than its body for a
loop. -/
def Node.size : Node → Nat
  | .leaf _ _ => 1
  | .loop _ body => Forest.size body + 2

/-- The number of instructions that a forest takes. -/
def Forest.size : List Node → Nat
  | [] => 0
  | node :: rest => node.size + Forest.size rest

end

/-- A node with the number of instructions that stand before its own. -/
structure Placed where
  place : Nat
  node : Node

/-- The nodes of a forest whose first instruction has this place. -/
def Forest.placed : Nat → Forest → List Placed
  | _, [] => []
  | place, node :: rest => ⟨place, node⟩ :: Forest.placed (place + node.size) rest

/-- How far a structured run has come: its end, what is still to be done, and the machine.  A leaf
that faults is still to be done. -/
structure Structured (ι ω : Type) where
  outcome : Machine.Outcome
  agenda : List Placed
  machine : Machine ι ω

namespace Structured

variable {ι ω : Type} [Input ι] [Output ω]

/-- Works through an agenda, for at most `limit` leaves and tests of loops. -/
def run : (limit : Nat) → List Placed → Machine ι ω → Structured ι ω
  | 0, agenda, machine => ⟨.stopped, agenda, machine⟩
  | _ + 1, [], machine => ⟨.halted, [], machine⟩
  | limit + 1, ⟨place, .leaf action argument⟩ :: rest, machine =>
    match machine.perform (.ofOpcode (.ofAction action) argument) with
    | (.ok (), machine) => run limit rest machine
    | (.error fault, machine) => ⟨.faulted fault, ⟨place, .leaf action argument⟩ :: rest, machine⟩
  | limit + 1, ⟨place, .loop offset body⟩ :: rest, machine =>
    if machine.current = 0 then run limit rest machine
    else run limit (Forest.placed (place + 1) body ++ ⟨place, .loop offset body⟩ :: rest) machine

/-- The calls to the devices in a structured run, in order.  Tests of loops make none. -/
def calls : (limit : Nat) → List Placed → Machine ι ω → List Call
  | 0, _, _ => []
  | _ + 1, [], _ => []
  | limit + 1, ⟨_, .leaf action argument⟩ :: rest, machine =>
    machine.calls (.ofOpcode (.ofAction action) argument) ++
      match machine.perform (.ofOpcode (.ofAction action) argument) with
      | (.ok (), machine) => calls limit rest machine
      | (.error _, _) => []
  | limit + 1, ⟨place, .loop offset body⟩ :: rest, machine =>
    if machine.current = 0 then calls limit rest machine
    else calls limit (Forest.placed (place + 1) body ++ ⟨place, .loop offset body⟩ :: rest) machine

/-- What is left of an agenda at the end of a run: nothing when it has halted, and a leaf in front
when that has faulted. -/
def Left : Machine.Outcome → List Placed → Prop
  | .halted, agenda => agenda = []
  | .faulted _, agenda =>
    ∃ place action argument rest, agenda = ⟨place, .leaf action argument⟩ :: rest
  | .stopped, _ => True

theorem left_run (limit : Nat) (agenda : List Placed) (machine : Machine ι ω) :
    Left (run limit agenda machine).outcome (run limit agenda machine).agenda := by
  induction limit generalizing agenda machine with
  | zero => exact trivial
  | succ limit ih =>
    rcases agenda with _ | ⟨⟨place, node⟩, rest⟩
    · exact rfl
    · cases node with
      | leaf action argument =>
        rw [run]
        rcases machine.perform (.ofOpcode (.ofAction action) argument) with ⟨fault | _, after⟩
        · exact ⟨place, action, argument, rest, rfl⟩
        · exact ih rest after
      | loop offset body =>
        rw [run]
        by_cases hzero : machine.current = 0
        · rw [if_pos hzero]
          exact ih rest machine
        · rw [if_neg hzero]
          exact ih _ machine

/-- A sequence is worked through in order: once its front has been done, the rest is what is left. -/
theorem run_append_of_halted {limit : Nat} {front : List Placed} {machine : Machine ι ω}
    (h : (run limit front machine).outcome = .halted) (rest : List Placed) :
    ∃ used, ∀ more, run (used + more) (front ++ rest) machine =
      run more rest (run limit front machine).machine := by
  induction limit generalizing front machine with
  | zero => cases h
  | succ limit ih =>
    rcases front with _ | ⟨⟨place, node⟩, front⟩
    · refine ⟨0, fun more => ?_⟩
      rw [Nat.zero_add]
      rfl
    · cases node with
      | leaf action argument =>
        rw [run] at h ⊢
        rcases hp : machine.perform (.ofOpcode (.ofAction action) argument) with ⟨fault | _, after⟩
        · rw [hp] at h
          cases h
        · rw [hp] at h
          obtain ⟨used, hused⟩ := ih h
          refine ⟨used + 1, fun more => ?_⟩
          rw [Nat.add_right_comm, List.cons_append, run, hp]
          exact hused more
      | loop offset body =>
        rw [run] at h ⊢
        by_cases hzero : machine.current = 0
        · rw [if_pos hzero] at h ⊢
          obtain ⟨used, hused⟩ := ih h
          refine ⟨used + 1, fun more => ?_⟩
          rw [Nat.add_right_comm, List.cons_append, run, if_pos hzero]
          exact hused more
        · rw [if_neg hzero] at h ⊢
          obtain ⟨used, hused⟩ := ih h
          refine ⟨used + 1, fun more => ?_⟩
          rw [Nat.add_right_comm, List.cons_append, run, if_neg hzero, ← List.cons_append,
            ← List.append_assoc]
          exact hused more

/-- A loop whose cell is not zero runs its body to the end, and then it is as it was before. -/
theorem run_loop {limit place offset : Nat} {body : Forest} {machine : Machine ι ω}
    (hcell : machine.current ≠ 0)
    (hbody : (run limit (Forest.placed (place + 1) body) machine).outcome = .halted)
    (rest : List Placed) :
    ∃ used, ∀ more, run (used + more) (⟨place, .loop offset body⟩ :: rest) machine =
      run more (⟨place, .loop offset body⟩ :: rest)
        (run limit (Forest.placed (place + 1) body) machine).machine := by
  obtain ⟨used, hused⟩ := run_append_of_halted hbody (⟨place, .loop offset body⟩ :: rest)
  refine ⟨used + 1, fun more => ?_⟩
  rw [Nat.add_right_comm, run, if_neg hcell]
  exact hused more

end Structured

/-! ### Parts of a sequence

Code and source texts are sequences that something walks along, and a node has its part in each. -/

/-- What follows a place of a sequence begins with a part. -/
def PartAt {α : Type} (whole : List α) (place : Nat) (part : List α) : Prop :=
  part <+: whole.drop place

namespace PartAt

variable {α : Type} {whole part front back : List α} {place : Nat} {item : α}

theorem append (h : PartAt whole place (front ++ back)) :
    PartAt whole place front ∧ PartAt whole (place + front.length) back := by
  obtain ⟨rest, hrest⟩ := h
  rw [List.append_assoc] at hrest
  refine ⟨⟨back ++ rest, hrest⟩, rest, ?_⟩
  rw [← List.drop_drop, ← hrest, List.drop_left]

theorem head (h : PartAt whole place (item :: part)) : whole[place]? = some item := by
  obtain ⟨rest, hrest⟩ := h
  rw [← List.head?_drop, ← hrest]
  rfl

theorem tail (h : PartAt whole place (item :: part)) : PartAt whole (place + 1) part :=
  (@append α whole [item] part place h).2

/-- A part between two items, as the body of a loop is between two jumps or two brackets. -/
theorem between {last : α} (h : PartAt whole place (item :: (part ++ [last]))) :
    whole[place]? = some item ∧ PartAt whole (place + 1) part ∧
      whole[place + 1 + part.length]? = some last := by
  obtain ⟨hpart, hlast⟩ := h.tail.append
  exact ⟨h.head, hpart, hlast.head⟩

end PartAt

end TapeMachine
