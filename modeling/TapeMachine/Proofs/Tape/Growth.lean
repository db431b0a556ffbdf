import Mathlib.Order.Bounds.Basic
import Mathlib.Order.Monotone.Basic
import TapeMachine.Tape

/-!
# TapeMachine.Proofs.Tape.Growth — which lengths a tape can have

From a length on, the lengths that growth leads through are a chain, `Growth.chain`.  Growing to an
index goes as far along it as it has to and no further (`Tape.isLeast_growTo`).  So when a tape has
grown to some places in turn its length is the first of the chain beyond all of them, and their
order does not matter (`Tape.isLeast_growTo_append`).
-/

namespace TapeMachine

namespace Growth

/-- The length after a number of steps of growth from a length. -/
def chain (maxGrowth length : Nat) : Nat → Nat
  | 0 => length
  | steps + 1 => next maxGrowth (chain maxGrowth length steps)

variable {maxGrowth length index : Nat}

theorem strictMono_chain (maxGrowth length : Nat) : StrictMono (chain maxGrowth length) :=
  strictMono_nat_of_lt_succ fun _ => lt_next _ _

theorem le_chain (maxGrowth length steps : Nat) : length ≤ chain maxGrowth length steps :=
  (strictMono_chain maxGrowth length).monotone (Nat.zero_le steps)

theorem chain_add (maxGrowth length steps steps' : Nat) :
    chain maxGrowth length (steps + steps') =
      chain maxGrowth (chain maxGrowth length steps) steps' := by
  induction steps' with
  | zero => rfl
  | succ steps' ih => exact congrArg (next maxGrowth) ih

theorem chain_next (maxGrowth length steps : Nat) :
    chain maxGrowth (next maxGrowth length) steps = chain maxGrowth length (steps + 1) := by
  rw [Nat.add_comm, chain_add]
  rfl

/-- Enough steps towards an index end at the first length of the chain beyond it. -/
theorem isLeast_lengthAfter {bound : Nat} (h : index < length + bound) :
    IsLeast {l | (∃ steps, l = chain maxGrowth length steps) ∧ index < l}
      (lengthAfter length (upTo maxGrowth index bound length)) := by
  induction bound generalizing length with
  | zero =>
    refine ⟨⟨⟨0, rfl⟩, h⟩, ?_⟩
    rintro l ⟨⟨steps, rfl⟩, -⟩
    exact le_chain maxGrowth length steps
  | succ bound ih =>
    by_cases hlt : index < length
    · rw [upTo_of_lt hlt]
      refine ⟨⟨⟨0, rfl⟩, hlt⟩, ?_⟩
      rintro l ⟨⟨steps, rfl⟩, -⟩
      exact le_chain maxGrowth length steps
    · have hstep := lt_next maxGrowth length
      obtain ⟨⟨⟨steps, hsteps⟩, hbeyond⟩, hleast⟩ := @ih (next maxGrowth length) (by omega)
      rw [upTo, if_neg hlt, lengthAfter_cons]
      refine ⟨⟨⟨steps + 1, hsteps.trans (chain_next ..)⟩, hbeyond⟩, ?_⟩
      rintro l ⟨⟨steps', rfl⟩, hl⟩
      rcases steps' with _ | steps'
      · exact absurd hl hlt
      · exact hleast ⟨⟨steps', (chain_next ..).symm⟩, hl⟩

end Growth

namespace Tape

theorem isLeast_growTo (tape : Tape) (index : Nat) :
    IsLeast {l | (∃ steps, l = Growth.chain tape.maxGrowth tape.length steps) ∧ index < l}
      (tape.growTo index).length := by
  rw [length_growTo]
  exact Growth.isLeast_lengthAfter (by omega)

/-- A tape whose length is the first of a chain beyond some places, grown to one more place, has the
first length beyond all of them. -/
theorem isLeast_growTo_append {tape : Tape} {start : Nat} {places : List Nat}
    (h : IsLeast {l | (∃ steps, l = Growth.chain tape.maxGrowth start steps) ∧
      ∀ place ∈ places, place < l} tape.length) (index : Nat) :
    IsLeast {l | (∃ steps, l = Growth.chain tape.maxGrowth start steps) ∧
      ∀ place ∈ places ++ [index], place < l} (tape.growTo index).length := by
  obtain ⟨⟨⟨steps, hsteps⟩, hbeyond⟩, hleast⟩ := h
  obtain ⟨⟨⟨more, hmore⟩, hindex⟩, hleast'⟩ := tape.isLeast_growTo index
  have hle : tape.length ≤ (tape.growTo index).length := by
    rw [hmore]
    exact Growth.le_chain _ _ _
  refine ⟨⟨⟨steps + more, ?_⟩, fun place hplace => ?_⟩, ?_⟩
  · rw [Growth.chain_add, ← hsteps]
    exact hmore
  · rcases List.mem_append.mp hplace with hold | hnew
    · exact Nat.lt_of_lt_of_le (hbeyond place hold) hle
    · rw [List.mem_singleton.mp hnew]
      exact hindex
  · rintro l ⟨⟨steps', rfl⟩, hl⟩
    have hfar := hleast ⟨⟨steps', rfl⟩, fun place hplace => hl place (by simp [hplace])⟩
    -- a length of the chain that is not below the present one is reached from there
    have hsteps' : steps ≤ steps' := by
      rw [hsteps] at hfar
      exact (Growth.strictMono_chain _ _).le_iff_le.mp hfar
    obtain ⟨rest, rfl⟩ := Nat.exists_eq_add_of_le hsteps'
    refine hleast' ⟨⟨rest, ?_⟩, hl index (by simp)⟩
    rw [Growth.chain_add, ← hsteps]

end Tape

end TapeMachine
