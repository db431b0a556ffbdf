import Mathlib.Algebra.GroupWithZero.Nat
import Mathlib.Data.List.Induction
import TapeMachine.Proofs.Tape.Growth

/-!
# TapeMachine.Proofs.Tape.Steps — the steps that a growing tape takes

Growing to an index is a loop: as long as the index is beyond the end, one more step.  `Reaches` is
that loop, and it always ends.  When a tape grows to any indices in turn, the steps of all the calls
together are the first links of one chain, without a gap and without a repetition, up to the first
length beyond all indices.  So neither the order of the indices nor how often they come matters, and
the last step is never larger than the index that asked for it allows (`growth_path_independent`).
-/

namespace TapeMachine

namespace Growth

/-- Steps of growth from a length, one after the other until the index is below the length, and the
length in which they end. -/
inductive Reaches (maxGrowth index : Nat) : (length : Nat) → List Growth → (final : Nat) → Prop
  | done {length : Nat} (h : index < length) : Reaches maxGrowth index length [] length
  | step {length final : Nat} {growths : List Growth} (h : length ≤ index)
      (hrest : Reaches maxGrowth index (next maxGrowth length) growths final) :
      Reaches maxGrowth index length (⟨length, next maxGrowth length⟩ :: growths) final

/-- The first steps of the chain from a length, as many as asked for. -/
def links (maxGrowth length count : Nat) : List Growth :=
  (List.range count).map fun step =>
    ⟨chain maxGrowth length step, chain maxGrowth length (step + 1)⟩

variable {maxGrowth index length : Nat}

theorem links_add (maxGrowth length count count' : Nat) :
    links maxGrowth length (count + count') =
      links maxGrowth length count ++ links maxGrowth (chain maxGrowth length count) count' := by
  simp [links, List.range_add, ← chain_add, Nat.add_assoc]

theorem links_succ (maxGrowth length count : Nat) :
    links maxGrowth length (count + 1) =
      ⟨length, next maxGrowth length⟩ :: links maxGrowth (next maxGrowth length) count := by
  rw [Nat.add_comm, links_add]
  rfl

/-- Enough steps are the whole loop. -/
theorem reaches_upTo {bound : Nat} (h : index < length + bound) :
    Reaches maxGrowth index length (upTo maxGrowth index bound length)
      (lengthAfter length (upTo maxGrowth index bound length)) := by
  induction bound generalizing length with
  | zero => exact .done h
  | succ bound ih =>
    rw [upTo]
    split
    case isTrue hlt => exact .done hlt
    case isFalse hge =>
      have hstep := lt_next maxGrowth length
      rw [lengthAfter_cons]
      exact .step (by omega) (ih (by omega))

namespace Reaches

variable {growths : List Growth} {final : Nat}

/-- The loop goes along the chain. -/
theorem eq_links (h : Reaches maxGrowth index length growths final) :
    growths = links maxGrowth length growths.length ∧
      final = chain maxGrowth length growths.length := by
  induction h with
  | done => exact ⟨rfl, rfl⟩
  | @step length final growths _ _ ih =>
    obtain ⟨hlinks, hfinal⟩ := ih
    refine ⟨?_, ?_⟩
    · rw [List.length_cons, links_succ, ← hlinks]
    · rw [List.length_cons, ← chain_next]
      exact hfinal

/-- The last step starts at or below the index, so it does not go far beyond it. -/
theorem final_le (h : Reaches maxGrowth index length growths final) (hle : length ≤ index) :
    final ≤ index + max 1 (min index maxGrowth) := by
  induction h with
  | done hlt => omega
  | @step length final growths _ hrest ih =>
    by_cases hnext : next maxGrowth length ≤ index
    · exact ih hnext
    · cases hrest with
      | done =>
        simp only [next]
        omega
      | step hle' => exact absurd hle' hnext

end Reaches

end Growth

namespace Tape

/-- The tape when it has grown to some indices in turn. -/
def grownTo (tape : Tape) (indices : List Nat) : Tape := indices.foldl growTo tape

/-- The steps that the tape takes for each of some indices in turn. -/
def growthsTo : Tape → List Nat → List (List Growth)
  | _, [] => []
  | tape, index :: indices => tape.growths index :: growthsTo (tape.growTo index) indices

/-- The tape with zeros behind its cells. -/
def extend (tape : Tape) (count : Nat) : Tape :=
  { tape with cells := tape.cells ++ Array.replicate count 0 }

@[simp] theorem grownTo_nil (tape : Tape) : tape.grownTo [] = tape := rfl

@[simp] theorem grownTo_cons (tape : Tape) (index : Nat) (indices : List Nat) :
    tape.grownTo (index :: indices) = (tape.growTo index).grownTo indices := rfl

theorem grownTo_append_singleton (tape : Tape) (indices : List Nat) (index : Nat) :
    tape.grownTo (indices ++ [index]) = (tape.grownTo indices).growTo index := by
  simp [grownTo]

@[simp] theorem extend_zero (tape : Tape) : tape.extend 0 = tape := by
  simp [extend]

theorem extend_extend (tape : Tape) (count count' : Nat) :
    (tape.extend count).extend count' = tape.extend (count + count') := by
  simp [extend, Array.append_assoc, Array.replicate_append_replicate]

@[simp] theorem length_extend (tape : Tape) (count : Nat) :
    (tape.extend count).length = tape.length + count := by
  simp [extend, length]

theorem growTo_eq_extend (tape : Tape) (index : Nat) :
    tape.growTo index = tape.extend ((tape.growTo index).length - tape.length) := by
  rw [length_growTo]
  rfl

theorem maxGrowth_grownTo (tape : Tape) (indices : List Nat) :
    (tape.grownTo indices).maxGrowth = tape.maxGrowth := by
  induction indices generalizing tape with
  | nil => rfl
  | cons index indices ih => exact ih (tape.growTo index)

/-- Growing adds zeros and does nothing else. -/
theorem exists_grownTo_eq_extend (tape : Tape) (indices : List Nat) :
    ∃ count, tape.grownTo indices = tape.extend count := by
  induction indices generalizing tape with
  | nil => exact ⟨0, by simp⟩
  | cons index indices ih =>
    obtain ⟨count, hcount⟩ := ih (tape.growTo index)
    refine ⟨(tape.growTo index).length - tape.length + count, ?_⟩
    rw [grownTo_cons, hcount, ← extend_extend, ← growTo_eq_extend]

theorem reaches_growTo (tape : Tape) (index : Nat) :
    Growth.Reaches tape.maxGrowth index tape.length (tape.growths index)
      (tape.growTo index).length := by
  rw [length_growTo]
  exact Growth.reaches_upTo (by omega)

/-- The length that growth leads to is the first of the chain beyond all indices. -/
theorem isLeast_grownTo (tape : Tape) (indices : List Nat) :
    IsLeast {l | (∃ steps, l = Growth.chain tape.maxGrowth tape.length steps) ∧
      ∀ index ∈ indices, index < l} (tape.grownTo indices).length := by
  induction indices using List.reverseRecOn with
  | nil =>
    refine ⟨⟨⟨0, rfl⟩, by simp⟩, ?_⟩
    rintro l ⟨⟨steps, rfl⟩, -⟩
    exact Growth.le_chain _ _ _
  | append_singleton indices index ih =>
    rw [← maxGrowth_grownTo tape indices] at ih ⊢
    rw [grownTo_append_singleton]
    exact isLeast_growTo_append ih index

/-- The steps of all calls together are the first links of the chain. -/
theorem flatten_growthsTo (tape : Tape) (indices : List Nat) :
    let position := ((tape.growthsTo indices).map List.length).sum
    (tape.growthsTo indices).flatten = Growth.links tape.maxGrowth tape.length position ∧
      (tape.grownTo indices).length = Growth.chain tape.maxGrowth tape.length position := by
  induction indices generalizing tape with
  | nil => exact ⟨rfl, rfl⟩
  | cons index indices ih =>
    obtain ⟨hfirst, hlength⟩ := (tape.reaches_growTo index).eq_links
    obtain ⟨hrest, hfinal⟩ := ih (tape.growTo index)
    have hmax : (tape.growTo index).maxGrowth = tape.maxGrowth := rfl
    rw [hmax, hlength] at hrest hfinal
    simp only [growthsTo, List.flatten_cons, List.map_cons, List.sum_cons, grownTo_cons]
    rw [Growth.links_add, ← hfirst, hrest, hfinal, Growth.chain_add]
    exact ⟨rfl, rfl⟩

/-- Grown to the highest of the indices alone, the tape is the same. -/
theorem grownTo_eq_growTo (tape : Tape) {indices : List Nat} {highest : Nat}
    (hmem : highest ∈ indices) (hhighest : ∀ index ∈ indices, index ≤ highest) :
    tape.grownTo indices = tape.growTo highest := by
  have hbeyond : ∀ l : Nat, (∀ index ∈ indices, index < l) ↔ ∀ index ∈ [highest], index < l := by
    intro l
    simp only [List.forall_mem_singleton]
    exact ⟨fun h => h highest hmem, fun h index hindex =>
      Nat.lt_of_le_of_lt (hhighest index hindex) h⟩
  have hlength : (tape.grownTo indices).length = (tape.grownTo [highest]).length := by
    have hall := tape.isLeast_grownTo indices
    simp only [hbeyond] at hall
    exact hall.unique (tape.isLeast_grownTo [highest])
  -- both are the tape with zeros behind it, and equally many of them
  obtain ⟨count, hcount⟩ := tape.exists_grownTo_eq_extend indices
  obtain ⟨count', hcount'⟩ := tape.exists_grownTo_eq_extend [highest]
  rw [hcount, hcount', length_extend, length_extend] at hlength
  have hsame : count = count' := by omega
  rw [hcount, hsame, ← hcount']
  rfl

/-- Whatever tape grows to whatever indices in turn: its length is the first of its chain beyond all
of them.  The steps of the calls add up to the position of that length on the chain and are the
links that lead there, and the tape is the one that has grown to the highest index at once.  For
any index that comes next the loop ends, and if it has to grow at all the tape gets no longer than
the index and one step from there. -/
theorem growth_path_independent (tape : Tape) (indices : List Nat) :
    let grown := tape.grownTo indices
    let calls := tape.growthsTo indices
    let position := (calls.map List.length).sum
    IsLeast {l | (∃ steps, l = Growth.chain tape.maxGrowth tape.length steps) ∧
        ∀ index ∈ indices, index < l} grown.length ∧
      grown.length = Growth.chain tape.maxGrowth tape.length position ∧
      calls.flatten = Growth.links tape.maxGrowth tape.length position ∧
      (∀ highest ∈ indices, (∀ index ∈ indices, index ≤ highest) →
        grown = tape.growTo highest) ∧
      ∀ index, Growth.Reaches tape.maxGrowth index grown.length (grown.growths index)
          (grown.growTo index).length ∧
        (grown.length ≤ index →
          (grown.growTo index).length ≤ index + max 1 (min index tape.maxGrowth)) := by
  intro grown calls position
  obtain ⟨hlinks, hlength⟩ := tape.flatten_growthsTo indices
  refine ⟨tape.isLeast_grownTo indices, hlength, hlinks, ?_, ?_⟩
  · intro highest hmem hhighest
    exact tape.grownTo_eq_growTo hmem hhighest
  · intro index
    have hreaches := grown.reaches_growTo index
    rw [show grown.maxGrowth = tape.maxGrowth from tape.maxGrowth_grownTo indices] at hreaches
    exact ⟨hreaches, hreaches.final_le⟩

/-- Four cells, growing by at most three: the order of the indices does not show in the tape. -/
example : (zeros 4 3).growthsTo [5, 12, 6] = [[⟨4, 7⟩], [⟨7, 10⟩, ⟨10, 13⟩], []] ∧
    (zeros 4 3).grownTo [5, 12, 6] = (zeros 4 3).grownTo [12, 5] ∧
    (empty.grownTo [2]).length = 4 := by
  decide

end Tape

end TapeMachine
