import Mathlib.Data.List.Induction
import TapeMachine.Tape

/-!
# TapeMachine.Proofs.Tape.Contents — what a tape holds after any use of it

A tape is grown, looked at, and read and written through references to its cells, for which it grows
when it has to.  `valueAt` is the tape without its end: a map from all indices that gives 0 where
the tape has no cell.  Growing does not change that map and a write changes it in one place, so after
any operations it holds what was written last, and the tape shows it as far as it reaches
(`zero_default_map`).  What one operation does is an `Effect`, with one case for each kind.
-/

namespace TapeMachine

namespace Tape

/-! ### A tape as a map -/

/-- The value of a cell; a cell that the tape does not have is zero. -/
def valueAt (tape : Tape) (index : Nat) : Int32 := (tape.get? index).getD 0

section Map

variable (tape : Tape) (index : Nat)

theorem get?_eq_valueAt :
    tape.get? index = if index < tape.length then some (tape.valueAt index) else none := by
  by_cases h : index < tape.length
  · have hget : tape.get? index = some _ := Array.getElem?_eq_getElem h
    simp [valueAt, hget, h]
  · have hget : tape.get? index = none := Array.getElem?_eq_none (Nat.le_of_not_lt h)
    simp [hget, h]

theorem length_le_growTo : tape.length ≤ (tape.growTo index).length := by
  rw [length_growTo]
  exact Growth.le_lengthAfter_upTo _ _ _ _

theorem valueAt_growTo (other : Nat) : (tape.growTo index).valueAt other = tape.valueAt other := by
  rw [valueAt, get?_growTo]
  split
  case isTrue => rfl
  case isFalse h =>
    have hle := tape.length_le_growTo index
    rw [valueAt, get?_eq_valueAt, if_neg (by omega)]

@[simp] theorem length_write (value : Int32) :
    (tape.write index value).length = (tape.growTo index).length := length_set _ _ _

theorem valueAt_write (value : Int32) (other : Nat) :
    (tape.write index value).valueAt other = if other = index then value else tape.valueAt other := by
  have hlt := tape.lt_length_growTo index
  rw [valueAt, write, get?_set]
  by_cases h : other = index
  · rw [if_pos ⟨h, hlt⟩, if_pos h]
    rfl
  · rw [if_neg (fun hboth => h hboth.1), if_neg h]
    exact tape.valueAt_growTo index other

variable {tape} {after : Tape} {other : Nat}

/-- A cell that the tape has is the same on a tape that is no shorter and has the same value there. -/
theorem get?_eq_of_valueAt_eq (hle : tape.length ≤ after.length) (hlt : other < tape.length)
    (hvalue : after.valueAt other = tape.valueAt other) : after.get? other = tape.get? other := by
  rw [get?_eq_valueAt, get?_eq_valueAt, if_pos (by omega), if_pos hlt, hvalue]

end Map

/-! ### Operations -/

/-- What the holder of a tape does with it. -/
inductive Operation where
  /-- Makes an index addressable. -/
  | growTo (index : Nat)
  /-- Looks at a cell, if the tape has it. -/
  | get (index : Nat)
  /-- Reads through a reference to a cell. -/
  | read (index : Nat)
  /-- Writes through a reference to a cell. -/
  | write (index : Nat) (value : Int32)
  deriving DecidableEq, Repr, Inhabited

/-- What an operation finds, if it is one that looks, and the tape after it. -/
def operate (tape : Tape) : Operation → Option Int32 × Tape
  | .growTo index => (none, tape.growTo index)
  | .get index => (tape.get? index, tape)
  | .read index => ((tape.growTo index).get? index, tape.growTo index)
  | .write index value => (none, tape.write index value)

/-- The tape after some operations. -/
def operated (tape : Tape) (operations : List Operation) : Tape :=
  operations.foldl (fun tape operation => (tape.operate operation).2) tape

/-- The value that an operation writes into a cell, if it writes into that one. -/
def Operation.written? (index : Nat) : Operation → Option Int32
  | write place value => if place = index then some value else none
  | growTo _ | get _ | read _ => none

/-- The value that was written into a cell last, if there was one. -/
def lastWritten (operations : List Operation) (index : Nat) : Option Int32 :=
  operations.reverse.findSome? (Operation.written? index)

/-- The tapes that nothing was done with yet. -/
inductive Created : Tape → Prop
  | zeros (length maxGrowth : Nat) : Created (.zeros length maxGrowth)
  | empty : Created .empty

/-- What an operation does with a tape on which these values were written last: what it finds, and
the tape after it.  No operation makes the tape shorter, or changes a cell but the one it writes. -/
inductive Effect (tape : Tape) (values : Nat → Int32) : Operation → Option Int32 → Tape → Prop
  | growTo {index : Nat} {after : Tape} (hreached : index < after.length)
      (hlength : tape.length ≤ after.length)
      (hcells : ∀ other < tape.length, after.get? other = tape.get? other) :
      Effect tape values (.growTo index) none after
  | get {index : Nat} :
      Effect tape values (.get index) (if index < tape.length then some (values index) else none)
        tape
  | read {index : Nat} {after : Tape} (hreached : index < after.length)
      (hlength : tape.length ≤ after.length)
      (hcells : ∀ other < tape.length, after.get? other = tape.get? other) :
      Effect tape values (.read index) (some (values index)) after
  | write {index : Nat} {value : Int32} {after : Tape} (hreached : index < after.length)
      (hlength : tape.length ≤ after.length)
      (hcells : ∀ other < tape.length, other ≠ index → after.get? other = tape.get? other)
      (hwritten : after.get? index = some value) :
      Effect tape values (.write index value) none after

theorem operated_append_singleton (tape : Tape) (operations : List Operation)
    (operation : Operation) :
    tape.operated (operations ++ [operation]) =
      ((tape.operated operations).operate operation).2 := by
  simp [operated]

theorem lastWritten_append_singleton (operations : List Operation) (operation : Operation)
    (index : Nat) :
    lastWritten (operations ++ [operation]) index =
      (operation.written? index).or (lastWritten operations index) := by
  simp only [lastWritten, List.reverse_append, List.reverse_singleton, List.singleton_append,
    List.findSome?_cons]
  cases operation.written? index <;> rfl

theorem valueAt_created {tape : Tape} (h : Created tape) (index : Nat) : tape.valueAt index = 0 := by
  cases h with
  | empty => rfl
  | zeros length maxGrowth =>
    rw [valueAt, get?, zeros, Array.getElem?_replicate]
    split <;> rfl

/-- An operation changes the map in the place where it writes, if it writes. -/
theorem valueAt_operate (tape : Tape) (operation : Operation) (index : Nat) :
    (tape.operate operation).2.valueAt index =
      (operation.written? index).getD (tape.valueAt index) := by
  cases operation with
  | growTo place => exact tape.valueAt_growTo place index
  | get place => rfl
  | read place => exact tape.valueAt_growTo place index
  | write place value =>
    show (tape.write place value).valueAt index = _
    rw [valueAt_write]
    by_cases h : index = place
    · simp [Operation.written?, h]
    · simp [Operation.written?, h, Ne.symm h]

/-- After any operations the map holds what was written last. -/
theorem valueAt_operated {start : Tape} (hstart : Created start) (operations : List Operation)
    (index : Nat) :
    (start.operated operations).valueAt index = (lastWritten operations index).getD 0 := by
  induction operations using List.reverseRecOn with
  | nil => exact valueAt_created hstart index
  | append_singleton operations operation ih =>
    rw [operated_append_singleton, valueAt_operate, lastWritten_append_singleton, ih]
    cases operation.written? index <;> rfl

/-- The effect of each operation on a tape whose map is known. -/
theorem effect_operate {tape : Tape} {values : Nat → Int32}
    (hvalues : ∀ index, tape.valueAt index = values index) (operation : Operation) :
    Effect tape values operation (tape.operate operation).1 (tape.operate operation).2 := by
  have hgrown : ∀ index, ∀ other < tape.length,
      (tape.growTo index).get? other = tape.get? other := fun index other hlt =>
    get?_eq_of_valueAt_eq (tape.length_le_growTo index) hlt (tape.valueAt_growTo index other)
  cases operation with
  | growTo index =>
    exact .growTo (tape.lt_length_growTo index) (tape.length_le_growTo index) (hgrown index)
  | get index =>
    have hfound : tape.get? index = if index < tape.length then some (values index) else none := by
      rw [get?_eq_valueAt, hvalues]
    rw [operate, hfound]
    exact .get
  | read index =>
    have hfound : (tape.growTo index).get? index = some (values index) := by
      rw [get?_eq_valueAt, if_pos (tape.lt_length_growTo index), valueAt_growTo, hvalues]
    rw [operate, hfound]
    exact .read (tape.lt_length_growTo index) (tape.length_le_growTo index) (hgrown index)
  | write index value =>
    have hreached : index < (tape.write index value).length := by
      rw [length_write]
      exact tape.lt_length_growTo index
    have hlength : tape.length ≤ (tape.write index value).length := by
      rw [length_write]
      exact tape.length_le_growTo index
    rw [operate]
    refine .write hreached hlength (fun other hlt hne => ?_) ?_
    · refine get?_eq_of_valueAt_eq hlength hlt ?_
      rw [valueAt_write, if_neg hne]
    · rw [get?_eq_valueAt, if_pos hreached, valueAt_write, if_pos rfl]

/-- Whatever was done with a tape since it was created, each of its cells shows the value that was
written there last, or 0 if none was, and beyond its length there are no cells.  Whatever is done
next has no effect but the one it should have. -/
theorem zero_default_map {start : Tape} (hstart : Created start) (operations : List Operation) :
    let tape := start.operated operations
    let values := fun index => (lastWritten operations index).getD 0
    (∀ index, tape.get? index = if index < tape.length then some (values index) else none) ∧
      ∀ operation,
        Effect tape values operation (tape.operate operation).1 (tape.operate operation).2 := by
  intro tape values
  have hvalues : ∀ index, tape.valueAt index = values index := valueAt_operated hstart operations
  refine ⟨fun index => ?_, fun operation => effect_operate hvalues operation⟩
  rw [get?_eq_valueAt, hvalues]

/-- A cell is written twice, the first time on a shorter tape; a read grows the tape once more. -/
theorem zero_default_map_overwritten :
    let start := Tape.zeros 4 2
    let operations : List Operation := [.write 3 (-9), .write 0 7, .growTo 10, .get 20, .write 3 5]
    let tape := start.operated operations
    Created start ∧ tape.length = 12 ∧ tape.get? 3 = some 5 ∧ tape.get? 11 = some 0 ∧
      tape.get? 12 = none ∧ (tape.operate (.read 13)).2.length = 14 ∧
      Effect tape (fun index => (lastWritten operations index).getD 0) (.read 13)
        (tape.operate (.read 13)).1 (tape.operate (.read 13)).2 := by
  intro start operations tape
  obtain ⟨hcells, heffect⟩ := zero_default_map (.zeros 4 2) operations
  exact ⟨.zeros 4 2, by decide, hcells 3, hcells 11, hcells 12, by decide, heffect (.read 13)⟩

end Tape

end TapeMachine
