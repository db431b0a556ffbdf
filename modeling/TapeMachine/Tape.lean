/-!
# TapeMachine.Tape — memory that grows

A tape is a row of 32-bit cells that are zero until written.  It only gets longer, and only when a
cell beyond its end is asked for.  One step of growth doubles the tape until it is `maxGrowth` cells
long and adds `maxGrowth` cells from then on.  `Tape.growths` lists the steps that make an index
addressable, and `Tape.growTo` takes them.
-/

namespace TapeMachine

/-- One step of growth: the number of cells before and after it. -/
structure Growth where
  old : Nat
  new : Nat
  deriving DecidableEq, Repr, Inhabited

namespace Growth

/-- The length after one step from a length.  A tape without cells gets one. -/
def next (maxGrowth length : Nat) : Nat := length + max 1 (min length maxGrowth)

theorem lt_next (maxGrowth length : Nat) : length < next maxGrowth length := by
  simp only [next]
  omega

/-- The steps from a length to the first that exceeds `index`, at most `bound` of them. -/
def upTo (maxGrowth index : Nat) : (bound length : Nat) → List Growth
  | 0, _ => []
  | bound + 1, length =>
    if index < length then []
    else ⟨length, next maxGrowth length⟩ :: upTo maxGrowth index bound (next maxGrowth length)

/-- The length after steps of growth from a length. -/
def lengthAfter (length : Nat) (growths : List Growth) : Nat :=
  growths.getLast?.elim length Growth.new

@[simp] theorem lengthAfter_nil (length : Nat) : lengthAfter length [] = length := rfl

@[simp] theorem lengthAfter_cons (length : Nat) (growth : Growth) (growths : List Growth) :
    lengthAfter length (growth :: growths) = lengthAfter growth.new growths := by
  cases h : growths.getLast? <;> simp [lengthAfter, List.getLast?_cons, h]

theorem upTo_of_lt {maxGrowth index bound length : Nat} (h : index < length) :
    upTo maxGrowth index bound length = [] := by
  cases bound <;> simp [upTo, h]

theorem le_lengthAfter_upTo (maxGrowth index bound length : Nat) :
    length ≤ lengthAfter length (upTo maxGrowth index bound length) := by
  induction bound generalizing length with
  | zero => simp [upTo]
  | succ bound ih =>
    rw [upTo]
    split
    · simp
    · have step := lt_next maxGrowth length
      have rest := ih (next maxGrowth length)
      simp only [lengthAfter_cons]
      omega

/-- Enough steps reach the index. -/
theorem lt_lengthAfter_upTo {maxGrowth index bound length : Nat} (h : index < length + bound) :
    index < lengthAfter length (upTo maxGrowth index bound length) := by
  induction bound generalizing length with
  | zero => simpa [upTo] using h
  | succ bound ih =>
    rw [upTo]
    split
    · simpa
    · have step := lt_next maxGrowth length
      simp only [lengthAfter_cons]
      exact ih (by omega)

end Growth

/-- The memory of a machine. -/
structure Tape where
  cells : Array Int32
  /-- The most cells that one step of growth adds. -/
  maxGrowth : Nat
  deriving DecidableEq, Repr, Inhabited

namespace Tape

/-- A tape of zeros.  Both sizes count as at least 1, so that growth gets on. -/
def zeros (length maxGrowth : Nat) : Tape :=
  ⟨Array.replicate (max 1 length) 0, max 1 maxGrowth⟩

/-- The limit of one step of growth where none is given. -/
def defaultMaxGrowth : Nat := 32768

/-- The tape without cells. -/
def empty : Tape := ⟨#[], defaultMaxGrowth⟩

/-- The number of cells. -/
@[inline] def length (tape : Tape) : Nat := tape.cells.size

/-- Whether the tape has no cell. -/
def isEmpty (tape : Tape) : Bool := tape.cells.isEmpty

/-- The value of a cell, if the tape reaches that far. -/
@[inline] def get? (tape : Tape) (index : Nat) : Option Int32 := tape.cells[index]?

/-- The steps of growth that make an index addressable.  Each adds a cell at least, so there are
no more of them than cells missing. -/
def growths (tape : Tape) (index : Nat) : List Growth :=
  Growth.upTo tape.maxGrowth index (index + 1 - tape.length) tape.length

/-- The tape after the steps of growth that make an index addressable. -/
def growTo (tape : Tape) (index : Nat) : Tape :=
  let length := Growth.lengthAfter tape.length (tape.growths index)
  { tape with cells := tape.cells ++ Array.replicate (length - tape.length) 0 }

/-- Stores a value in a cell that the tape has. -/
@[inline] def set (tape : Tape) (index : Nat) (value : Int32) : Tape :=
  { tape with cells := tape.cells.setIfInBounds index value }

/-- Stores a value in any cell: the tape grows to it first. -/
def write (tape : Tape) (index : Nat) (value : Int32) : Tape := (tape.growTo index).set index value

/-- The cells that are not zero, with their indices, in order. -/
def nonzero (tape : Tape) : List (Nat × Int32) :=
  let found := tape.cells.foldl (fun (index, found) value =>
    (index + 1, if value = 0 then found else (index, value) :: found)) (0, [])
  found.2.reverse

/-! ### What the operations do to length and cells -/

@[simp] theorem length_zeros (length maxGrowth : Nat) :
    (zeros length maxGrowth).length = max 1 length := by
  simp [zeros, Tape.length]

@[simp] theorem length_set (tape : Tape) (index : Nat) (value : Int32) :
    (tape.set index value).length = tape.length := by
  simp [set, length]

theorem get?_set (tape : Tape) (index : Nat) (value : Int32) (other : Nat) :
    (tape.set index value).get? other =
      if other = index ∧ index < tape.length then some value else tape.get? other := by
  simp only [get?, set, length, Array.getElem?_setIfInBounds]
  grind

@[simp] theorem length_growTo (tape : Tape) (index : Nat) :
    (tape.growTo index).length = Growth.lengthAfter tape.length (tape.growths index) := by
  have h := Growth.le_lengthAfter_upTo tape.maxGrowth index (index + 1 - tape.length) tape.length
  simp only [growTo, length, Array.size_append, Array.size_replicate, growths] at h ⊢
  omega

theorem lt_length_growTo (tape : Tape) (index : Nat) : index < (tape.growTo index).length := by
  rw [length_growTo]
  exact Growth.lt_lengthAfter_upTo (by omega)

theorem get?_growTo (tape : Tape) (index other : Nat) :
    (tape.growTo index).get? other =
      if other < (tape.growTo index).length then some ((tape.get? other).getD 0) else none := by
  split
  case isTrue h =>
    simp only [get?, growTo, length, Array.size_append, Array.size_replicate] at h ⊢
    grind
  case isFalse h => simpa [get?, length] using h

theorem growTo_of_lt {tape : Tape} {index : Nat} (h : index < tape.length) :
    tape.growTo index = tape := by
  simp [growTo, growths, Growth.upTo_of_lt h]

end Tape

end TapeMachine
