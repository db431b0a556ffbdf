import TapeMachine.Source.Command
import TapeMachine.Source.SourceError

/-!
# TapeMachine.Source.Forest — folded runs and loops

A forest is the loop structure of a source text in which each run of commands of one action has
become one leaf.  The argument of a leaf is the net effect of its run: `+-` is `addValue 0`, and
`,,,` is `readByte 3`.  `Forest.ofTokens` builds the forest in one pass with a stack of open loops;
it refuses unbalanced brackets and runs whose net effect leaves 32 bits.
-/

namespace TapeMachine

/-- What the commands of one run do, whatever their number. -/
inductive Action where
  /-- Adds the argument to the current cell. -/
  | addValue
  /-- Moves the cursor by the argument. -/
  | movePointer
  /-- Reads as many bytes as the argument says into the current cell. -/
  | readByte
  /-- Writes the low byte of the current cell as often as the argument says. -/
  | writeByte
  deriving DecidableEq, Repr, Inhabited

/-- What one command contributes to a run; `none` for the two brackets. -/
def Command.contribution? : Command → Option (Action × Int)
  | increment => some (.addValue, 1)
  | decrement => some (.addValue, -1)
  | moveRight => some (.movePointer, 1)
  | moveLeft => some (.movePointer, -1)
  | readByte => some (.readByte, 1)
  | writeByte => some (.writeByte, 1)
  | loopStart | loopEnd => none

/-- The action that a command takes part in; `none` for the two brackets. -/
def Command.action? (command : Command) : Option Action := command.contribution?.map Prod.fst

/-- A run of commands of one action, or a loop. -/
inductive Node where
  | leaf (action : Action) (argument : Int32)
  /-- A loop; `offset` is where its opening bracket stands. -/
  | loop (offset : Nat) (body : List Node)
  deriving Repr, Inhabited

/-- A sequence of runs and loops. -/
abbrev Forest := List Node

/-- The 32-bit word of an integer, when it has one. -/
def int32OfInt? (value : Int) : Option Int32 :=
  if Int32.minValue.toInt ≤ value ∧ value ≤ Int32.maxValue.toInt then some (Int32.ofInt value)
  else none

theorem int32OfInt?_eq_some_iff {value : Int} {word : Int32} :
    int32OfInt? value = some word ↔ word.toInt = value := by
  have hmin : Int32.minValue.toInt = -2 ^ 31 := rfl
  have hmax : Int32.maxValue.toInt = 2 ^ 31 - 1 := rfl
  unfold int32OfInt?
  constructor
  · intro h
    split at h
    · cases h
      exact Int32.toInt_ofInt_of_le (by omega) (by omega)
    · cases h
  · rintro rfl
    have hleast := word.le_toInt
    have hgreatest := word.toInt_lt
    rw [if_pos (by omega), Int32.ofInt_toInt]

namespace Forest

/-- What the scan has seen: the nodes of the body it is in, the bodies around it, and the command
before the next one. -/
structure Scan where
  /-- The innermost body so far, newest node first. -/
  body : Forest
  /-- The loops still open, innermost first: where each starts, and the body around it so far. -/
  enclosing : List (Nat × Forest)
  /-- The command read last. -/
  last : Option Command

/-- The scan before the first token. -/
def Scan.start : Scan := ⟨[], [], none⟩

/-- Adds one command of a run to a body kept newest first.  It joins the newest node when the
command read last was of its own action and that node is a leaf of this action, and starts a new
leaf otherwise. -/
def extendRun (action : Action) (change : Int) (offset : Nat) (last : Option Command) :
    Forest → Except SourceError Forest
  | .leaf newest total :: older =>
    if last.bind Command.action? = some action ∧ newest = action then
      match int32OfInt? (total.toInt + change) with
      | some total => .ok (.leaf action total :: older)
      | none => .error (.overflow offset)
    else .ok (.leaf action (Int32.ofInt change) :: .leaf newest total :: older)
  | body => .ok (.leaf action (Int32.ofInt change) :: body)

/-- The scan after one more token. -/
def Scan.read (scan : Scan) (token : Token) : Except SourceError Scan :=
  match token.command.contribution? with
  | some (action, change) => do
    let body ← extendRun action change token.offset scan.last scan.body
    return { scan with body, last := some token.command }
  | none =>
    if token.command = .loopStart then
      .ok ⟨[], (token.offset, scan.body) :: scan.enclosing, some token.command⟩
    else match scan.enclosing with
      | (start, around) :: outer =>
        .ok ⟨.loop start scan.body.reverse :: around, outer, some token.command⟩
      | [] => .error (.unmatchedClose token.offset)

/-- The forest of a finished scan; the innermost loop that is still open is to blame for none. -/
def Scan.finish (scan : Scan) : Except SourceError Forest :=
  match scan.enclosing with
  | (start, _) :: _ => .error (.unmatchedOpen start)
  | [] => .ok scan.body.reverse

/-- The forest of a token sequence. -/
def ofTokens (tokens : List Token) : Except SourceError Forest := do
  (← tokens.foldlM Scan.read .start).finish

/-- The forest of a source text. -/
def ofSource (source : List UInt8) : Except SourceError Forest := ofTokens (tokens source)

end Forest

end TapeMachine
