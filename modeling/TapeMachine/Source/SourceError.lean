/-!
# TapeMachine.Source.SourceError — why a source text has no program

Each cause names the byte it blames.  `message` is the one place that holds the wording.
-/

namespace TapeMachine

/-- Why a source text, or the forest of one, cannot be compiled. -/
inductive SourceError where
  /-- A loop end at this offset that no open loop waits for. -/
  | unmatchedClose (offset : Nat)
  /-- A loop start at this offset that is never closed. -/
  | unmatchedOpen (offset : Nat)
  /-- A run of commands, or a loop body, too long for a 32-bit argument. -/
  | overflow (offset : Nat)
  deriving DecidableEq, Repr, Inhabited

namespace SourceError

/-- The byte that the error blames. -/
def offset : SourceError → Nat
  | unmatchedClose offset | unmatchedOpen offset | overflow offset => offset

/-- The error for a reader. -/
def message : SourceError → String
  | unmatchedClose offset => s!"unmatched ']' at byte {offset}"
  | unmatchedOpen offset => s!"unmatched '[' at byte {offset}"
  | overflow offset => s!"instruction argument overflows at byte {offset}"

end SourceError

end TapeMachine
