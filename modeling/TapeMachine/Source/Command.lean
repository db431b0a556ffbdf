/-!
# TapeMachine.Source.Command — the eight commands and the tokens of a source text

A source text is a list of bytes.  Eight byte values are commands, every other byte is a comment.
`tokens` keeps the commands, each with its byte offset, in the order of the text.
-/

namespace TapeMachine

/-- A command of the source language. -/
inductive Command where
  /-- Adds one to the current cell. -/
  | increment
  /-- Subtracts one from the current cell. -/
  | decrement
  /-- Moves the cursor one cell up. -/
  | moveRight
  /-- Moves the cursor one cell down. -/
  | moveLeft
  /-- Reads one byte into the current cell. -/
  | readByte
  /-- Writes the low byte of the current cell. -/
  | writeByte
  /-- Starts a loop that runs while the current cell is not zero. -/
  | loopStart
  /-- Ends the innermost open loop. -/
  | loopEnd
  deriving DecidableEq, Repr, Inhabited

namespace Command

/-- Every command, once. -/
def all : List Command :=
  [increment, decrement, moveRight, moveLeft, readByte, writeByte, loopStart, loopEnd]

/-- The character that stands for a command in a source text. -/
def char : Command → Char
  | increment => '+'
  | decrement => '-'
  | moveRight => '>'
  | moveLeft => '<'
  | readByte => ','
  | writeByte => '.'
  | loopStart => '['
  | loopEnd => ']'

/-- The byte that stands for a command in a source text. -/
def byte (command : Command) : UInt8 := command.char.toUInt8

/-- The command that a byte stands for; `none` for a byte of a comment. -/
def ofByte? (byte : UInt8) : Option Command := all.find? (·.byte = byte)

@[simp] theorem ofByte?_byte (command : Command) : ofByte? command.byte = some command := by
  cases command <;> decide

end Command

/-- A command of a source text, with the place where it stands. -/
structure Token where
  command : Command
  /-- Bytes before the command in its source text. -/
  offset : Nat
  deriving DecidableEq, Repr, Inhabited

/-- The commands of a source text in order; comments leave no token. -/
def tokens (source : List UInt8) : List Token :=
  source.zipIdx.filterMap fun (byte, offset) =>
    (Command.ofByte? byte).map fun command => ⟨command, offset⟩

@[simp] theorem tokens_nil : tokens [] = [] := rfl

end TapeMachine
