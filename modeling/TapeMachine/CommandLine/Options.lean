import TapeMachine.Machine.Basic

/-!
# TapeMachine.CommandLine.Options — what the arguments ask for

Options have long names only.  A value follows its option as the next argument or after an equals
sign; options and files come in any order, and after `--` everything is a file.  Each option may be
given once.  Whatever breaks these rules is a usage error, and there is one kind of it only, so
`Options.ofArguments?` gives none.
-/

namespace TapeMachine

/-- An option without a value. -/
inductive Flag where
  | instructions
  | emit
  | state
  deriving DecidableEq, Repr, Inhabited

/-- An option with a value. -/
inductive Setting where
  | eof
  | tapeLength
  | timeout
  deriving DecidableEq, Repr, Inhabited

/-- The flag of a name. -/
def Flag.ofName? (name : String) : Option Flag :=
  if name = "instructions" then some instructions
  else if name = "emit" then some emit
  else if name = "state" then some state
  else none

/-- The setting of a name. -/
def Setting.ofName? (name : String) : Option Setting :=
  if name = "eof" then some eof
  else if name = "tape-len" then some tapeLength
  else if name = "timeout-ms" then some timeout
  else none

/-- One thing that the arguments say. -/
inductive Argument where
  | flag (flag : Flag)
  | setting (setting : Setting) (value : String)
  | file (name : String)
  deriving DecidableEq, Repr, Inhabited

/-- What the command line asks for. -/
structure Options where
  /-- What reading stores into a cell when the input has ended. -/
  eof : Int32
  /-- Whether the files are listings, and not source texts. -/
  instructions : Bool
  /-- Whether to print listings, and not to run. -/
  emit : Bool
  /-- Whether to show each machine after its run. -/
  showState : Bool
  /-- After how many milliseconds to stop. -/
  timeout : Option Nat
  /-- Cells of a fresh tape. -/
  tapeLength : Nat
  /-- The files to run, at least one. -/
  files : List String
  deriving DecidableEq, Repr, Inhabited

namespace Argument

/-- The name of a long option and the value after its equals sign, if it has one. -/
def splitName (text : List Char) : String × Option String :=
  let name := String.ofList (text.takeWhile (· ≠ '='))
  match text.dropWhile (· ≠ '=') with
  | [] => (name, none)
  | _ :: value => (name, some (String.ofList value))

/-- What the arguments say, one by one. -/
def parse? : List String → Option (List Argument)
  | [] => some []
  | text :: rest =>
    match text.toList with
    | ['-', '-'] => some (rest.map .file)
    | '-' :: '-' :: long =>
      let (name, value?) := splitName long
      match Flag.ofName? name, value? with
      | some given, none => (parse? rest).map (.flag given :: ·)
      | some _, some _ => none
      | none, _ => match Setting.ofName? name, value? with
        | some given, some value => (parse? rest).map (.setting given value :: ·)
        | some given, none => match rest with
          | value :: rest => (parse? rest).map (.setting given value :: ·)
          | [] => none
        | none, _ => none
    | '-' :: _ :: _ => none
    | _ => (parse? rest).map (.file text :: ·)

/-- The value of a setting, if it is given. -/
def valueOf? (setting : Setting) : Argument → Option String
  | .setting given value => if given = setting then some value else none
  | _ => none

/-- The name of a file. -/
def file? : Argument → Option String
  | .file name => some name
  | _ => none

end Argument

namespace Options

/-- The value of a setting among the arguments, read by `read?`; `absent` stands for it when it is
not given.  A setting given twice, or with a value that cannot be read, is an error. -/
def setting? {α : Type} (arguments : List Argument) (setting : Setting)
    (read? : List Char → Option α) (absent : α) : Option α :=
  match arguments.filterMap (Argument.valueOf? setting) with
  | [] => some absent
  | [value] => read? value.toList
  | _ => none

/-- Whether a flag is among the arguments.  A flag given twice is an error. -/
def flag? (arguments : List Argument) (flag : Flag) : Option Bool :=
  match arguments.count (.flag flag) with
  | 0 => some false
  | 1 => some true
  | _ => none

/-- A natural number that fits a 64-bit word. -/
def word64? (text : List Char) : Option Nat :=
  (Decimal.natural? text).filter (· < UInt64.size)

/-- An integer that fits a signed 32-bit word. -/
def word32? (text : List Char) : Option Int32 :=
  (Decimal.integer? text).bind int32OfInt?

/-- What the arguments ask for; `none` for a usage error. -/
def ofArguments? (texts : List String) : Option Options := do
  let arguments ← Argument.parse? texts
  let files := arguments.filterMap Argument.file?
  guard (files ≠ [] ∧ "" ∉ files)
  return {
    eof := ← setting? arguments .eof word32? 0
    instructions := ← flag? arguments .instructions
    emit := ← flag? arguments .emit
    showState := ← flag? arguments .state
    timeout := ← setting? arguments .timeout (fun text => (word64? text).map some) none
    tapeLength := ← setting? arguments .tapeLength word64? ({} : Config).tapeLength
    files }

/-- The machine settings among the options. -/
def config (options : Options) : Config :=
  { eof := options.eof, tapeLength := options.tapeLength }

end Options

end TapeMachine
