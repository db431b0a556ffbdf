import TapeMachine.Json.Number

/-!
# TapeMachine.Json.Lexeme — the lexemes of a JSON text

The scanner reads one character at a time and keeps what it is in the middle of, so one pass over
the text gives its lexemes.  Blanks are space, tab, carriage return and line feed.  A string may
hold no character below U+0020, and an escape of half a surrogate pair is refused.
-/

namespace TapeMachine

/-- The smallest parts of a JSON text that mean something. -/
inductive Lexeme where
  | arrayOpen
  | arrayClose
  | objectOpen
  | objectClose
  | comma
  | colon
  /-- A string, a number, or one of the three words. -/
  | scalar (value : Json)
  deriving Repr, Inhabited

namespace Lexeme

/-- The characters that may stand around any lexeme. -/
def isBlank (c : Char) : Bool := c = ' ' ∨ c = '\t' ∨ c = '\r' ∨ c = '\n'

/-- The lexeme of one punctuation character. -/
def punctuation? (c : Char) : Option Lexeme :=
  if c = '[' then some arrayOpen
  else if c = ']' then some arrayClose
  else if c = '\x7b' then some objectOpen
  else if c = '\x7d' then some objectClose
  else if c = ',' then some comma
  else if c = ':' then some colon
  else none

/-- The word that starts with a character: the characters to come, and its value. -/
def word? (c : Char) : Option (List Char × Json) :=
  if c = 'n' then some (['u', 'l', 'l'], .null)
  else if c = 't' then some (['r', 'u', 'e'], .bool true)
  else if c = 'f' then some (['a', 'l', 's', 'e'], .bool false)
  else none

/-- The characters that numbers are made of. -/
def isNumeric (c : Char) : Bool :=
  c.isDigit ∨ c = '+' ∨ c = '-' ∨ c = '.' ∨ c = 'e' ∨ c = 'E'

/-- The character that a one-letter escape stands for. -/
def escaped? (c : Char) : Option Char :=
  if c = '"' ∨ c = '\\' ∨ c = '/' then some c
  else if c = 'b' then some '\x08'
  else if c = 'f' then some '\x0c'
  else if c = 'n' then some '\n'
  else if c = 'r' then some '\r'
  else if c = 't' then some '\t'
  else none

/-- The value of a hexadecimal digit of either case. -/
def hexDigit? (c : Char) : Option Nat :=
  if c.isDigit then some (c.toNat - '0'.toNat)
  else if 'a' ≤ c ∧ c ≤ 'f' then some (c.toNat - 'a'.toNat + 10)
  else if 'A' ≤ c ∧ c ≤ 'F' then some (c.toNat - 'A'.toNat + 10)
  else none

/-- What the scanner is in the middle of.  Strings are kept newest character first. -/
inductive Mode where
  /-- Between lexemes. -/
  | between
  /-- In a word of which these characters are to come. -/
  | word (left : List Char) (value : Json)
  /-- In a number, of which these characters have come. -/
  | number (seen : List Char)
  /-- In a string. -/
  | string (seen : List Char)
  /-- In a string, after a backslash. -/
  | escape (seen : List Char)
  /-- In a string, in an escape by code with this many digits to come; `high` is the first half of
  a surrogate pair when this is its second half. -/
  | code (seen : List Char) (high : Option Nat) (left : Nat) (value : Nat)
  /-- In a string, after the first half of a surrogate pair: a backslash has to come. -/
  | pairEscape (seen : List Char) (high : Nat)
  /-- In a string, after the first half of a surrogate pair and a backslash. -/
  | pairMark (seen : List Char) (high : Nat)
  deriving Repr, Inhabited

/-- The scanner: its mode, and the lexemes so far, newest first. -/
structure Scanner where
  mode : Mode
  lexemes : List Lexeme
  deriving Repr, Inhabited

/-- The scanner after a character that starts a lexeme, or is blank. -/
def Scanner.start (lexemes : List Lexeme) (c : Char) : Option Scanner :=
  if isBlank c then some ⟨.between, lexemes⟩
  else if c = '"' then some ⟨.string [], lexemes⟩
  else if c = '-' ∨ c.isDigit then some ⟨.number [c], lexemes⟩
  else match punctuation? c with
    | some lexeme => some ⟨.between, lexeme :: lexemes⟩
    | none => (word? c).map fun (left, value) => ⟨.word left value, lexemes⟩

/-- The mode after a whole escape by code.  Codes U+D800 to U+DBFF are first halves of surrogate
pairs and U+DC00 to U+DFFF second halves; a half alone is no character. -/
def Mode.ofCode? (seen : List Char) (high : Option Nat) (code : Nat) : Option Mode :=
  let isHigh : Bool := 0xD800 ≤ code ∧ code < 0xDC00
  let isLow : Bool := 0xDC00 ≤ code ∧ code < 0xE000
  match high with
  | some high =>
    if isLow then
      some (.string (Char.ofNat (0x10000 + (high - 0xD800) * 0x400 + (code - 0xDC00)) :: seen))
    else none
  | none =>
    if isHigh then some (.pairEscape seen code)
    else if isLow then none
    else some (.string (Char.ofNat code :: seen))

/-- The scanner after one more character. -/
def Scanner.read (scanner : Scanner) (c : Char) : Option Scanner :=
  let { mode, lexemes } := scanner
  match mode with
  | .between => start lexemes c
  | .word [] value => start (.scalar value :: lexemes) c
  | .word (next :: left) value => if c = next then some ⟨.word left value, lexemes⟩ else none
  | .number seen =>
    if isNumeric c then some ⟨.number (c :: seen), lexemes⟩
    else do
      let value ← Json.ofNumber? seen.reverse
      start (.scalar value :: lexemes) c
  | .string seen =>
    if c = '"' then some ⟨.between, .scalar (.string (.ofList seen.reverse)) :: lexemes⟩
    else if c = '\\' then some ⟨.escape seen, lexemes⟩
    else if c < ' ' then none
    else some ⟨.string (c :: seen), lexemes⟩
  | .escape seen =>
    if c = 'u' then some ⟨.code seen none 3 0, lexemes⟩
    else (escaped? c).map fun character => ⟨.string (character :: seen), lexemes⟩
  | .code seen high left value => do
    let value := 16 * value + (← hexDigit? c)
    match left with
    | left + 1 => some ⟨.code seen high left value, lexemes⟩
    | 0 => (Mode.ofCode? seen high value).map (⟨·, lexemes⟩)
  | .pairEscape seen high => if c = '\\' then some ⟨.pairMark seen high, lexemes⟩ else none
  | .pairMark seen high => if c = 'u' then some ⟨.code seen (some high) 3 0, lexemes⟩ else none

/-- The lexemes of a whole text; `none` where a lexeme is malformed or not finished. -/
def Scanner.finish (scanner : Scanner) : Option (List Lexeme) :=
  match scanner.mode with
  | .between => some scanner.lexemes.reverse
  | .word [] value => some (.scalar value :: scanner.lexemes).reverse
  | .number seen => do
    let value ← Json.ofNumber? seen.reverse
    return (.scalar value :: scanner.lexemes).reverse
  | _ => none

/-- The lexemes of a text in order. -/
def scan (text : List Char) : Option (List Lexeme) := do
  (← text.foldlM Scanner.read ⟨.between, []⟩).finish

end Lexeme

end TapeMachine
