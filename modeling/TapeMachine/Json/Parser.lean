import TapeMachine.Json.Lexeme

/-!
# TapeMachine.Json.Parser — from lexemes to a value

The parser is a machine with a stack: one frame for each array or object that is open, and what the
next lexeme may be.  It reads each lexeme once, so nesting costs no recursion, and `room` counts
down how many more arrays and objects may be opened inside one another.

The parser stands in for the one of a library.  What is relied on of such a reader is named in
`Json.IsReader` (`Proofs/Json/Conformance`), and `Json.isReader_parse?` says that this one is such a
reader.
-/

namespace TapeMachine

namespace Json

/-- An array or object that is open, with what it holds so far, newest first. -/
inductive Frame where
  | array (items : List Json)
  /-- The key is the one of the member whose value is being read. -/
  | object (members : List (String × Json)) (key : String)
  deriving Repr, Inhabited

/-- What the parser waits for. -/
inductive Expected where
  /-- A value. -/
  | value
  /-- The first item of the array just opened, or its end. -/
  | itemOrClose
  /-- The first key of the object just opened, or its end. -/
  | keyOrClose
  /-- The next key of an object with these members, newest first. -/
  | key (members : List (String × Json))
  /-- The colon after a key of an object with these members, newest first. -/
  | colon (members : List (String × Json)) (key : String)
  /-- What may follow this finished value: a comma, the end of what is open, or nothing. -/
  | separator (finished : Json)
  deriving Repr, Inhabited

/-- The parser between two lexemes. -/
structure Parser where
  expected : Expected
  /-- The arrays and objects with a value under way, innermost first. -/
  stack : List Frame
  /-- How many more arrays and objects may be opened inside the open ones. -/
  room : Nat
  deriving Repr, Inhabited

namespace Parser

/-- The parser after a lexeme that starts a value. -/
def startValue (parser : Parser) : Lexeme → Option Parser
  | .scalar value => some { parser with expected := .separator value }
  | .arrayOpen =>
    match parser.room with
    | room + 1 => some ⟨.itemOrClose, .array [] :: parser.stack, room⟩
    | 0 => none
  | .objectOpen =>
    match parser.room with
    | room + 1 => some ⟨.keyOrClose, parser.stack, room⟩
    | 0 => none
  | _ => none

/-- The parser after one more lexeme. -/
def read (parser : Parser) (lexeme : Lexeme) : Option Parser :=
  let { expected, stack, room } := parser
  match expected, stack, lexeme with
  | .value, _, _ => parser.startValue lexeme
  | .itemOrClose, .array _ :: stack, .arrayClose => some ⟨.separator (.array []), stack, room + 1⟩
  | .itemOrClose, _, _ => parser.startValue lexeme
  | .keyOrClose, _, .objectClose => some ⟨.separator (.object []), stack, room + 1⟩
  | .keyOrClose, _, .scalar (.string key) => some ⟨.colon [] key, stack, room⟩
  | .key members, _, .scalar (.string key) => some ⟨.colon members key, stack, room⟩
  | .colon members key, _, .colon => some ⟨.value, .object members key :: stack, room⟩
  | .separator item, .array items :: stack, .comma =>
    some ⟨.value, .array (item :: items) :: stack, room⟩
  | .separator item, .array items :: stack, .arrayClose =>
    some ⟨.separator (.array (item :: items).reverse), stack, room + 1⟩
  | .separator value, .object members key :: stack, .comma =>
    some ⟨.key ((key, value) :: members), stack, room⟩
  | .separator value, .object members key :: stack, .objectClose =>
    some ⟨.separator (.object ((key, value) :: members).reverse), stack, room + 1⟩
  | _, _, _ => none

/-- The value of a document that ends here. -/
def finish? (parser : Parser) : Option Json :=
  match parser.expected, parser.stack with
  | .separator value, [] => some value
  | _, _ => none

end Parser

/-- The value of a text that is one JSON document in which at most `depth` arrays and objects are
open at once. -/
def parse? (depth : Nat) (text : List Char) : Option Json := do
  let lexemes ← Lexeme.scan text
  (← lexemes.foldlM Parser.read ⟨.value, [], depth⟩).finish?

end Json

end TapeMachine
