/-!
# TapeMachine.Json.Value — the values of JSON documents
-/

namespace TapeMachine

/-- A JSON value. -/
inductive Json where
  | null
  | bool (value : Bool)
  /-- A number written without fraction and exponent that fits a 64-bit word. -/
  | integer (value : Int)
  /-- Any other number.  No reader of this library asks for its value, so none is kept. -/
  | real
  | string (text : String)
  | array (items : List Json)
  /-- The members in the order of the text; a key may occur more than once. -/
  | object (members : List (String × Json))
  deriving Repr, Inhabited

end TapeMachine
