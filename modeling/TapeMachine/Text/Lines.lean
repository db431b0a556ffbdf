/-!
# TapeMachine.Text.Lines — the lines of a text

A line ends at a line feed, and a carriage return right before that belongs to the line break.  A
carriage return anywhere else is a character of its line.
-/

namespace TapeMachine

namespace Lines

/-- A line without the carriage return of its line break; the line is given last character first. -/
def withoutReturn : List Char → List Char
  | '\r' :: line => line
  | line => line

/-- The lines of a text whose current line has come this far, last character first.  The text ends
with a line break that is not part of it. -/
def split (line : List Char) : List Char → List (List Char)
  | [] => [(withoutReturn line).reverse]
  | c :: text =>
    if c = '\n' then (withoutReturn line).reverse :: split [] text else split (c :: line) text

/-- The lines of a text that is written with a line break after it. -/
def ofText (text : String) : List String := (split [] text.toList).map String.ofList

end Lines

end TapeMachine
