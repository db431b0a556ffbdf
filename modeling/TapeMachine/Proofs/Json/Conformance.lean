import TapeMachine.Proofs.Json.Parsing

/-!
# TapeMachine.Proofs.Json.Conformance — what is relied on of a reader and a printer

A library reads and prints JSON documents, and `Json.parse?` and `Program.listing` stand in for it.
`Json.IsReader` names the laws of a reader that the theory of listings rests on: the grammar of
RFC 8259, with the rule that tells integers from other numbers, and the limit of the depth.
`Json.isReader_parse?` says that they hold of the reader here; the language of listings follows from
them for every reader (`Program.lists_iff_of_isReader`).

`Json.IsCompact` is the law of a printer: the lexemes of a value one after the other, without blanks,
and integers in decimal.  It leaves one text for the document of a program, the listing
(`Program.isCompact_document_iff`).
-/

namespace TapeMachine

namespace Json

/-- The laws of a reader that allows this depth.  Strings, other numbers than integers and the order
of the members of an object are outside of them, for no listing has any. -/
structure IsReader (depth : Nat) (read? : List Char → Option Json) : Prop where
  /-- The grammar: a text is read as a value whose lexemes it spells, with blanks around them.  An
  integer is one that 64 bits hold, and is spelled in plain digits. -/
  spelledBy : ∀ {text value}, value.Plain → read? text = some value → value.SpelledBy text
  /-- The limit of the depth. -/
  within : ∀ {text value}, read? text = some value → value.Within depth
  /-- Nothing else is refused: a text that spells a value within the depth is read as the value. -/
  reads : ∀ {text value}, value.Plain → value.SpelledBy text → value.Within depth →
    read? text = some value

theorem isReader_parse? (depth : Nat) : IsReader depth (parse? depth) where
  spelledBy _ := spelledBy_of_parse?
  within := within_of_parse?
  reads := parse?_of_spelledBy

theorem spelledBy_integer_iff {value : Int} {text : List Char} :
    SpelledBy (.integer value) text ↔
      FitsWord64 value ∧ ∃ literal, Literal literal value ∧ Spaced [literal] text := by
  unfold SpelledBy
  rw [lexemes_scalar rfl]
  constructor
  · rintro ⟨_, _ | ⟨hspells, ⟨⟩⟩, hspaced⟩
    obtain ⟨hliteral, hfits⟩ := Lexeme.spells_integer_iff.mp hspells
    exact ⟨hfits, _, hliteral, hspaced⟩
  · rintro ⟨hfits, literal, hliteral, hspaced⟩
    exact ⟨[literal], .cons (.integer hliteral hfits) .nil, hspaced⟩

namespace IsReader

variable {depth : Nat} {read? : List Char → Option Json} {text : List Char}

/-- The texts that are read as a plain value are those that spell it, if it keeps to the depth. -/
theorem plain_iff (h : IsReader depth read?) {value : Json} (hplain : value.Plain) :
    read? text = some value ↔ value.SpelledBy text ∧ value.Within depth := by
  constructor
  · intro hread
    exact ⟨h.spelledBy hplain hread, h.within hread⟩
  · rintro ⟨hspelled, hwithin⟩
    exact h.reads hplain hspelled hwithin

/-- The rule of integers: a text is read as an integer if it is a literal of it, up to blanks, and 64
bits hold it. -/
theorem integer_iff (h : IsReader depth read?) {value : Int} :
    read? text = some (.integer value) ↔
      FitsWord64 value ∧ ∃ literal, Literal literal value ∧ Spaced [literal] text := by
  rw [h.plain_iff (plain_integer value), spelledBy_integer_iff,
    and_iff_left (within_integer depth value)]

/-- A zero with a minus sign is not read as an integer. -/
theorem minus_zero (h : IsReader depth read?) (value : Int) :
    read? ['-', '0'] ≠ some (.integer value) := by
  intro hread
  obtain ⟨-, literal, hliteral, hspaced⟩ := h.integer_iff.mp hread
  have hfilter := hspaced.filter (by simpa using hliteral.not_isBlank)
  have htext : (['-', '0'].filter fun c => !Lexeme.isBlank c) = ['-', '0'] := by decide
  rw [htext, List.flatten_singleton] at hfilter
  subst hfilter
  exact not_literal_minus_zero value hliteral

end IsReader

/-- The law of a printer: the text is the spellings of the lexemes of the value in order, with nothing
between them. -/
def IsCompact (value : Json) (text : List Char) : Prop :=
  ∃ tokens, List.Forall₂ Lexeme.Spells value.lexemes tokens ∧ text = tokens.flatten

/-- What is printed spells the value. -/
theorem IsCompact.spelledBy {value : Json} {text : List Char} (h : value.IsCompact text) :
    value.SpelledBy text := by
  obtain ⟨tokens, hspells, rfl⟩ := h
  have hspaced : Spaced tokens (tokens.flatten ++ []) := .flatten tokens blanks_nil
  rw [List.append_nil] at hspaced
  exact ⟨tokens, hspells, hspaced⟩

end Json

end TapeMachine
