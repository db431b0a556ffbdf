import TapeMachine.CommandLine.Session
import TapeMachine.Proofs.Bytecode.Defects
import TapeMachine.Proofs.Json.Conformance
import TapeMachine.Proofs.Text.Ascii

/-!
# TapeMachine.Proofs.Bytecode.Listings — the language of listings

`Lists text program` is the grammar of listings: an array of pairs of integer literals, with blanks
around the tokens.  Every reader of JSON documents accepts this language and no other, and gives the
program that the text lists (`lists_iff_of_isReader`).  Such texts hold no character above U+007F, so
decoding never makes one out of bytes that are not its characters (`loadProgram_eq_ok_iff`).
-/

namespace TapeMachine

/-- The tokens of an entry of a listing, from the spellings of the two words. -/
def entryTokens (entry : List Char × List Char) : List (List Char) :=
  [['['], entry.1, [','], entry.2, [']']]

/-- The tokens of a listing, from the spellings of the words of its entries. -/
def listingTokens (entries : List (List Char × List Char)) : List (List Char) :=
  ['['] :: ([[',']].intercalate (entries.map entryTokens) ++ [[']']])

/-- The two texts are the words of the instruction, written as literals. -/
def Instruction.WrittenAs (entry : List Char × List Char) (instruction : Instruction) : Prop :=
  Literal entry.1 instruction.code.toInt ∧ Literal entry.2 instruction.argument.toInt

/-- The text is a listing of the program: the tokens of an array of its instructions in order, with
blanks around them. -/
def Lists (text : List Char) (program : Program) : Prop :=
  ∃ entries, List.Forall₂ Instruction.WrittenAs entries program.toList ∧
    Spaced (listingTokens entries) text

/-! ### Spellings of a listing -/

theorem forall₂_append_left_iff {α β : Type} {R : α → β → Prop} {front back : List α}
    {all : List β} :
    List.Forall₂ R (front ++ back) all ↔ ∃ start rest,
      List.Forall₂ R front start ∧ List.Forall₂ R back rest ∧ all = start ++ rest := by
  induction front generalizing all with
  | nil => simp
  | cons a front ih =>
    rw [List.cons_append, List.forall₂_cons_left_iff]
    simp only [ih, List.forall₂_cons_left_iff]
    constructor
    · rintro ⟨b, _, hb, ⟨start, rest, hstart, hrest, rfl⟩, rfl⟩
      exact ⟨b :: start, rest, ⟨b, start, hb, hstart, rfl⟩, hrest, rfl⟩
    · rintro ⟨_, rest, ⟨b, start, hb, hstart, rfl⟩, hrest, rfl⟩
      exact ⟨b, start ++ rest, hb, ⟨start, rest, hstart, hrest, rfl⟩, rfl⟩

namespace Instruction

theorem lexemes_entry (instruction : Instruction) :
    instruction.entry.lexemes = [.arrayOpen, .scalar (.integer instruction.code.toInt), .comma,
      .scalar (.integer instruction.argument.toInt), .arrayClose] := by
  simp [entry, Json.lexemes, Json.itemLexemes]

theorem plain_entry (instruction : Instruction) : instruction.entry.Plain :=
  Json.plain_array (by simp [Json.plain_integer])

theorem within_entry (instruction : Instruction) (depth : Nat) :
    instruction.entry.Within (depth + 1) :=
  .array (by simp [Json.within_integer])

/-- The spellings of an entry and of what follows it. -/
theorem forall₂_spells_entry_append {instruction : Instruction} {rest : List Lexeme}
    {tokens : List (List Char)} :
    List.Forall₂ Lexeme.Spells (instruction.entry.lexemes ++ rest) tokens ↔
      ∃ entry tail, instruction.WrittenAs entry ∧ List.Forall₂ Lexeme.Spells rest tail ∧
        tokens = entryTokens entry ++ tail := by
  rw [lexemes_entry]
  simp only [List.cons_append, List.nil_append, List.forall₂_cons_left_iff,
    Lexeme.spells_arrayOpen_iff, Lexeme.spells_arrayClose_iff, Lexeme.spells_comma_iff,
    Lexeme.spells_word_iff]
  constructor
  · rintro ⟨_, _, rfl, ⟨code, _, hcode, ⟨_, _, rfl, ⟨argument, _, hargument, ⟨_, tail, rfl, htail,
      rfl⟩, rfl⟩, rfl⟩, rfl⟩, rfl⟩
    exact ⟨(code, argument), tail, ⟨hcode, hargument⟩, htail, rfl⟩
  · rintro ⟨⟨code, argument⟩, tail, ⟨hcode, hargument⟩, htail, rfl⟩
    exact ⟨_, _, rfl, ⟨code, _, hcode, ⟨_, _, rfl, ⟨argument, _, hargument, ⟨_, tail, rfl, htail,
      rfl⟩, rfl⟩, rfl⟩, rfl⟩, rfl⟩

/-- The spellings of the items of a listing. -/
theorem forall₂_spells_items {instructions : List Instruction} {tokens : List (List Char)} :
    List.Forall₂ Lexeme.Spells (Json.itemLexemes (instructions.map entry)) tokens ↔
      ∃ entries, List.Forall₂ WrittenAs entries instructions ∧
        tokens = [[',']].intercalate (entries.map entryTokens) := by
  induction instructions generalizing tokens with
  | nil => simp [Json.itemLexemes]
  | cons instruction rest ih =>
    cases rest with
    | nil =>
      have hlexemes : Json.itemLexemes (List.map entry [instruction]) =
          instruction.entry.lexemes ++ [] := by
        rw [List.append_nil]
        exact Json.itemLexemes_singleton _
      rw [hlexemes, forall₂_spells_entry_append]
      constructor
      · rintro ⟨written, tail, hwritten, ⟨⟩, rfl⟩
        exact ⟨[written], .cons hwritten .nil, by simp⟩
      · rintro ⟨entries, hentries, rfl⟩
        cases hentries with
        | cons hwritten hnone =>
          cases hnone
          exact ⟨_, [], hwritten, .nil, by simp⟩
    | cons following rest =>
      have hlexemes : Json.itemLexemes (List.map entry (instruction :: following :: rest)) =
          instruction.entry.lexemes ++
            .comma :: Json.itemLexemes (List.map entry (following :: rest)) :=
        Json.itemLexemes_cons_cons _ _ _
      rw [hlexemes, forall₂_spells_entry_append]
      simp only [List.forall₂_cons_left_iff, Lexeme.spells_comma_iff, ih]
      constructor
      · rintro ⟨written, _, hwritten, ⟨_, _, rfl, ⟨entries, hentries, rfl⟩, rfl⟩, rfl⟩
        cases hentries with
        | cons hsecond hothers =>
          exact ⟨written :: _ :: _, .cons hwritten (.cons hsecond hothers), by simp⟩
      · rintro ⟨entries, hentries, rfl⟩
        cases hentries with
        | cons hwritten hrest =>
          cases hrest with
          | cons hsecond hothers =>
            exact ⟨_, _, hwritten, ⟨_, _, rfl, ⟨_, .cons hsecond hothers, rfl⟩, rfl⟩, by simp⟩

end Instruction

namespace Lexeme

theorem ascii_of_spells {lexemes : List Lexeme} {tokens : List (List Char)}
    (h : List.Forall₂ Spells lexemes tokens) (hplain : ∀ lexeme ∈ lexemes, lexeme.Plain) :
    ∀ token ∈ tokens, ∀ c ∈ token, c.toNat < 0x80 := by
  induction h with
  | nil => simp
  | @cons lexeme token lexemes tokens hlexeme _ ih =>
    refine List.forall_mem_cons.mpr
      ⟨?_, ih fun l hl => hplain l (List.mem_cons_of_mem _ hl)⟩
    cases hlexeme with
    | punctuation h =>
      have hascii := of_punctuation? (P := (·.toNat < 0x80)) h (by decide)
      exact fun c hc => List.mem_singleton.mp hc ▸ hascii
    | integer h => exact h.ascii
    | other _ hinteger =>
      exact absurd (hplain _ List.mem_cons_self) (not_plain_of_ne_integer hinteger)

end Lexeme

/-! ### The language -/

namespace Program

/-- The JSON document of a program. -/
def document (program : Program) : Json := .array (program.toList.map Instruction.entry)

variable {text : List Char} {program : Program}

theorem lexemes_document : program.document.lexemes =
    [.arrayOpen] ++ (Json.itemLexemes (program.toList.map Instruction.entry) ++ [.arrayClose]) := by
  simp [document, Json.lexemes]

/-- The spellings of the document of a program. -/
theorem forall₂_spells_document {tokens : List (List Char)} :
    List.Forall₂ Lexeme.Spells program.document.lexemes tokens ↔
      ∃ entries, List.Forall₂ Instruction.WrittenAs entries program.toList ∧
        tokens = listingTokens entries := by
  rw [lexemes_document]
  simp only [forall₂_append_left_iff, Instruction.forall₂_spells_items, List.forall₂_cons_left_iff,
    List.forall₂_nil_left_iff, Lexeme.spells_arrayOpen_iff, Lexeme.spells_arrayClose_iff]
  constructor
  · rintro ⟨_, _, ⟨_, _, rfl, rfl, rfl⟩, ⟨_, _, ⟨entries, hentries, rfl⟩, ⟨_, _, rfl, rfl, rfl⟩,
      rfl⟩, rfl⟩
    exact ⟨entries, hentries, rfl⟩
  · rintro ⟨entries, hentries, rfl⟩
    exact ⟨_, _, ⟨_, _, rfl, rfl, rfl⟩, ⟨_, _, ⟨entries, hentries, rfl⟩, ⟨_, _, rfl, rfl, rfl⟩,
      rfl⟩, rfl⟩

/-- A text spells the document of a program if it lists the program. -/
theorem spelledBy_document_iff : program.document.SpelledBy text ↔ Lists text program := by
  unfold Json.SpelledBy Lists
  simp only [forall₂_spells_document]
  constructor
  · rintro ⟨_, ⟨entries, hentries, rfl⟩, hspaced⟩
    exact ⟨entries, hentries, hspaced⟩
  · rintro ⟨entries, hentries, hspaced⟩
    exact ⟨_, ⟨entries, hentries, rfl⟩, hspaced⟩

theorem plain_document (program : Program) : program.document.Plain :=
  Json.plain_array (List.forall_mem_map.mpr fun instruction _ => instruction.plain_entry)

theorem within_document (program : Program) : program.document.Within listingDepth :=
  .array (List.forall_mem_map.mpr fun instruction _ => instruction.within_entry _)

/-- Every reader reads the texts that list a program as its document, and no others. -/
theorem lists_iff_of_isReader {read? : List Char → Option Json}
    (h : Json.IsReader listingDepth read?) :
    Lists text program ↔ ∃ value, read? text = some value ∧ ofJson value = .ok program := by
  rw [← spelledBy_document_iff]
  have hread : read? text = some program.document ↔
      program.document.SpelledBy text ∧ program.document.Within listingDepth :=
    h.plain_iff program.plain_document
  constructor
  · intro hspelled
    exact ⟨program.document, hread.mpr ⟨hspelled, program.within_document⟩,
      ofJson_eq_ok_iff.mpr rfl⟩
  · rintro ⟨value, hvalue, hprogram⟩
    obtain rfl := ofJson_eq_ok_iff.mp hprogram
    exact (hread.mp hvalue).1

theorem ofListing_eq_ok_iff : ofListing text = .ok program ↔ Lists text program := by
  rw [lists_iff_of_isReader (Json.isReader_parse? listingDepth)]
  unfold ofListing
  cases Json.parse? listingDepth text <;> simp

/-- A text that is no listing is a malformed program. -/
theorem exists_of_ofListing_eq_error {fault : Fault} (h : ofListing text = .error fault) :
    ∃ index reason, fault = .invalidProgram index reason := by
  unfold ofListing at h
  split at h
  · exact exists_of_ofJson_eq_error h
  · cases h
    exact ⟨_, _, rfl⟩

/-- Listings have no character above U+007F. -/
theorem ascii_of_lists (h : Lists text program) : ∀ c ∈ text, c.toNat < 0x80 := by
  obtain ⟨tokens, hspells, hspaced⟩ := spelledBy_document_iff.mpr h
  refine hspaced.forall_mem (fun c hblank => ?_) ?_
  · simp only [Lexeme.isBlank, decide_eq_true_eq] at hblank
    rcases hblank with rfl | rfl | rfl | rfl <;> decide
  · exact Lexeme.ascii_of_spells hspells program.plain_document

end Program

/-! ### Files -/

namespace Session

variable {world : World} {options : Options} {path : String} {program : Program}

/-- With listings asked for, a file is loaded if its bytes are the characters of a listing. -/
theorem loadProgram_eq_ok_iff (hinstructions : options.instructions = true) :
    loadProgram world options path = .ok program ↔
      ∃ bytes, world.read path = .ok bytes ∧ (∀ byte ∈ bytes, byte < 0x80) ∧
        Lists (Utf8.asciiText bytes) program := by
  unfold loadProgram
  simp only [hinstructions, if_true, bind_eq_ok_iff, mapError_eq_ok_iff,
    Program.ofListing_eq_ok_iff]
  refine exists_congr fun bytes => and_congr_right fun _ => ?_
  constructor
  · intro h
    have hascii := Utf8.ascii_of_decode (Program.ascii_of_lists h)
    rw [Utf8.decode_ascii hascii] at h
    exact ⟨hascii, h⟩
  · rintro ⟨hascii, h⟩
    rw [Utf8.decode_ascii hascii]
    exact h

end Session

/-- The language of listings.  A text is read as a program exactly if it lists the program, and
every other text is a malformed program; with listings asked for, a file is loaded as a program
exactly if its bytes are all below 128 and are the characters of a listing of the program. -/
theorem listing_language :
    (∀ text program, Program.ofListing text = .ok program ↔ Lists text program) ∧
      (∀ text, (∃ index reason, Program.ofListing text = .error (.invalidProgram index reason)) ↔
        ∀ program, ¬ Lists text program) ∧
      (∀ (world : World) (options : Options) path program, options.instructions = true →
        (Session.loadProgram world options path = .ok program ↔
          ∃ bytes, world.read path = .ok bytes ∧ (∀ byte ∈ bytes, byte < 0x80) ∧
            Lists (Utf8.asciiText bytes) program)) := by
  refine ⟨fun text program => Program.ofListing_eq_ok_iff, fun text => ⟨?_, fun hnone => ?_⟩,
    fun world options path program => Session.loadProgram_eq_ok_iff⟩
  · rintro ⟨index, reason, hrefused⟩ program hlists
    have hread := Program.ofListing_eq_ok_iff.mpr hlists
    rw [hrefused] at hread
    cases hread
  · cases hread : Program.ofListing text with
    | ok program => exact absurd (Program.ofListing_eq_ok_iff.mp hread) (hnone program)
    | error fault =>
      obtain ⟨index, reason, rfl⟩ := Program.exists_of_ofListing_eq_error hread
      exact ⟨index, reason, rfl⟩

/-- The text `[ [2,-3]` and a line break and `]` lists one instruction. -/
theorem listing_language_blanks :
    let text := ['[', ' ', '[', '2', ',', '-', '3', ']', '\n', ']']
    let bytes := text.map fun c => UInt8.ofNat c.toNat
    let world : World := ⟨fun _ => .ok bytes, default, default⟩
    let options : Options := { (default : Options) with instructions := true }
    let program : Program := .ofList [⟨2, -3⟩]
    Lists text program ∧ Program.ofListing text = .ok program ∧ options.instructions = true ∧
      Session.loadProgram world options "listing" = .ok program := by
  intro text bytes world options program
  have hcode : Literal ['2'] 2 := .plain ⟨by decide, by simp, by decide⟩
  have hargument : Literal ['-', '3'] (-3) := .minus ⟨by decide, by simp, by decide⟩ (by decide)
  have hspace : Blanks [' '] := blanks_singleton (by decide)
  have hbreak : Blanks ['\n'] := blanks_singleton (by decide)
  have hnone := blanks_nil
  have hspaced : Spaced (listingTokens [(['2'], ['-', '3'])]) text :=
    .cons hnone (.cons hspace (.cons hnone (.cons hnone (.cons hnone (.cons hnone
      (.cons hbreak (.nil hnone)))))))
  have hlists : Lists text program := ⟨_, .cons ⟨hcode, hargument⟩ .nil, hspaced⟩
  refine ⟨hlists, (listing_language.1 text program).mpr hlists, rfl, ?_⟩
  exact (listing_language.2.2 world options "listing" program rfl).mpr
    ⟨bytes, rfl, by simp [bytes, text], hlists⟩

end TapeMachine
