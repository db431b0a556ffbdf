import TapeMachine.Proofs.Bytecode.Listings
import TapeMachine.Proofs.Text.Printable

/-!
# TapeMachine.Proofs.Bytecode.Rendering — a listing that is written is read back

The written form of an integer is a literal, so the listing of a program lists the program, with or
without blanks after it (`lists_listing`).  As a line of bytes it is one line, and a file that holds
this line is loaded as the program (`loadProgram_line`).
-/

namespace TapeMachine

theorem toDigits_eq_zero_of_head? {value : Nat} (h : (Nat.toDigits 10 value).head? = some '0') :
    Nat.toDigits 10 value = ['0'] := by
  induction value using Nat.strongRecOn with
  | ind value ih =>
    rw [Nat.toDigits_eq_if (by decide)] at h ⊢
    by_cases hsmall : value < 10
    · rw [if_pos hsmall] at h ⊢
      have hdigit : value.digitChar = '0' := Option.some.inj h
      rw [hdigit]
    · rw [if_neg hsmall] at h
      rw [List.head?_append_of_ne_nil _ Nat.toDigits_ne_nil] at h
      have hzero := ih (value / 10) (by omega) h
      have hvalue := congrArg (Nat.ofDigitChars 10 · 0) hzero
      simp only [Nat.ofDigitChars_toDigits (by decide : 1 < 10) (by decide)] at hvalue
      have hnone : Nat.ofDigitChars 10 ['0'] 0 = 0 := rfl
      omega

namespace Decimal

theorem digits_toDigits (value : Nat) : Digits (Nat.toDigits 10 value) where
  nonempty := Nat.toDigits_ne_nil
  isDigit _ hc := Nat.isDigit_of_mem_toDigits (by decide) (by decide) hc
  noLeadingZero := toDigits_eq_zero_of_head?

/-- The written form of an integer is a literal of it. -/
theorem literal_write (value : Int) : Literal (write value) value := by
  have hvalue : Nat.ofDigitChars 10 (Nat.toDigits 10 value.natAbs) 0 = value.natAbs :=
    Nat.ofDigitChars_toDigits (by decide) (by decide)
  unfold write
  by_cases hneg : value < 0
  · have hzero : Nat.toDigits 10 value.natAbs ≠ ['0'] := by
      intro hzero
      rw [hzero] at hvalue
      have hnone : Nat.ofDigitChars 10 ['0'] 0 = 0 := rfl
      omega
    have hliteral := Literal.minus (digits_toDigits value.natAbs) hzero
    rw [hvalue] at hliteral
    rw [if_pos hneg]
    have habs : -(value.natAbs : Int) = value := by omega
    rwa [habs] at hliteral
  · have hliteral := Literal.plain (digits_toDigits value.natAbs)
    rw [hvalue] at hliteral
    rw [if_neg hneg]
    have habs : (value.natAbs : Int) = value := by omega
    rwa [habs] at hliteral

theorem printable_write (value : Int) : ∀ c ∈ write value, Printable c :=
  (literal_write value).forall_mem (by decide) fun _ hc => printable_of_isDigit hc

end Decimal

/-- The written words of an instruction. -/
def Instruction.written (instruction : Instruction) : List Char × List Char :=
  (Decimal.write instruction.code.toInt, Decimal.write instruction.argument.toInt)

theorem Instruction.writtenAs_written (instruction : Instruction) :
    instruction.WrittenAs instruction.written :=
  ⟨Decimal.literal_write _, Decimal.literal_write _⟩

theorem flatten_intercalate (separator : List Char) (items : List (List (List Char))) :
    ([separator].intercalate items).flatten = separator.intercalate (items.map List.flatten) := by
  induction items with
  | nil => rfl
  | cons item items ih =>
    cases items with
    | nil => simp
    | cons following rest =>
      rw [List.intercalate_cons_cons, List.map_cons, List.map_cons, List.intercalate_cons_cons,
        List.flatten_append, List.flatten_append, ih]
      simp

theorem listingEntry_eq (instruction : Instruction) :
    (entryTokens instruction.written).flatten = Program.listingEntry instruction := by
  simp [entryTokens, Instruction.written, Program.listingEntry]

namespace Program

/-- The tokens of the listing, one after the other, are the listing. -/
theorem flatten_listingTokens (program : Program) :
    (listingTokens (program.toList.map Instruction.written)).flatten = program.listing := by
  have hentries : ((program.toList.map Instruction.written).map entryTokens).map List.flatten =
      program.toList.map listingEntry := by
    rw [List.map_map, List.map_map]
    apply List.map_congr_left
    intro instruction _
    exact listingEntry_eq instruction
  unfold listingTokens listing
  rw [List.flatten_cons, List.flatten_append, flatten_intercalate, hentries]
  rfl

theorem writtenAs_toList (program : Program) : List.Forall₂ Instruction.WrittenAs
    (program.toList.map Instruction.written) program.toList := by
  rw [List.forall₂_map_left_iff]
  exact List.forall₂_same.mpr fun instruction _ => instruction.writtenAs_written

/-- The listing lists the program, and so it does with blanks after it. -/
theorem lists_listing (program : Program) {blanks : List Char} (h : Blanks blanks) :
    Lists (program.listing ++ blanks) program := by
  refine ⟨_, program.writtenAs_toList, ?_⟩
  rw [← flatten_listingTokens]
  exact Spaced.flatten _ h

/-- Listings are made of written integers, brackets and commas. -/
theorem forall_mem_listing {P : Char → Prop} (hopen : P '[') (hcomma : P ',') (hclose : P ']')
    (hwrite : ∀ value, ∀ c ∈ Decimal.write value, P c) (program : Program) :
    ∀ c ∈ program.listing, P c := by
  have hentry : ∀ instruction : Instruction, ∀ c ∈ listingEntry instruction, P c := by
    intro instruction c hc
    simp only [listingEntry, List.cons_append, List.mem_cons, List.mem_append, List.not_mem_nil,
      or_false] at hc
    rcases hc with rfl | (hc | rfl | hc) | rfl
    · exact hopen
    · exact hwrite _ c hc
    · exact hcomma
    · exact hwrite _ c hc
    · exact hclose
  have hentries : ∀ instructions : List Instruction,
      ∀ c ∈ [','].intercalate (instructions.map listingEntry), P c := by
    intro instructions
    induction instructions with
    | nil => simp
    | cons instruction rest ih =>
      cases rest with
      | nil =>
        intro c hc
        exact hentry instruction c (by simpa using hc)
      | cons following rest =>
        intro c hc
        rw [List.map_cons, List.map_cons, List.intercalate_cons_cons] at hc
        simp only [List.mem_append, List.mem_singleton] at hc
        rcases hc with (hc | rfl) | hc
        · exact hentry instruction c hc
        · exact hcomma
        · exact ih c hc
  intro c hc
  simp only [listing, List.cons_append, List.mem_cons, List.mem_append, List.not_mem_nil,
    or_false] at hc
  rcases hc with rfl | hc | rfl
  · exact hopen
  · exact hentries _ c hc
  · exact hclose

theorem printable_listing (program : Program) : ∀ c ∈ program.listing, Printable c :=
  program.forall_mem_listing (by decide) (by decide) (by decide) Decimal.printable_write

/-- The listing as a line of a file. -/
def line (program : Program) : List UInt8 := Utf8.encode program.listingText ++ [Stdout.lineBreak]

theorem encode_listingText (program : Program) :
    Utf8.encode program.listingText = Utf8.asciiBytes program.listing :=
  Utf8.encode_ascii fun c hc => by
    have hlt := (program.printable_listing c hc).2
    omega

/-- The line holds one line break, at its end. -/
theorem lineBreak_not_mem_encode (program : Program) :
    Stdout.lineBreak ∉ Utf8.encode program.listingText := by
  intro hmem
  rw [encode_listingText] at hmem
  obtain ⟨c, hc, hbyte⟩ := List.mem_map.mp hmem
  have hprintable := program.printable_listing c hc
  have hvalue := congrArg UInt8.toNat hbyte
  have hbreak : Stdout.lineBreak.toNat = 10 := rfl
  rw [Utf8.toNat_ofNat_ascii (lt_trans hprintable.2 (by decide)), hbreak] at hvalue
  have hleast := hprintable.1
  omega

theorem line_eq (program : Program) :
    program.line = Utf8.asciiBytes (program.listing ++ ['\n']) := by
  unfold line
  rw [encode_listingText]
  unfold Utf8.asciiBytes
  rw [List.map_append]
  rfl

end Program

/-- A file that holds the line is loaded as the program. -/
theorem Session.loadProgram_line {world : World} {options : Options} {path : String}
    {program : Program} (hinstructions : options.instructions = true)
    (hread : world.read path = .ok program.line) :
    loadProgram world options path = .ok program := by
  -- the line break after the listing is a blank
  have hblanks : Blanks ['\n'] := blanks_singleton (by decide)
  have hlists := program.lists_listing hblanks
  have hascii := Program.ascii_of_lists hlists
  refine (loadProgram_eq_ok_iff hinstructions).mpr ⟨program.line, hread, ?_, ?_⟩
  · rw [Program.line_eq]
    exact fun byte hbyte => Utf8.lt_of_mem_asciiBytes hascii hbyte
  · rw [Program.line_eq, Utf8.asciiText_asciiBytes hascii]
    exact hlists

end TapeMachine
