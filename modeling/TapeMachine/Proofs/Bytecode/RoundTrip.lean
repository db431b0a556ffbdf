import TapeMachine.Proofs.Bytecode.Rendering

/-!
# TapeMachine.Proofs.Bytecode.RoundTrip — the listing is the one text without blanks

An integer has one literal, the form in which it is written (`Literal.eq_write`).  So all texts that
list a program have the same tokens, and differ in their blanks only: without them, each is the
listing that is written for the program (`listing_round_trip`).
-/

namespace TapeMachine

/-! ### One literal for each integer -/

theorem digitChar_of_isDigit {c : Char} (h : c.isDigit = true) :
    c.toNat - '0'.toNat < 10 ∧ (c.toNat - '0'.toNat).digitChar = c := by
  obtain ⟨hleast, hgreatest⟩ := Decimal.bounds_of_isDigit h
  have hzero : '0'.toNat = 48 := rfl
  have hlt : c.toNat - '0'.toNat < 10 := by omega
  refine ⟨hlt, Char.toNat_inj.mp ?_⟩
  rw [Nat.toNat_digitChar_of_lt_ten hlt]
  omega

/-- Digits in front of a digit are digits of a positive number. -/
theorem Digits.front {front : List Char} {c : Char} (h : Digits (front ++ [c])) (hne : front ≠ []) :
    Digits front ∧ front ≠ ['0'] := by
  have hhead : front.head? ≠ some '0' := by
    intro hzero
    have hall := h.noLeadingZero ((List.head?_append_of_ne_nil _ hne).trans hzero)
    have hlength := congrArg List.length hall
    rw [List.length_append] at hlength
    exact hne (List.length_eq_zero_iff.mp (Nat.succ.inj hlength))
  refine ⟨⟨hne, fun d hd => h.isDigit d (List.mem_append_left _ hd), fun hzero => absurd hzero hhead⟩,
    ?_⟩
  rintro rfl
  exact hhead rfl

/-- Writing the number of digits gives the digits again. -/
theorem Digits.toDigits {digits : List Char} (h : Digits digits) :
    Nat.toDigits 10 (Nat.ofDigitChars 10 digits 0) = digits := by
  induction digits using List.reverseRecOn with
  | nil => exact absurd rfl h.nonempty
  | append_singleton front c ih =>
    obtain ⟨hlt, hchar⟩ := digitChar_of_isDigit (h.isDigit c (by simp))
    have hlast : Nat.toDigits 10 (c.toNat - '0'.toNat) = [c] := by
      rw [Nat.toDigits_of_lt_base hlt, hchar]
    rw [Nat.ofDigitChars_append, Nat.ofDigitChars_cons, Nat.ofDigitChars_nil]
    by_cases hne : front = []
    · subst hne
      rw [Nat.ofDigitChars_nil, Nat.mul_zero, Nat.zero_add]
      exact hlast
    · obtain ⟨hfront, hzero⟩ := h.front hne
      have hpos := hfront.ofDigitChars_pos hzero
      rw [← Nat.toDigits_append_toDigits (by decide) hpos hlt, ih hfront, hlast]

/-- A literal is the written form of its value. -/
theorem Literal.eq_write {text : List Char} {value : Int} (h : Literal text value) :
    text = Decimal.write value := by
  unfold Decimal.write
  cases h with
  | plain hdigits =>
    rw [if_neg (by omega), Int.natAbs_natCast, hdigits.toDigits]
  | minus hdigits hzero =>
    have hpos := hdigits.ofDigitChars_pos hzero
    rw [if_pos (by omega), Int.natAbs_neg, Int.natAbs_natCast, hdigits.toDigits]

theorem Instruction.WrittenAs.eq_written {instruction : Instruction}
    {entry : List Char × List Char} (h : instruction.WrittenAs entry) :
    entry = instruction.written := Prod.ext h.1.eq_write h.2.eq_write

/-! ### One text without blanks for each program -/

namespace Program

variable {program : Program} {text : List Char}

theorem not_isBlank_of_mem_listing (program : Program) :
    ∀ c ∈ program.listing, Lexeme.isBlank c = false :=
  program.forall_mem_listing (by decide) (by decide) (by decide) fun value =>
    (Decimal.literal_write value).not_isBlank

theorem written_of_writtenAs {entries : List (List Char × List Char)}
    (h : List.Forall₂ Instruction.WrittenAs entries program.toList) :
    entries = program.toList.map Instruction.written :=
  forall₂_eq_map_iff.mp (h.imp fun _ _ hentry => hentry.eq_written)

/-- A printer has one text for the document of a program, its listing. -/
theorem isCompact_document_iff : program.document.IsCompact text ↔ text = program.listing := by
  unfold Json.IsCompact
  simp only [forall₂_spells_document]
  rw [← flatten_listingTokens]
  constructor
  · rintro ⟨_, ⟨entries, hentries, rfl⟩, rfl⟩
    rw [written_of_writtenAs hentries]
  · rintro rfl
    exact ⟨_, ⟨_, program.writtenAs_toList, rfl⟩, rfl⟩

theorem ofListing_listing (program : Program) : ofListing program.listing = .ok program := by
  have hcompact : program.document.IsCompact program.listing := isCompact_document_iff.mpr rfl
  exact ofListing_eq_ok_iff.mpr (spelledBy_document_iff.mp hcompact.spelledBy)

/-- A text that lists the program has the tokens of its listing. -/
theorem spaced_of_lists (h : Lists text program) :
    Spaced (listingTokens (program.toList.map Instruction.written)) text := by
  obtain ⟨entries, hentries, hspaced⟩ := h
  rwa [← written_of_writtenAs hentries]

theorem listing_eq_filter (h : Lists text program) :
    program.listing = text.filter fun c => !Lexeme.isBlank c := by
  rw [← flatten_listingTokens]
  refine ((spaced_of_lists h).filter fun token htoken c hc => ?_).symm
  apply program.not_isBlank_of_mem_listing
  rw [← flatten_listingTokens]
  exact List.mem_flatten_of_mem htoken hc

/-- Reading undoes writing, so no two programs are written alike; and writing what was read from a
text gives the text without its blanks. -/
theorem listing_round_trip :
    (∀ program : Program, ofListing program.listing = .ok program) ∧
      Function.Injective listing ∧
      ∀ text program, ofListing text = .ok program →
        program.listing = text.filter fun c => !Lexeme.isBlank c := by
  refine ⟨ofListing_listing, fun p q h => ?_, fun text program h => ?_⟩
  · have hread := ofListing_listing p
    rw [h, ofListing_listing q] at hread
    exact (Except.ok.inj hread).symm
  · exact listing_eq_filter (ofListing_eq_ok_iff.mp h)

/-- Two instructions in a text with blanks, of which one has the least word and one no meaning. -/
theorem listing_round_trip_blanks :
    let text := "[ [2,\t-2147483648]\n, [-7, 0 ]]".toList
    let program := ofList [⟨2, -2147483648⟩, ⟨-7, 0⟩]
    ofListing text = .ok program ∧ program.listing = "[[2,-2147483648],[-7,0]]".toList := by
  intro text program
  have hread : ofListing text = .ok program := by rfl
  refine ⟨hread, ?_⟩
  rw [listing_round_trip.2.2 text program hread]
  decide

end Program

end TapeMachine
