import TapeMachine.Proofs.Bytecode.Validation

/-!
# TapeMachine.Proofs.Bytecode.Defects — which defect of a document is reported

A document that is no program may have many defects.  The shape of every entry counts before the
size of any number; among defects of shape, and among those of size, the first entry counts, and
within it the first check that fails.  `Judged` and `Ranged` say so without the two passes, one case
for each way in which reading can end, and the readers follow them (`defects_ranked`).
-/

namespace TapeMachine

/-! ### Shape -/

/-- What is wrong with the shape of an entry, by the first check that fails. -/
inductive Misshapen : Json → Malformation → Prop
  | notAnArray {entry : Json} (h : ∀ items, entry ≠ .array items) :
      Misshapen entry .entryNotAnArray
  | notAPair {items : List Json} (h : items.length ≠ 2) : Misshapen (.array items) .entryNotAPair
  | code {code argument : Json} (h : ∀ integer, ¬ code.IsInt64 integer) :
      Misshapen (.array [code, argument]) (.notAnInteger .code)
  | argument {code argument : Json} {first : Int} (hcode : code.IsInt64 first)
      (h : ∀ integer, ¬ argument.IsInt64 integer) :
      Misshapen (.array [code, argument]) (.notAnInteger .argument)

/-! ### Size -/

/-- Whether 32 bits hold the integer. -/
def FitsWord (value : Int) : Prop := -2147483648 ≤ value ∧ value ≤ 2147483647

/-- Whether 32 bits hold each of the two integers. -/
def InRange (pair : Int × Int) : Prop := FitsWord pair.1 ∧ FitsWord pair.2

/-- What is wrong with the size of a pair, the code before the argument. -/
inductive Oversized : Int × Int → Malformation → Prop
  | code {code argument : Int} (h : ¬ FitsWord code) :
      Oversized (code, argument) (.outOfRange .code code)
  | argument {code argument : Int} (hcode : FitsWord code) (h : ¬ FitsWord argument) :
      Oversized (code, argument) (.outOfRange .argument argument)

/-! ### Verdicts -/

/-- What is made of pairs of integers: the program of these pairs in order, or the fault of the
first pair that is out of range. -/
inductive Ranged : List (Int × Int) → Except Fault Program → Prop
  | accepted (program : Program) : Ranged (program.toList.map Instruction.words) (.ok program)
  | refused {before after : List (Int × Int)} {pair : Int × Int} {reason : Malformation}
      (hbefore : ∀ earlier ∈ before, InRange earlier) (h : Oversized pair reason) :
      Ranged (before ++ pair :: after) (.error (.invalidProgram before.length reason))

/-- What is made of a document.  Entries before the first misshapen one need not be in range. -/
inductive Judged : Json → Except Fault Program → Prop
  | notAnArray {value : Json} (h : ∀ entries, value ≠ .array entries) :
      Judged value (.error (.invalidProgram 0 .notAnArray))
  | misshapen {before after : List Json} {entry : Json} {reason : Malformation}
      (hbefore : ∀ earlier ∈ before, ∃ pair, Shaped earlier pair) (h : Misshapen entry reason) :
      Judged (.array (before ++ entry :: after)) (.error (.invalidProgram before.length reason))
  | shaped {entries : List Json} {pairs : List (Int × Int)} {result : Except Fault Program}
      (hentries : List.Forall₂ Shaped entries pairs) (h : Ranged pairs result) :
      Judged (.array entries) result

namespace Program

variable {index : Nat} {fault : Fault}

/-! ### The checks of an entry -/

theorem int64?_eq_none_iff {value : Json} :
    int64? value = none ↔ ∀ integer, ¬ value.IsInt64 integer := by
  simp only [← int64?_eq_some_iff, Option.eq_none_iff_forall_ne_some, ne_eq]

theorem pairOf_of_misshapen {entry : Json} {reason : Malformation} (h : Misshapen entry reason) :
    pairOf entry = .error reason := by
  cases h with
  | notAnArray h =>
    cases entry with
    | array items => exact absurd rfl (h items)
    | _ => rfl
  | @notAPair items h =>
    rcases items with _ | ⟨_, _ | ⟨_, _ | _⟩⟩
    · rfl
    · rfl
    · exact absurd rfl h
    · rfl
  | @code code argument h =>
    simp only [pairOf, int64?_eq_none_iff.mpr h]
  | @argument code argument first hcode h =>
    simp only [pairOf, int64?_eq_some_iff.mpr hcode, int64?_eq_none_iff.mpr h]

/-- Every entry passes the checks or fails one. -/
theorem shaped_or_misshapen (entry : Json) :
    (∃ pair, Shaped entry pair) ∨ ∃ reason, Misshapen entry reason := by
  by_cases harray : ∃ items, entry = .array items
  · obtain ⟨items, rfl⟩ := harray
    by_cases hlength : items.length = 2
    · obtain ⟨code, argument, rfl⟩ := List.length_eq_two.mp hlength
      by_cases hcode : ∃ integer, code.IsInt64 integer
      · obtain ⟨first, hcode⟩ := hcode
        by_cases hargument : ∃ integer, argument.IsInt64 integer
        · obtain ⟨second, hargument⟩ := hargument
          exact .inl ⟨_, .pair hcode hargument⟩
        · exact .inr ⟨_, .argument hcode (not_exists.mp hargument)⟩
      · exact .inr ⟨_, .code (not_exists.mp hcode)⟩
    · exact .inr ⟨_, .notAPair hlength⟩
  · exact .inr ⟨_, .notAnArray (not_exists.mp harray)⟩

theorem pairOf_eq_error_iff {entry : Json} {reason : Malformation} :
    pairOf entry = .error reason ↔ Misshapen entry reason := by
  refine ⟨fun h => ?_, pairOf_of_misshapen⟩
  rcases shaped_or_misshapen entry with ⟨pair, hshaped⟩ | ⟨reason', hmisshapen⟩
  · rw [pairOf_eq_ok_iff.mpr hshaped] at h
    cases h
  · rw [pairOf_of_misshapen hmisshapen] at h
    cases h
    exact hmisshapen

/-! ### The words of a pair -/

theorem fitsWord_iff {value : Int} : FitsWord value ↔ ∃ word : Int32, value = word.toInt := by
  constructor
  · rintro ⟨hleast, hgreatest⟩
    exact ⟨.ofInt value, (Int32.toInt_ofInt_of_le hleast (Int.lt_add_one_of_le hgreatest)).symm⟩
  · rintro ⟨word, rfl⟩
    exact ⟨word.le_toInt, Int.le_of_lt_add_one word.toInt_lt⟩

theorem narrow_eq_error_iff {field : InstructionField} {value : Int} :
    narrow index field value = .error fault ↔
      ¬ FitsWord value ∧ fault = .invalidProgram index (.outOfRange field value) := by
  constructor
  · intro h
    unfold narrow at h
    split at h
    · cases h
    · next hnone =>
      cases h
      refine ⟨fun hfits => ?_, rfl⟩
      obtain ⟨word, rfl⟩ := fitsWord_iff.mp hfits
      rw [int32OfInt?_eq_some_iff.mpr rfl] at hnone
      cases hnone
  · rintro ⟨hlarge, rfl⟩
    cases h : narrow index field value with
    | ok word => exact absurd (fitsWord_iff.mpr ⟨word, narrow_eq_ok_iff.mp h⟩) hlarge
    | error other =>
      unfold narrow at h
      split at h
      · cases h
      · cases h
        rfl

theorem inRange_iff {pair : Int × Int} :
    InRange pair ↔ ∃ instruction : Instruction, pair = instruction.words := by
  unfold InRange
  rw [fitsWord_iff, fitsWord_iff]
  constructor
  · rintro ⟨⟨code, hcode⟩, argument, hargument⟩
    exact ⟨⟨code, argument⟩, Prod.ext hcode hargument⟩
  · rintro ⟨instruction, rfl⟩
    exact ⟨⟨_, rfl⟩, _, rfl⟩

theorem ofPair_eq_error_iff {pair : Int × Int} :
    ofPair index pair = .error fault ↔
      ∃ reason, Oversized pair reason ∧ fault = .invalidProgram index reason := by
  obtain ⟨code, argument⟩ := pair
  unfold ofPair
  rw [bind_eq_error_iff, narrow_eq_error_iff]
  constructor
  · rintro (⟨hcode, rfl⟩ | ⟨word, hword, h⟩)
    · exact ⟨_, .code hcode, rfl⟩
    · rcases bind_eq_error_iff.mp h with h | ⟨_, -, h⟩
      · obtain ⟨hargument, rfl⟩ := narrow_eq_error_iff.mp h
        exact ⟨_, .argument (fitsWord_iff.mpr ⟨word, narrow_eq_ok_iff.mp hword⟩) hargument, rfl⟩
      · cases h
  · rintro ⟨reason, hcode | ⟨hcode, hargument⟩, rfl⟩
    · exact .inl ⟨hcode, rfl⟩
    · obtain ⟨word, hword⟩ := fitsWord_iff.mp hcode
      exact .inr ⟨word, narrow_eq_ok_iff.mpr hword,
        bind_eq_error_iff.mpr (.inl (narrow_eq_error_iff.mpr ⟨hargument, rfl⟩))⟩

/-! ### The two passes -/

theorem ofPairs_eq_error_iff {pairs : List (Int × Int)} :
    ofPairs pairs = .error fault ↔ Ranged pairs (.error fault) := by
  rw [ofPairs_eq, bind_eq_error_iff, mapM_zipIdx_eq_error_iff
    (R := fun pair instruction => pair = instruction.words) fun _ _ => ofPair_eq_ok_iff]
  simp only [← inRange_iff, ofPair_eq_error_iff]
  constructor
  · rintro (⟨before, pair, after, rfl, hbefore, reason, h, rfl⟩ | ⟨_, -, h⟩)
    · exact .refused hbefore h
    · cases h
  · intro h
    cases h with
    | refused hbefore h => exact .inl ⟨_, _, _, rfl, hbefore, _, h, rfl⟩

theorem ofPairs_eq_iff {pairs : List (Int × Int)} {result : Except Fault Program} :
    ofPairs pairs = result ↔ Ranged pairs result := by
  cases result with
  | error fault => exact ofPairs_eq_error_iff
  | ok program =>
    rw [ofPairs_eq_ok_iff]
    constructor
    · rintro rfl
      exact .accepted program
    · rintro ⟨⟩
      rfl

theorem shapes_eq_error_iff {entries : List Json} :
    entries.zipIdx.mapM (fun item => (pairOf item.1).mapError (Fault.invalidProgram item.2)) =
      .error fault ↔ ∃ before entry after, entries = before ++ entry :: after ∧
        (∀ earlier ∈ before, ∃ pair, Shaped earlier pair) ∧
          ∃ reason, Misshapen entry reason ∧ fault = .invalidProgram before.length reason := by
  rw [mapM_zipIdx_eq_error_iff fun _ _ => mapError_eq_ok_iff.trans pairOf_eq_ok_iff]
  simp only [mapError_eq_error_iff, pairOf_eq_error_iff]

theorem ofJson_eq_iff {value : Json} {result : Except Fault Program} :
    ofJson value = result ↔ Judged value result := by
  constructor
  · rintro rfl
    cases value with
    | array entries =>
      rw [ofJson_array]
      cases hpairs : entries.zipIdx.mapM fun item =>
          (pairOf item.1).mapError (Fault.invalidProgram item.2) with
      | error fault =>
        obtain ⟨before, entry, after, rfl, hbefore, reason, h, rfl⟩ := shapes_eq_error_iff.mp hpairs
        exact .misshapen hbefore h
      | ok pairs => exact .shaped (shapes_eq_ok_iff.mp hpairs) (ofPairs_eq_iff.mp rfl)
    | _ => exact .notAnArray nofun
  · intro h
    cases h with
    | @notAnArray value h =>
      cases value with
      | array entries => exact absurd rfl (h entries)
      | _ => rfl
    | misshapen hbefore h =>
      rw [ofJson_array, shapes_eq_error_iff.mpr ⟨_, _, _, rfl, hbefore, _, h, rfl⟩]
      rfl
    | shaped hentries h =>
      rw [ofJson_array, shapes_eq_ok_iff.mpr hentries]
      exact ofPairs_eq_iff.mpr h

theorem exists_of_ofJson_eq_error {value : Json} (h : ofJson value = .error fault) :
    ∃ index reason, fault = .invalidProgram index reason := by
  cases ofJson_eq_iff.mp h with
  | notAnArray => exact ⟨_, _, rfl⟩
  | misshapen => exact ⟨_, _, rfl⟩
  | shaped hentries hranged =>
    cases hranged with
    | refused => exact ⟨_, _, rfl⟩

/-- Of all that is wrong with pairs of integers or with a document, what is reported is what
`Ranged` and `Judged` name; where nothing is wrong, the program of the entries in order is made. -/
theorem defects_ranked :
    (∀ pairs result, ofPairs pairs = result ↔ Ranged pairs result) ∧
      ∀ value result, ofJson value = result ↔ Judged value result :=
  ⟨fun _ _ => ofPairs_eq_iff, fun _ _ => ofJson_eq_iff⟩

/-- The size of the first entry is not looked at before the shape of the second. -/
example : ofJson (.array [.array [.integer (2 ^ 40), .integer 0], .null]) =
    .error (.invalidProgram 1 .entryNotAnArray) := rfl

end Program

end TapeMachine
