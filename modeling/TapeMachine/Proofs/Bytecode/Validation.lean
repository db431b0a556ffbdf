import Mathlib.Data.List.Forall2
import TapeMachine.Bytecode.Listing

/-!
# TapeMachine.Proofs.Bytecode.Validation — which documents are programs

The first pass over a document takes the entries that are pairs of 64-bit integers (`Shaped`), the
second the pairs that are words of instructions.  Together they accept the documents of programs and
no others: an array that holds one array `[code, argument]` for each instruction
(`ofJson_eq_ok_iff`).
-/

namespace TapeMachine

section Except

variable {ε α β : Type}

theorem bind_eq_ok_iff {first : Except ε α} {next : α → Except ε β} {result : β} :
    first >>= next = .ok result ↔ ∃ a, first = .ok a ∧ next a = .ok result := by
  cases first <;> simp [bind, Except.bind]

theorem bind_eq_error_iff {first : Except ε α} {next : α → Except ε β} {error : ε} :
    first >>= next = .error error ↔
      first = .error error ∨ ∃ a, first = .ok a ∧ next a = .error error := by
  cases first <;> simp [bind, Except.bind]

theorem mapError_eq_ok_iff {δ : Type} {first : Except ε α} {wrap : ε → δ} {result : α} :
    first.mapError wrap = .ok result ↔ first = .ok result := by
  cases first <;> simp [Except.mapError]

theorem mapError_eq_error_iff {δ : Type} {first : Except ε α} {wrap : ε → δ} {error : δ} :
    first.mapError wrap = .error error ↔ ∃ cause, first = .error cause ∧ error = wrap cause := by
  cases first <;> simp [Except.mapError, eq_comm]

variable {f : α → Except ε β}

theorem mapM_eq_ok_iff {items : List α} {results : List β} :
    items.mapM f = .ok results ↔ List.Forall₂ (fun a b => f a = .ok b) items results := by
  induction items generalizing results with
  | nil => cases results <;> simp [pure, Except.pure]
  | cons a items ih =>
    rw [List.mapM_cons, bind_eq_ok_iff, List.forall₂_cons_left_iff]
    simp only [bind_eq_ok_iff, ih]
    constructor
    · rintro ⟨b, hb, rest, hrest, hresults⟩
      cases hresults
      exact ⟨b, rest, hb, hrest, rfl⟩
    · rintro ⟨b, rest, hb, hrest, rfl⟩
      exact ⟨b, hb, rest, hrest, rfl⟩

/-- The first error is the error of all. -/
theorem mapM_of_first_error {before after : List α} {a : α} {error : ε}
    (hbefore : ∀ b ∈ before, ∃ result, f b = .ok result) (h : f a = .error error) :
    (before ++ a :: after).mapM f = .error error := by
  induction before with
  | nil =>
    rw [List.nil_append, List.mapM_cons, h]
    rfl
  | cons b before ih =>
    obtain ⟨⟨result, hresult⟩, hrest⟩ := List.forall_mem_cons.mp hbefore
    rw [List.cons_append, List.mapM_cons, hresult]
    show ((before ++ a :: after).mapM f >>= _) = _
    rw [ih hrest]
    rfl

theorem mapM_eq_error_iff {items : List α} {error : ε} :
    items.mapM f = .error error ↔ ∃ before a after, items = before ++ a :: after ∧
      (∀ b ∈ before, ∃ result, f b = .ok result) ∧ f a = .error error := by
  constructor
  · intro h
    induction items with
    | nil => cases h
    | cons a items ih =>
      rw [List.mapM_cons, bind_eq_error_iff] at h
      rcases h with h | ⟨b, hb, h⟩
      · exact ⟨[], a, items, rfl, by simp, h⟩
      · rcases bind_eq_error_iff.mp h with h | ⟨rest, -, h⟩
        · obtain ⟨before, c, after, rfl, hbefore, hc⟩ := ih h
          exact ⟨a :: before, c, after, rfl, List.forall_mem_cons.mpr ⟨⟨b, hb⟩, hbefore⟩, hc⟩
        · cases h
  · rintro ⟨before, a, after, rfl, hbefore, h⟩
    exact mapM_of_first_error hbefore h

/-- Where the number of an item decides errors only, results are those of the items. -/
theorem mapM_zipIdx_eq_ok_iff {f : α × Nat → Except ε β} {R : α → β → Prop}
    (h : ∀ item b, f item = .ok b ↔ R item.1 b) {items : List α} {results : List β} :
    items.zipIdx.mapM f = .ok results ↔ List.Forall₂ R items results := by
  have hitems : items.zipIdx.map Prod.fst = items := List.zipIdx_map_fst 0 items
  have hresults : (fun (a : α × Nat) b => f a = .ok b) = fun a b => R a.1 b := by
    funext a b
    exact propext (h a b)
  rw [mapM_eq_ok_iff, hresults, ← List.forall₂_map_left_iff, hitems]

/-- And the error is the one of the first item that has no result, with its number. -/
theorem mapM_zipIdx_eq_error_iff {f : α × Nat → Except ε β} {R : α → β → Prop}
    (h : ∀ item b, f item = .ok b ↔ R item.1 b) {items : List α} {error : ε} :
    items.zipIdx.mapM f = .error error ↔ ∃ before a after, items = before ++ a :: after ∧
      (∀ b ∈ before, ∃ result, R b result) ∧ f (a, before.length) = .error error := by
  rw [mapM_eq_error_iff]
  constructor
  · rintro ⟨front, item, back, hitems, hfront, herror⟩
    obtain ⟨before, rest, rfl, rfl, hrest⟩ := List.zipIdx_eq_append_iff.mp hitems
    obtain ⟨a, after, rfl, rfl, -⟩ := List.zipIdx_eq_cons_iff.mp hrest.symm
    refine ⟨before, a, after, rfl, fun b hb => ?_, by simpa using herror⟩
    rw [← List.zipIdx_map_fst 0 before] at hb
    obtain ⟨item, hitem, rfl⟩ := List.mem_map.mp hb
    obtain ⟨result, hresult⟩ := hfront item hitem
    exact ⟨result, (h item result).mp hresult⟩
  · rintro ⟨before, a, after, rfl, hbefore, herror⟩
    refine ⟨before.zipIdx, (a, before.length), after.zipIdx (before.length + 1), ?_, ?_, herror⟩
    · simp [List.zipIdx_append]
    · rintro ⟨b, index⟩ hb
      obtain ⟨result, hresult⟩ := hbefore b (List.fst_mem_of_mem_zipIdx hb)
      exact ⟨result, (h (b, index) result).mpr hresult⟩

end Except

theorem forall₂_eq_map_iff {α β : Type} {g : β → α} {items : List α} {results : List β} :
    List.Forall₂ (fun a b => a = g b) items results ↔ items = results.map g := by
  rw [← List.forall₂_map_right_iff, List.forall₂_eq_eq_eq]

/-- The words of an instruction as integers. -/
def Instruction.words (instruction : Instruction) : Int × Int :=
  (instruction.code.toInt, instruction.argument.toInt)

/-- The entry of an instruction in a document. -/
def Instruction.entry (instruction : Instruction) : Json :=
  .array [.integer instruction.code.toInt, .integer instruction.argument.toInt]

/-- The value is a signed 64-bit integer. -/
def Json.IsInt64 (value : Json) (integer : Int) : Prop :=
  value = .integer integer ∧ -9223372036854775808 ≤ integer ∧ integer ≤ 9223372036854775807

/-- The entry is an array of these two 64-bit integers. -/
inductive Shaped : Json → Int × Int → Prop
  | pair {code argument : Json} {first second : Int} (hcode : code.IsInt64 first)
      (hargument : argument.IsInt64 second) : Shaped (.array [code, argument]) (first, second)

namespace Program

theorem int64?_eq_some_iff {value : Json} {integer : Int} :
    int64? value = some integer ↔ value.IsInt64 integer := by
  constructor
  · intro h
    unfold int64? at h
    split at h
    · split at h
      · next hbounds =>
        cases h
        exact ⟨rfl, hbounds⟩
      · cases h
    · cases h
  · rintro ⟨rfl, hbounds⟩
    exact if_pos hbounds

theorem pairOf_eq_ok_iff {entry : Json} {pair : Int × Int} :
    pairOf entry = .ok pair ↔ Shaped entry pair := by
  constructor
  · intro h
    unfold pairOf at h
    split at h
    · next code argument =>
      split at h
      · next first second hcode hargument =>
        cases h
        exact .pair (int64?_eq_some_iff.mp hcode) (int64?_eq_some_iff.mp hargument)
      · cases h
      · cases h
    · cases h
    · cases h
  · rintro ⟨hcode, hargument⟩
    simp only [pairOf, int64?_eq_some_iff.mpr hcode, int64?_eq_some_iff.mpr hargument]

theorem narrow_eq_ok_iff {index : Nat} {field : InstructionField} {value : Int} {word : Int32} :
    narrow index field value = .ok word ↔ value = word.toInt := by
  unfold narrow
  split
  · next found hfound =>
    rw [Except.ok.injEq, ← int32OfInt?_eq_some_iff.mp hfound, Int32.toInt_inj]
  · next hnone =>
    refine ⟨fun h => (by cases h), fun h => ?_⟩
    rw [int32OfInt?_eq_some_iff.mpr h.symm] at hnone
    cases hnone

/-- The instruction of one pair. -/
def ofPair (index : Nat) (pair : Int × Int) : Except Fault Instruction := do
  return ⟨← narrow index .code pair.1, ← narrow index .argument pair.2⟩

theorem ofPair_eq_ok_iff {index : Nat} {pair : Int × Int} {instruction : Instruction} :
    ofPair index pair = .ok instruction ↔ pair = instruction.words := by
  unfold ofPair
  simp only [bind_eq_ok_iff, narrow_eq_ok_iff]
  constructor
  · rintro ⟨code, hcode, argument, hargument, h⟩
    cases h
    exact Prod.ext hcode hargument
  · rintro rfl
    exact ⟨_, rfl, _, rfl, rfl⟩

theorem ofPairs_eq (pairs : List (Int × Int)) :
    ofPairs pairs = (do
      return .ofList (← pairs.zipIdx.mapM fun item => ofPair item.2 item.1)) := rfl

/-- The pairs of integers that make a program are the words of its instructions. -/
theorem ofPairs_eq_ok_iff {pairs : List (Int × Int)} {program : Program} :
    ofPairs pairs = .ok program ↔ pairs = program.toList.map Instruction.words := by
  have hpairs : ∀ instructions, pairs.zipIdx.mapM (fun item => ofPair item.2 item.1) =
      .ok instructions ↔ pairs = instructions.map Instruction.words := fun instructions =>
    (mapM_zipIdx_eq_ok_iff fun _ _ => ofPair_eq_ok_iff).trans forall₂_eq_map_iff
  rw [ofPairs_eq]
  simp only [bind_eq_ok_iff, hpairs]
  constructor
  · rintro ⟨instructions, rfl, h⟩
    cases h
    rfl
  · rintro rfl
    exact ⟨program.toList, rfl, rfl⟩

theorem ofJson_array (entries : List Json) :
    ofJson (.array entries) = (entries.zipIdx.mapM fun item =>
      (pairOf item.1).mapError (Fault.invalidProgram item.2)) >>= ofPairs := rfl

theorem shapes_eq_ok_iff {entries : List Json} {pairs : List (Int × Int)} :
    entries.zipIdx.mapM (fun item => (pairOf item.1).mapError (Fault.invalidProgram item.2)) =
      .ok pairs ↔ List.Forall₂ Shaped entries pairs :=
  mapM_zipIdx_eq_ok_iff fun _ _ => mapError_eq_ok_iff.trans pairOf_eq_ok_iff

theorem shaped_words_iff {entry : Json} {instruction : Instruction} :
    Shaped entry instruction.words ↔ entry = instruction.entry := by
  have hint64 : ∀ word : Int32, (Json.integer word.toInt).IsInt64 word.toInt := by
    intro word
    have hleast := word.le_toInt
    have hgreatest := word.toInt_lt
    exact ⟨rfl, by omega, by omega⟩
  unfold Instruction.words
  constructor
  · intro h
    cases h with
    | pair hcode hargument =>
      rw [hcode.1, hargument.1]
      rfl
  · rintro rfl
    exact .pair (hint64 _) (hint64 _)

/-- The documents that are programs hold one entry for each instruction. -/
theorem ofJson_eq_ok_iff {value : Json} {program : Program} :
    ofJson value = .ok program ↔ value = .array (program.toList.map Instruction.entry) := by
  have hentries : ∀ entries, List.Forall₂ Shaped entries (program.toList.map Instruction.words) ↔
      entries = program.toList.map Instruction.entry := by
    intro entries
    simp only [List.forall₂_map_right_iff, shaped_words_iff, forall₂_eq_map_iff]
  constructor
  · intro h
    cases value with
    | array entries =>
      obtain ⟨pairs, hpairs, h⟩ := bind_eq_ok_iff.mp h
      obtain rfl := ofPairs_eq_ok_iff.mp h
      rw [(hentries entries).mp (shapes_eq_ok_iff.mp hpairs)]
    | _ => cases h
  · rintro rfl
    exact bind_eq_ok_iff.mpr
      ⟨_, shapes_eq_ok_iff.mpr ((hentries _).mpr rfl), ofPairs_eq_ok_iff.mpr rfl⟩

end Program

end TapeMachine
