import Mathlib.Data.List.TakeWhile
import TapeMachine.Json.Number
import TapeMachine.Text.Decimal

/-!
# TapeMachine.Proofs.Json.Literal — the numbers that are integers

`Literal text value` is the grammar of plain integers: digits without a leading zero, after a minus
sign if they are not zero.  The text of a number is an integer if it is such a literal and 64 bits
hold the value, and then it is the value of the literal (`literal_of_ofNumber?`,
`ofNumber?_literal`); everything else, `-0` among it, is a real or no number.
-/

namespace TapeMachine

/-- Digits of which the first is no zero, or a zero alone. -/
structure Digits (digits : List Char) : Prop where
  nonempty : digits ≠ []
  isDigit : ∀ c ∈ digits, c.isDigit = true
  noLeadingZero : digits.head? = some '0' → digits = ['0']

/-- The texts of plain integers, and their values. -/
inductive Literal : List Char → Int → Prop
  | plain {digits : List Char} (h : Digits digits) : Literal digits (Nat.ofDigitChars 10 digits 0)
  | minus {digits : List Char} (h : Digits digits) (hzero : digits ≠ ['0']) :
      Literal ('-' :: digits) (-(Nat.ofDigitChars 10 digits 0))

theorem le_ofDigitChars (digits : List Char) (value : Nat) :
    value ≤ Nat.ofDigitChars 10 digits value := by
  induction digits generalizing value with
  | nil => exact le_refl value
  | cons digit rest ih =>
    rw [Nat.ofDigitChars_cons]
    exact le_trans (by omega) (ih _)

namespace Digits

variable {digits : List Char}

theorem head?_ne_minus (h : Digits digits) : digits.head? ≠ some '-' := by
  intro hminus
  obtain ⟨rest, rfl⟩ := List.head?_eq_some_iff.mp hminus
  exact absurd (h.isDigit '-' List.mem_cons_self) (by decide)

theorem ofDigitChars_pos (h : Digits digits) (hzero : digits ≠ ['0']) :
    0 < Nat.ofDigitChars 10 digits 0 := by
  cases digits with
  | nil => exact absurd rfl h.nonempty
  | cons digit rest =>
    have hdigit := h.isDigit digit List.mem_cons_self
    have hne : digit ≠ '0' := by
      rintro rfl
      exact hzero (h.noLeadingZero rfl)
    have hpos : 0 < digit.toNat - '0'.toNat := by
      have hleast : '0'.toNat ≤ digit.toNat := (Decimal.bounds_of_isDigit hdigit).1
      have hne : digit.toNat ≠ '0'.toNat := fun heq => hne (Char.toNat_inj.mp heq)
      omega
    rw [Nat.ofDigitChars_cons]
    exact lt_of_lt_of_le (by omega) (le_ofDigitChars rest _)

end Digits

/-- A literal is a digit or a minus sign, and digits. -/
theorem Literal.eq_cons {text : List Char} {value : Int} (h : Literal text value) :
    ∃ c rest, text = c :: rest ∧ (c = '-' ∨ c.isDigit = true) ∧ ∀ d ∈ rest, d.isDigit = true := by
  cases h with
  | plain hdigits =>
    obtain ⟨c, rest, rfl⟩ := List.exists_cons_of_ne_nil hdigits.nonempty
    exact ⟨c, rest, rfl, .inr (hdigits.isDigit c List.mem_cons_self),
      fun d hd => hdigits.isDigit d (List.mem_cons_of_mem _ hd)⟩
  | minus hdigits => exact ⟨'-', _, rfl, .inl rfl, hdigits.isDigit⟩

/-- What holds of the minus sign and of digits holds of the characters of a literal. -/
theorem Literal.forall_mem {P : Char → Prop} {text : List Char} {value : Int}
    (h : Literal text value) (hminus : P '-') (hdigit : ∀ c, c.isDigit = true → P c) :
    ∀ c ∈ text, P c := by
  obtain ⟨c, rest, rfl, hfirst, hrest⟩ := h.eq_cons
  refine List.forall_mem_cons.mpr ⟨?_, fun d hd => hdigit d (hrest d hd)⟩
  rcases hfirst with rfl | hc
  · exact hminus
  · exact hdigit c hc

/-- A zero with a minus sign is no literal. -/
theorem not_literal_minus_zero (value : Int) : ¬ Literal ['-', '0'] value := by
  intro h
  cases h with
  | plain hdigits => exact hdigits.head?_ne_minus rfl
  | minus _ hzero => exact hzero rfl

/-- Literals have no character above U+007F. -/
theorem Literal.ascii {text : List Char} {value : Int} (h : Literal text value) :
    ∀ c ∈ text, c.toNat < 0x80 :=
  h.forall_mem (by decide) fun c hc => lt_of_le_of_lt (Decimal.bounds_of_isDigit hc).2 (by decide)

namespace Numeral

theorem isWhole_iff {digits : List Char} :
    isWhole digits = true ↔ digits ≠ [] ∧ (digits.head? = some '0' → digits = ['0']) := by
  unfold isWhole
  split
  · simp
  · simp
  · next digit rest hzero =>
    simp only [decide_eq_true_eq, List.head?_cons, Option.some.injEq]
    constructor
    · exact fun hne => ⟨List.cons_ne_nil _ _, fun heq => absurd heq hne⟩
    · rintro ⟨-, hone⟩ rfl
      obtain ⟨-, rfl⟩ := List.cons.inj (hone rfl)
      exact hzero rfl rfl

theorem splitDigits_of_all {digits : List Char} (h : ∀ c ∈ digits, c.isDigit = true) :
    splitDigits digits = (digits, []) := by
  have htake : digits.takeWhile Char.isDigit = digits := List.takeWhile_eq_self_iff.mpr h
  have hdrop : digits.dropWhile Char.isDigit = [] := List.dropWhile_eq_nil_iff.mpr h
  rw [splitDigits, htake, hdrop]

/-- Digits that nothing follows are the whole text. -/
theorem digits_of_splitDigits {text whole : List Char} (h : splitDigits text = (whole, []))
    (hwhole : isWhole whole = true) : text = whole ∧ Digits whole := by
  obtain ⟨htake, hdrop⟩ := Prod.mk.inj h
  have hall := List.dropWhile_eq_nil_iff.mp hdrop
  obtain rfl : text = whole := by
    rw [← htake]
    exact (List.takeWhile_eq_self_iff.mpr hall).symm
  obtain ⟨hne, hzero⟩ := isWhole_iff.mp hwhole
  exact ⟨rfl, hne, hall, hzero⟩

theorem splitFraction?_none {text rest : List Char} (h : splitFraction? text = some (none, rest)) :
    rest = text := by
  unfold splitFraction? at h
  split at h
  · dsimp only at h
    split at h <;> simp at h
  · simp only [Option.some.injEq, Prod.mk.injEq, true_and] at h
    exact h.symm

theorem exponentOf?_none {text : List Char} (h : exponentOf? text = some none) : text = [] := by
  unfold exponentOf? at h
  split at h
  · rfl
  · dsimp only at h
    split at h <;> simp at h

/-- The parts of a number without its sign. -/
def unsigned? (negative : Bool) (text : List Char) : Option Numeral := do
  let (whole, text) := splitDigits text
  guard (isWhole whole)
  let (fraction, text) ← splitFraction? text
  let exponent ← exponentOf? text
  return { negative, whole, fraction, exponent }

/-- Whether a text starts with a minus sign, and what follows it. -/
def splitMinus (text : List Char) : Bool × List Char :=
  match text with
  | '-' :: rest => (true, rest)
  | _ => (false, text)

theorem ofChars?_eq (text : List Char) :
    ofChars? text = unsigned? (splitMinus text).1 (splitMinus text).2 := rfl

theorem ofChars?_minus (text : List Char) : ofChars? ('-' :: text) = unsigned? true text := rfl

theorem ofChars?_plain {text : List Char} (h : text.head? ≠ some '-') :
    ofChars? text = unsigned? false text := by
  have hsplit : splitMinus text = (false, text) := by
    unfold splitMinus
    split
    · exact absurd rfl h
    · rfl
  rw [ofChars?_eq, hsplit]

theorem unsigned?_digits {digits : List Char} (h : Digits digits) (negative : Bool) :
    unsigned? negative digits = some ⟨negative, digits, none, none⟩ := by
  have hwhole : isWhole digits = true := isWhole_iff.mpr ⟨h.nonempty, h.noLeadingZero⟩
  have hguard : (guard (isWhole digits = true) : Option Unit) = some () := if_pos hwhole
  have hfraction : splitFraction? [] = some (none, []) := rfl
  rw [unsigned?, splitDigits_of_all h.isDigit]
  dsimp only
  rw [hguard, hfraction]
  rfl

theorem digits_of_unsigned? {negative : Bool} {text : List Char} {numeral : Numeral}
    (h : unsigned? negative text = some numeral) (hfraction : numeral.fraction = none)
    (hexponent : numeral.exponent = none) :
    numeral.negative = negative ∧ text = numeral.whole ∧ Digits text := by
  unfold unsigned? at h
  rcases hsplit : splitDigits text with ⟨whole, rest⟩
  rw [hsplit] at h
  obtain ⟨_, hguard, h⟩ := Option.bind_eq_some_iff.mp h
  obtain ⟨⟨fraction, rest'⟩, hrest, h⟩ := Option.bind_eq_some_iff.mp h
  obtain ⟨exponent, hend, hnumeral⟩ := Option.bind_eq_some_iff.mp h
  cases hnumeral
  obtain rfl : fraction = none := hfraction
  obtain rfl : exponent = none := hexponent
  obtain rfl := splitFraction?_none hrest
  obtain rfl := exponentOf?_none hend
  have hwhole : isWhole whole = true := by
    by_contra hne
    have hnone : (guard (isWhole whole = true) : Option Unit) = none := if_neg hne
    rw [hnone] at hguard
    cases hguard
  obtain ⟨rfl, hdigits⟩ := digits_of_splitDigits hsplit hwhole
  exact ⟨rfl, rfl, hdigits⟩

end Numeral

/-! ### Literals -/

namespace Json

/-- Whether 64 bits hold an integer, signed or unsigned. -/
def FitsWord64 (value : Int) : Prop := Int64.minValue.toInt ≤ value ∧ value < UInt64.size

theorem fitsWord64_toInt (word : Int32) : FitsWord64 word.toInt := by
  have hmin : Int64.minValue.toInt = -2 ^ 63 := rfl
  have hmax : (UInt64.size : Int) = 2 ^ 64 := rfl
  have hleast := word.le_toInt
  have hgreatest := word.toInt_lt
  exact ⟨by omega, by omega⟩

theorem eq_integer_of_ofNumber? {text : List Char} {value : Int}
    (h : ofNumber? text = some (.integer value)) :
    ∃ numeral, Numeral.ofChars? text = some numeral ∧ numeral.integer? = some value := by
  unfold ofNumber? at h
  obtain ⟨numeral, hnumeral, h⟩ := Option.bind_eq_some_iff.mp h
  refine ⟨numeral, hnumeral, ?_⟩
  cases hinteger : numeral.integer? with
  | some found =>
    rw [hinteger] at h
    cases h
    rfl
  | none =>
    rw [hinteger] at h
    dsimp only at h
    split at h <;> cases h

/-- The text of a number that is an integer is the literal of the integer, and 64 bits hold it. -/
theorem literal_of_ofNumber? {text : List Char} {value : Int}
    (h : ofNumber? text = some (.integer value)) : Literal text value ∧ FitsWord64 value := by
  obtain ⟨numeral, hnumeral, hinteger⟩ := eq_integer_of_ofNumber? h
  unfold Numeral.integer? at hinteger
  split at hinteger
  · cases hinteger
  next hplain =>
  simp only [not_or, Option.not_isSome_iff_eq_none] at hplain
  obtain ⟨hfraction, hexponent⟩ := hplain
  by_cases hsign : text.head? = some '-'
  · obtain ⟨digits, rfl⟩ := List.head?_eq_some_iff.mp hsign
    rw [Numeral.ofChars?_minus] at hnumeral
    obtain ⟨hnegative, hwhole, hdigits⟩ :=
      Numeral.digits_of_unsigned? hnumeral hfraction hexponent
    simp only [hnegative, ← hwhole, if_true, Numeral.valueOf] at hinteger
    split at hinteger
    · next hbounds =>
      cases hinteger
      refine ⟨.minus hdigits ?_, hbounds.2, ?_⟩
      · rintro rfl
        exact absurd hbounds.1 (by decide)
      · have hmax : (0 : Int) < UInt64.size := by decide
        omega
    · cases hinteger
  · rw [Numeral.ofChars?_plain hsign] at hnumeral
    obtain ⟨hnegative, hwhole, hdigits⟩ :=
      Numeral.digits_of_unsigned? hnumeral hfraction hexponent
    simp only [hnegative, ← hwhole, Bool.false_eq_true, if_false, Numeral.valueOf] at hinteger
    split at hinteger
    · next hbounds =>
      cases hinteger
      have hmin : Int64.minValue.toInt ≤ 0 := by decide
      exact ⟨.plain hdigits, by omega, Int.ofNat_lt.mpr hbounds⟩
    · cases hinteger

theorem ofNumber?_literal {text : List Char} {value : Int} (h : Literal text value)
    (hfits : FitsWord64 value) : ofNumber? text = some (.integer value) := by
  suffices ∃ numeral, Numeral.ofChars? text = some numeral ∧ numeral.integer? = some value by
    obtain ⟨numeral, hnumeral, hinteger⟩ := this
    simp [ofNumber?, hnumeral, hinteger]
  cases h with
  | plain hdigits =>
    refine ⟨_, (Numeral.ofChars?_plain hdigits.head?_ne_minus).trans
      (Numeral.unsigned?_digits hdigits false), ?_⟩
    have hgreatest : Nat.ofDigitChars 10 text 0 < UInt64.size := Int.ofNat_lt.mp hfits.2
    simp [Numeral.integer?, Numeral.valueOf, hgreatest]
  | minus hdigits hzero =>
    refine ⟨_, (Numeral.ofChars?_minus _).trans (Numeral.unsigned?_digits hdigits true), ?_⟩
    have hpos : 0 < Numeral.valueOf _ := hdigits.ofDigitChars_pos hzero
    simp only [Numeral.integer?, Option.isSome_none, Bool.false_eq_true, or_self, if_false, if_true,
      hpos, true_and]
    exact if_pos hfits.1

/-- A number is read as an integer or as a real. -/
theorem scalar_of_ofNumber? {text : List Char} {value : Json} (h : ofNumber? text = some value) :
    value = .real ∨ ∃ i, value = .integer i := by
  unfold ofNumber? at h
  obtain ⟨numeral, -, h⟩ := Option.bind_eq_some_iff.mp h
  split at h
  · cases h
    exact .inr ⟨_, rfl⟩
  · split at h
    · cases h
    · cases h
      exact .inl rfl

end Json

end TapeMachine
