import Mathlib.Data.List.Chain
import Mathlib.Data.List.Forall2
import Mathlib.Data.List.Induction
import TapeMachine.Json.Lexeme
import TapeMachine.Proofs.Json.Literal

/-!
# TapeMachine.Proofs.Json.Scanning — a text and the spellings of its lexemes

`Spaced tokens text` says that the text is the tokens in order with blanks around each of them.
The lexemes that the scanner finds are spelled by tokens that the text is spaced out of
(`spaced_of_scan`).  For lexemes that are punctuation and integers the converse holds as well, if no
two numbers stand side by side (`scan_of_spaced`).
-/

namespace TapeMachine

/-- What each step of a fold keeps about the items so far holds of all of them in the end. -/
theorem foldlM_invariant {σ α : Type} {step : σ → α → Option σ} {P : List α → σ → Prop}
    {state : σ} {items : List α} (hinit : P [] state)
    (hstep : ∀ front s x s', x ∈ items → P front s → step s x = some s' → P (front ++ [x]) s')
    {final : σ} (h : items.foldlM step state = some final) : P items final := by
  induction items using List.reverseRecOn generalizing final with
  | nil =>
    cases h
    exact hinit
  | append_singleton items x ih =>
    rw [List.foldlM_append] at h
    obtain ⟨s, hs, h⟩ := Option.bind_eq_some_iff.mp h
    have hfront : P items s :=
      ih (fun front s y s' hmem => hstep front s y s' (List.mem_append_left _ hmem)) hs
    refine hstep items s x final (by simp) hfront ?_
    simpa using h

/-- A text of blanks. -/
def Blanks (text : List Char) : Prop := ∀ c ∈ text, Lexeme.isBlank c = true

theorem blanks_nil : Blanks [] := fun _ hc => absurd hc List.not_mem_nil

theorem blanks_singleton {c : Char} (h : Lexeme.isBlank c = true) : Blanks [c] := fun _ hd =>
  List.mem_singleton.mp hd ▸ h

/-- The text is the tokens in order, with blanks before, between and after them. -/
inductive Spaced : List (List Char) → List Char → Prop
  | nil {blanks : List Char} (h : Blanks blanks) : Spaced [] blanks
  | cons {blanks token text : List Char} {tokens : List (List Char)} (h : Blanks blanks)
      (rest : Spaced tokens text) : Spaced (token :: tokens) (blanks ++ (token ++ text))

namespace Spaced

variable {tokens tokens' : List (List Char)} {text text' blanks token : List Char}

theorem blanks_append (hblanks : Blanks blanks) (h : Spaced tokens text) :
    Spaced tokens (blanks ++ text) := by
  have hjoin : ∀ {more : List Char}, Blanks more → Blanks (blanks ++ more) := fun hmore c hc =>
    (List.mem_append.mp hc).elim (hblanks c) (hmore c)
  cases h with
  | nil hmore => exact .nil (hjoin hmore)
  | cons hmore rest =>
    rw [← List.append_assoc]
    exact .cons (hjoin hmore) rest

theorem append (h : Spaced tokens text) (h' : Spaced tokens' text') :
    Spaced (tokens ++ tokens') (text ++ text') := by
  induction h with
  | nil hblanks => exact h'.blanks_append hblanks
  | cons hblanks _ ih =>
    rw [List.append_assoc, List.append_assoc]
    exact .cons hblanks ih

theorem singleton (token : List Char) : Spaced [token] token := by
  have hspaced : Spaced [token] ([] ++ (token ++ [])) := .cons blanks_nil (.nil blanks_nil)
  simpa using hspaced

/-- Tokens one after the other, and blanks after them. -/
theorem flatten (tokens : List (List Char)) (h : Blanks blanks) :
    Spaced tokens (tokens.flatten ++ blanks) := by
  induction tokens with
  | nil => exact .nil h
  | cons token tokens ih =>
    rw [List.flatten_cons, List.append_assoc]
    exact .cons blanks_nil ih

/-- What holds of blanks and of the characters of the tokens holds of the text. -/
theorem forall_mem {P : Char → Prop} (h : Spaced tokens text)
    (hblank : ∀ c, Lexeme.isBlank c = true → P c) (htoken : ∀ token ∈ tokens, ∀ c ∈ token, P c) :
    ∀ c ∈ text, P c := by
  induction h with
  | nil hblanks => exact fun c hc => hblank c (hblanks c hc)
  | cons hblanks _ ih =>
    intro c hc
    rcases List.mem_append.mp hc with hc | hc
    · exact hblank c (hblanks c hc)
    · rcases List.mem_append.mp hc with hc | hc
      · exact htoken _ List.mem_cons_self c hc
      · exact ih (fun token htail => htoken token (List.mem_cons_of_mem _ htail)) c hc

/-- A text without its blanks is its tokens, if no token holds a blank. -/
theorem filter (h : Spaced tokens text)
    (htokens : ∀ token ∈ tokens, ∀ c ∈ token, Lexeme.isBlank c = false) :
    (text.filter fun c => !Lexeme.isBlank c) = tokens.flatten := by
  have hblanks : ∀ {blanks : List Char}, Blanks blanks →
      (blanks.filter fun c => !Lexeme.isBlank c) = [] := fun h =>
    List.filter_eq_nil_iff.mpr fun c hc => by simp [h c hc]
  induction h with
  | nil h => exact hblanks h
  | @cons blanks token text tokens h _ ih =>
    obtain ⟨htoken, hrest⟩ := List.forall_mem_cons.mp htokens
    have hkept : (token.filter fun c => !Lexeme.isBlank c) = token :=
      List.filter_eq_self.mpr fun c hc => by simp [htoken c hc]
    rw [List.filter_append, List.filter_append, hblanks h, hkept, ih hrest]
    rfl

end Spaced

/-- Literals hold no blank. -/
theorem Literal.not_isBlank {text : List Char} {value : Int} (h : Literal text value) :
    ∀ c ∈ text, Lexeme.isBlank c = false := by
  refine h.forall_mem (by decide) fun c hc => ?_
  rw [Lexeme.isBlank, decide_eq_false_iff_not]
  rintro (rfl | rfl | rfl | rfl) <;> exact absurd hc (by decide)

/-- Whether a value holds no other values. -/
def Json.isScalar : Json → Bool
  | .array _ | .object _ => false
  | _ => true

namespace Lexeme

/-- The spellings of a lexeme.  An integer is one that 64 bits hold, and is spelled by a literal of
it.  The spellings of other scalars are not told apart. -/
inductive Spells : Lexeme → List Char → Prop
  | punctuation {c : Char} {lexeme : Lexeme} (h : punctuation? c = some lexeme) : Spells lexeme [c]
  | integer {token : List Char} {value : Int} (h : Literal token value)
      (hfits : Json.FitsWord64 value) : Spells (.scalar (.integer value)) token
  | other {token : List Char} {value : Json} (hscalar : value.isScalar = true)
      (hinteger : ∀ i, value ≠ .integer i) : Spells (.scalar value) token

/-- What holds of the six characters holds of punctuation. -/
theorem of_punctuation? {P : Char → Prop} {c : Char} {lexeme : Lexeme}
    (h : punctuation? c = some lexeme)
    (hall : P '[' ∧ P ']' ∧ P '\x7b' ∧ P '\x7d' ∧ P ',' ∧ P ':') : P c := by
  unfold punctuation? at h
  grind

theorem not_scalar_of_punctuation? {c : Char} {lexeme : Lexeme} (h : punctuation? c = some lexeme) :
    ∀ value, lexeme ≠ .scalar value := by
  rintro value rfl
  unfold punctuation? at h
  grind

theorem eq_of_punctuation? {c d : Char} {lexeme : Lexeme} (hc : punctuation? c = some lexeme)
    (hd : punctuation? d = some lexeme) : c = d := by
  unfold punctuation? at hc
  split_ifs at hc with h h h h h h
  all_goals
    cases hc
    rw [h]
    unfold punctuation? at hd
    grind

theorem spells_punctuation_iff {c : Char} {lexeme : Lexeme} {token : List Char}
    (h : punctuation? c = some lexeme) : Spells lexeme token ↔ token = [c] := by
  constructor
  · intro hspells
    cases hspells with
    | punctuation h' => rw [eq_of_punctuation? h' h]
    | integer => exact absurd rfl (not_scalar_of_punctuation? h _)
    | other => exact absurd rfl (not_scalar_of_punctuation? h _)
  · rintro rfl
    exact .punctuation h

@[simp] theorem spells_arrayOpen_iff {token : List Char} :
    Spells .arrayOpen token ↔ token = ['['] := spells_punctuation_iff rfl

@[simp] theorem spells_arrayClose_iff {token : List Char} :
    Spells .arrayClose token ↔ token = [']'] := spells_punctuation_iff rfl

@[simp] theorem spells_comma_iff {token : List Char} :
    Spells .comma token ↔ token = [','] := spells_punctuation_iff rfl

theorem spells_integer_iff {token : List Char} {value : Int} :
    Spells (.scalar (.integer value)) token ↔ Literal token value ∧ Json.FitsWord64 value := by
  constructor
  · intro hspells
    cases hspells with
    | punctuation h => exact absurd rfl (not_scalar_of_punctuation? h _)
    | integer h hfits => exact ⟨h, hfits⟩
    | other _ hinteger => exact absurd rfl (hinteger value)
  · rintro ⟨h, hfits⟩
    exact .integer h hfits

/-- The spellings of a word of an instruction are its literals. -/
@[simp] theorem spells_word_iff {token : List Char} {word : Int32} :
    Spells (.scalar (.integer word.toInt)) token ↔ Literal token word.toInt := by
  rw [spells_integer_iff, and_iff_left (Json.fitsWord64_toInt word)]

theorem isScalar_of_spells {token : List Char} {value : Json} (h : Spells (.scalar value) token) :
    value.isScalar = true := by
  cases h with
  | punctuation h => exact absurd rfl (not_scalar_of_punctuation? h value)
  | integer => rfl
  | other hscalar => exact hscalar

theorem spells_of_ofNumber? {token : List Char} {value : Json}
    (h : Json.ofNumber? token = some value) : Spells (.scalar value) token := by
  rcases Json.scalar_of_ofNumber? h with rfl | ⟨i, rfl⟩
  · exact .other rfl (fun i => Json.noConfusion)
  · exact spells_integer_iff.mpr (Json.literal_of_ofNumber? h)

/-! ### From the lexemes to the tokens -/

/-- What is known of the characters of the lexeme that the scanner is in the middle of. -/
def Mode.Holds : Mode → List Char → Prop
  | .between, pending => pending = []
  | .word _ value, _ => value.isScalar = true ∧ ∀ i, value ≠ .integer i
  | .number seen, pending => pending = seen.reverse
  | _, _ => True

/-- The characters read so far are spaced out of tokens that spell the lexemes so far, up to the
lexeme under way. -/
def Scanned (text : List Char) (scanner : Scanner) : Prop :=
  ∃ tokens front pending, text = front ++ pending ∧ Spaced tokens front ∧
    List.Forall₂ Spells scanner.lexemes.reverse tokens ∧ scanner.mode.Holds pending

variable {lexemes : List Lexeme} {tokens : List (List Char)} {front pending text : List Char}

/-- One more lexeme and the token that spells it. -/
theorem forall₂_spells_cons {lexeme : Lexeme} {token : List Char}
    (h : List.Forall₂ Spells lexemes.reverse tokens) (hspells : Spells lexeme token) :
    List.Forall₂ Spells (lexeme :: lexemes).reverse (tokens ++ [token]) := by
  rw [List.reverse_cons]
  exact List.rel_append h (.cons hspells .nil)

theorem scanned_start {c : Char} {next : Scanner} (hspaced : Spaced tokens front)
    (hspells : List.Forall₂ Spells lexemes.reverse tokens)
    (h : Scanner.start lexemes c = some next) : Scanned (front ++ [c]) next := by
  unfold Scanner.start at h
  split at h
  · next hblank =>
    cases h
    refine ⟨tokens, front ++ [c], [], (List.append_nil _).symm, ?_, hspells, rfl⟩
    simpa using hspaced.append (.nil (blanks_singleton hblank))
  · split at h
    · cases h
      exact ⟨tokens, front, [c], rfl, hspaced, hspells, trivial⟩
    · split at h
      · cases h
        exact ⟨tokens, front, [c], rfl, hspaced, hspells, rfl⟩
      · split at h
        · next hlexeme =>
          cases h
          exact ⟨tokens ++ [[c]], front ++ [c], [], (List.append_nil _).symm,
            hspaced.append (.singleton [c]), forall₂_spells_cons hspells (.punctuation hlexeme),
            rfl⟩
        · obtain ⟨⟨left, value⟩, hword, hnext⟩ := Option.map_eq_some_iff.mp h
          subst hnext
          refine ⟨tokens, front, [c], rfl, hspaced, hspells, ?_⟩
          unfold word? at hword
          grind [Mode.Holds, Json.isScalar]

/-- The scanner after the lexeme under way has ended and one more character. -/
theorem scanned_start_after {c : Char} {lexeme : Lexeme} {next : Scanner}
    (hspaced : Spaced tokens front) (hspells : List.Forall₂ Spells lexemes.reverse tokens)
    (hpending : Spells lexeme pending) (h : Scanner.start (lexeme :: lexemes) c = some next) :
    Scanned (front ++ pending ++ [c]) next :=
  scanned_start (hspaced.append (.singleton pending)) (forall₂_spells_cons hspells hpending) h

theorem scanned_read {c : Char} {scanner next : Scanner} (h : Scanned text scanner)
    (hread : scanner.read c = some next) : Scanned (text ++ [c]) next := by
  obtain ⟨tokens, front, pending, rfl, hspaced, hspells, hholds⟩ := h
  obtain ⟨mode, lexemes⟩ := scanner
  -- a step inside a lexeme only makes the pending text longer
  have inside : ∀ {mode : Mode}, mode.Holds (pending ++ [c]) →
      Scanned (front ++ pending ++ [c]) ⟨mode, lexemes⟩ := fun hmode =>
    ⟨tokens, front, pending ++ [c], List.append_assoc _ _ _, hspaced, hspells, hmode⟩
  cases mode with
  | between =>
    obtain rfl : pending = [] := hholds
    rw [List.append_nil]
    exact scanned_start hspaced hspells hread
  | word left value =>
    obtain ⟨hscalar, hinteger⟩ := hholds
    cases left with
    | nil => exact scanned_start_after hspaced hspells (.other hscalar hinteger) hread
    | cons following left =>
      simp only [Scanner.read] at hread
      split at hread
      · cases hread
        exact inside ⟨hscalar, hinteger⟩
      · cases hread
  | number seen =>
    obtain rfl : pending = seen.reverse := hholds
    simp only [Scanner.read] at hread
    split at hread
    · cases hread
      exact inside List.reverse_cons.symm
    · obtain ⟨value, hvalue, hstart⟩ := Option.bind_eq_some_iff.mp hread
      exact scanned_start_after hspaced hspells (spells_of_ofNumber? hvalue) hstart
  | string seen =>
    simp only [Scanner.read] at hread
    split at hread
    · cases hread
      have hstring : Spells (.scalar (.string (.ofList seen.reverse))) (pending ++ [c]) :=
        .other rfl (fun i => Json.noConfusion)
      refine ⟨tokens ++ [pending ++ [c]], front ++ (pending ++ [c]), [], ?_,
        hspaced.append (.singleton _), forall₂_spells_cons hspells hstring, rfl⟩
      simp
    · split at hread
      · cases hread
        exact inside trivial
      · split at hread
        · cases hread
        · cases hread
          exact inside trivial
  | escape seen =>
    simp only [Scanner.read] at hread
    split at hread
    · cases hread
      exact inside trivial
    · obtain ⟨d, -, rfl⟩ := Option.map_eq_some_iff.mp hread
      exact inside trivial
  | code seen high left value =>
    obtain ⟨digit, -, hcode⟩ := Option.bind_eq_some_iff.mp hread
    cases left with
    | zero =>
      obtain ⟨mode, hmode, rfl⟩ := Option.map_eq_some_iff.mp hcode
      refine inside ?_
      unfold Mode.ofCode? at hmode
      grind [Mode.Holds]
    | succ left =>
      cases hcode
      exact inside trivial
  | pairEscape seen high =>
    simp only [Scanner.read] at hread
    split at hread
    · cases hread
      exact inside trivial
    · cases hread
  | pairMark seen high =>
    simp only [Scanner.read] at hread
    split at hread
    · cases hread
      exact inside trivial
    · cases hread

/-- What a scalar lexeme holds is a scalar. -/
def HoldsScalar (lexeme : Lexeme) : Prop := ∀ value, lexeme = .scalar value → value.isScalar = true

/-- The lexemes of a text are spelled by tokens that the text is spaced out of. -/
theorem spaced_of_scan (h : scan text = some lexemes) :
    ∃ tokens, List.Forall₂ Spells lexemes tokens ∧ Spaced tokens text := by
  obtain ⟨⟨mode, found⟩, hfold, hfinish⟩ := Option.bind_eq_some_iff.mp h
  have hscanned : Scanned text ⟨mode, found⟩ :=
    foldlM_invariant ⟨[], [], [], rfl, .nil blanks_nil, .nil, rfl⟩
      (fun _ _ _ _ _ hscanned hread => scanned_read hscanned hread) hfold
  obtain ⟨tokens, front, pending, rfl, hspaced, hspells, hholds⟩ := hscanned
  have hlast : ∀ {lexeme : Lexeme}, Spells lexeme pending →
      ∃ tokens, List.Forall₂ Spells (lexeme :: found).reverse tokens ∧
        Spaced tokens (front ++ pending) := fun hspelled =>
    ⟨tokens ++ [pending], forall₂_spells_cons hspells hspelled,
      hspaced.append (.singleton pending)⟩
  unfold Scanner.finish at hfinish
  cases mode with
  | between =>
    obtain rfl : pending = [] := hholds
    cases hfinish
    rw [List.append_nil]
    exact ⟨tokens, hspells, hspaced⟩
  | word left value =>
    obtain ⟨hscalar, hinteger⟩ := hholds
    cases left with
    | nil =>
      cases hfinish
      exact hlast (.other hscalar hinteger)
    | cons => cases hfinish
  | number seen =>
    obtain rfl : pending = seen.reverse := hholds
    obtain ⟨value, hvalue, hfound⟩ := Option.bind_eq_some_iff.mp hfinish
    cases hfound
    exact hlast (spells_of_ofNumber? hvalue)
  | string | escape | code | pairEscape | pairMark => cases hfinish

theorem holdsScalar_of_scan (h : scan text = some lexemes) :
    ∀ lexeme ∈ lexemes, HoldsScalar lexeme := by
  obtain ⟨tokens, hspells, -⟩ := spaced_of_scan h
  have hboth : List.Forall₂ (fun lexeme token => HoldsScalar lexeme ∧ Spells lexeme token)
      lexemes tokens := by
    refine hspells.imp fun lexeme token hlexeme => ⟨?_, hlexeme⟩
    rintro value rfl
    exact isScalar_of_spells hlexeme
  exact ((List.forall₂_and_left lexemes tokens).mp hboth).1

/-! ### From the tokens to the lexemes -/

/-- The lexemes of a text that follows what the scanner has read. -/
def resume (scanner : Scanner) (text : List Char) : Option (List Lexeme) := do
  (← text.foldlM Scanner.read scanner).finish

theorem resume_cons {scanner next : Scanner} {c : Char} (h : scanner.read c = some next)
    (text : List Char) : resume scanner (c :: text) = resume next text := by
  simp [resume, h]

theorem resume_blanks {blanks : List Char} (h : Blanks blanks) (text : List Char) :
    resume ⟨.between, lexemes⟩ (blanks ++ text) = resume ⟨.between, lexemes⟩ text := by
  induction blanks with
  | nil => rfl
  | cons c blanks ih =>
    have hread : Scanner.read ⟨.between, lexemes⟩ c = some ⟨.between, lexemes⟩ := by
      simp [Scanner.read, Scanner.start, h c List.mem_cons_self]
    rw [List.cons_append, resume_cons hread]
    exact ih (fun d hd => h d (List.mem_cons_of_mem _ hd))

theorem resume_punctuation {c : Char} {lexeme : Lexeme} (h : punctuation? c = some lexeme)
    (text : List Char) :
    resume ⟨.between, lexemes⟩ (c :: text) = resume ⟨.between, lexeme :: lexemes⟩ text := by
  have hblank : isBlank c = false := of_punctuation? (P := (isBlank · = false)) h (by decide)
  have hquote : c ≠ '"' := of_punctuation? (P := (· ≠ '"')) h (by decide)
  have hdigit : ¬(c = '-' ∨ c.isDigit = true) :=
    of_punctuation? (P := fun c => ¬(c = '-' ∨ c.isDigit = true)) h (by decide)
  have hread : Scanner.read ⟨.between, lexemes⟩ c = some ⟨.between, lexeme :: lexemes⟩ := by
    simp [Scanner.read, Scanner.start, hblank, hquote, hdigit, h]
  exact resume_cons hread text

theorem numeric_of_first {c : Char} (h : c = '-' ∨ c.isDigit = true) : isNumeric c = true := by
  unfold isNumeric
  simp only [decide_eq_true_eq]
  tauto

theorem not_numeric_of_blank {c : Char} (h : isBlank c = true) : isNumeric c = false := by
  simp only [isBlank, decide_eq_true_eq] at h
  rcases h with rfl | rfl | rfl | rfl <;> decide

theorem not_numeric_of_punctuation? {c : Char} {lexeme : Lexeme}
    (h : punctuation? c = some lexeme) : isNumeric c = false :=
  of_punctuation? (P := (isNumeric · = false)) h (by decide)

/-- Numeric characters go on with the number under way. -/
theorem resume_numeric {digits : List Char} (h : ∀ c ∈ digits, isNumeric c = true)
    (seen text : List Char) :
    resume ⟨.number seen, lexemes⟩ (digits ++ text) =
      resume ⟨.number (digits.reverse ++ seen), lexemes⟩ text := by
  induction digits generalizing seen with
  | nil => rfl
  | cons c digits ih =>
    have hread : Scanner.read ⟨.number seen, lexemes⟩ c = some ⟨.number (c :: seen), lexemes⟩ := by
      simp [Scanner.read, h c List.mem_cons_self]
    rw [List.cons_append, resume_cons hread, ih (fun d hd => h d (List.mem_cons_of_mem _ hd))]
    simp

/-- A number ends where no numeric character follows. -/
theorem resume_number {seen : List Char} {value : Json}
    (hvalue : Json.ofNumber? seen.reverse = some value)
    (hnext : ∀ c ∈ text.head?, isNumeric c = false) :
    resume ⟨.number seen, lexemes⟩ text = resume ⟨.between, .scalar value :: lexemes⟩ text := by
  cases text with
  | nil => simp [resume, Scanner.finish, hvalue]
  | cons c text =>
    have hend : isNumeric c = false := hnext c rfl
    have hread : Scanner.read ⟨.number seen, lexemes⟩ c =
        Scanner.read ⟨.between, .scalar value :: lexemes⟩ c := by
      simp [Scanner.read, hend, hvalue]
    simp [resume, hread]

theorem resume_literal {token : List Char} {value : Int} (h : Literal token value)
    (hvalue : Json.ofNumber? token = some (.integer value))
    (hnext : ∀ c ∈ text.head?, isNumeric c = false) :
    resume ⟨.between, lexemes⟩ (token ++ text) =
      resume ⟨.between, .scalar (.integer value) :: lexemes⟩ text := by
  obtain ⟨c, rest, rfl, hfirst, hrest⟩ := h.eq_cons
  have hread : Scanner.read ⟨.between, lexemes⟩ c = some ⟨.number [c], lexemes⟩ := by
    have hblank : isBlank c = false := by
      rw [← Bool.not_eq_true]
      intro hblank
      have hnumeric := numeric_of_first hfirst
      rw [not_numeric_of_blank hblank] at hnumeric
      cases hnumeric
    have hquote : c ≠ '"' := by
      rintro rfl
      revert hfirst
      decide
    simp [Scanner.read, Scanner.start, hblank, hquote, hfirst]
  have hnumeric : ∀ d ∈ rest, isNumeric d = true := fun d hd => numeric_of_first (.inr (hrest d hd))
  rw [List.cons_append, resume_cons hread, resume_numeric hnumeric]
  refine resume_number ?_ hnext
  simpa using hvalue

/-- Whether a lexeme is one that listings are made of: punctuation, or an integer. -/
def Plain : Lexeme → Prop
  | .scalar (.integer _) => True
  | .scalar _ => False
  | _ => True

theorem not_plain_of_ne_integer {value : Json} (h : ∀ i, value ≠ .integer i) :
    ¬ (Lexeme.scalar value).Plain := by
  cases value with
  | integer i => exact absurd rfl (h i)
  | _ => exact not_false

/-- Whether a lexeme is a scalar. -/
def isScalar : Lexeme → Bool
  | .scalar _ => true
  | _ => false

/-- No two scalars stand side by side. -/
def Apart (lexemes : List Lexeme) : Prop :=
  lexemes.IsChain fun a b => a.isScalar = true → b.isScalar = false

namespace Apart

theorem singleton (lexeme : Lexeme) : Apart [lexeme] := List.isChain_singleton lexeme

theorem append_cons {front back : List Lexeme} {lexeme : Lexeme} (hfront : Apart front)
    (hlexeme : lexeme.isScalar = false) (hback : Apart back) : Apart (front ++ lexeme :: back) := by
  have hrest : Apart (lexeme :: back) := by
    refine List.isChain_cons.mpr ⟨fun next _ hscalar => ?_, hback⟩
    rw [hlexeme] at hscalar
    cases hscalar
  refine List.isChain_append.mpr ⟨hfront, hrest, fun a _ b hb _ => ?_⟩
  obtain rfl : lexeme = b := by simpa using hb
  exact hlexeme

end Apart

/-- A text that starts with punctuation, or blanks before it, starts with no numeric character. -/
theorem not_numeric_head (hspells : List.Forall₂ Spells lexemes tokens)
    (hspaced : Spaced tokens text) (hfirst : ∀ lexeme ∈ lexemes.head?, lexeme.isScalar = false) :
    ∀ c ∈ text.head?, isNumeric c = false := by
  intro c hc
  -- a blank in front decides it; otherwise the first token does
  have hblank : ∀ {blanks : List Char}, Blanks blanks → c ∈ blanks.head? →
      isNumeric c = false := fun hblanks hmem =>
    not_numeric_of_blank (hblanks c (List.mem_of_mem_head? hmem))
  cases hspaced with
  | nil hblanks => exact hblank hblanks hc
  | @cons blanks token text tokens hblanks rest =>
    cases blanks with
    | cons d blanks => exact hblank hblanks hc
    | nil =>
      cases hspells with
      | @cons lexeme _ lexemes _ hlexeme _ =>
        have hnot : lexeme.isScalar = false := hfirst lexeme rfl
        cases hlexeme with
        | punctuation h =>
          cases hc
          exact not_numeric_of_punctuation? h
        | integer => cases hnot
        | other => cases hnot

/-- Punctuation and integers are read back from any text that is spaced out of their spellings, if
no two numbers stand side by side. -/
theorem scan_of_spaced (hspells : List.Forall₂ Spells lexemes tokens) (hspaced : Spaced tokens text)
    (hplain : ∀ lexeme ∈ lexemes, lexeme.Plain) (hapart : Apart lexemes) :
    scan text = some lexemes := by
  suffices ∀ found, resume ⟨.between, found⟩ text = some (found.reverse ++ lexemes) from this []
  intro found
  induction hspaced generalizing lexemes found with
  | nil hblanks =>
    cases hspells
    have hend : resume ⟨.between, found⟩ (_ ++ []) = resume ⟨.between, found⟩ [] :=
      resume_blanks hblanks []
    rw [List.append_nil] at hend ⊢
    exact hend
  | @cons blanks token text tokens hblanks rest ih =>
    cases hspells with
    | @cons lexeme _ lexemes _ hlexeme hspells =>
      obtain ⟨hfollows, hapart⟩ := List.isChain_cons.mp hapart
      have hrest : ∀ found, resume ⟨.between, found⟩ text = some (found.reverse ++ lexemes) :=
        ih hspells (fun l hl => hplain l (List.mem_cons_of_mem _ hl)) hapart
      have hjoin : some ((lexeme :: found).reverse ++ lexemes) =
          some (found.reverse ++ lexeme :: lexemes) := by
        simp
      rw [resume_blanks hblanks]
      cases hlexeme with
      | punctuation h =>
        have hstep : resume ⟨.between, found⟩ ([_] ++ text) =
            resume ⟨.between, lexeme :: found⟩ text := resume_punctuation h text
        rw [hstep, hrest, hjoin]
      | @integer _ value h hfits =>
        have hnext : ∀ c ∈ text.head?, isNumeric c = false :=
          not_numeric_head hspells rest fun l hl => hfollows l hl rfl
        rw [resume_literal h (Json.ofNumber?_literal h hfits) hnext, hrest, hjoin]
      | other _ hinteger =>
        exact absurd (hplain _ List.mem_cons_self) (not_plain_of_ne_integer hinteger)

end Lexeme

end TapeMachine
