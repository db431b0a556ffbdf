import TapeMachine.Bytecode.Program
import TapeMachine.Proofs.Source.Spelling

/-!
# TapeMachine.Proofs.Source.Relocation — places in the text decide nothing

Offsets go from tokens to loops and errors and nowhere else: moving the tokens to other places moves
loops and errors with them and changes nothing besides (`ofTokens_relocate`, `assemble_relocate`).
The tokens of any two texts with the same commands come from one sequence, in which each command has
its number for a place.  So what stands between the commands of a text does not matter
(`comments_ignored`).
-/

namespace TapeMachine

/-- The token at another place. -/
def Token.relocate (place : Nat → Nat) (token : Token) : Token :=
  { token with offset := place token.offset }

/-- The same cause at another place. -/
def SourceError.relocate (place : Nat → Nat) : SourceError → SourceError
  | unmatchedClose offset => unmatchedClose (place offset)
  | unmatchedOpen offset => unmatchedOpen (place offset)
  | overflow offset => overflow (place offset)

mutual

/-- The node with its loops at other places. -/
def Node.relocate (place : Nat → Nat) : Node → Node
  | .leaf action argument => .leaf action argument
  | .loop offset body => .loop (place offset) (Forest.relocate place body)

/-- The forest with its loops at other places. -/
def Forest.relocate (place : Nat → Nat) : List Node → List Node
  | [] => []
  | node :: rest => node.relocate place :: Forest.relocate place rest

end

/-- The scan with its tokens at other places. -/
def Forest.Scan.relocate (place : Nat → Nat) (scan : Scan) : Scan where
  body := Forest.relocate place scan.body
  enclosing := scan.enclosing.map fun loop => (place loop.1, Forest.relocate place loop.2)
  last := scan.last

variable (place : Nat → Nat)

theorem Forest.relocate_reverse (forest : Forest) :
    Forest.relocate place forest.reverse = (Forest.relocate place forest).reverse := by
  have hmap : ∀ forest : Forest, Forest.relocate place forest = forest.map (Node.relocate place) := by
    intro forest
    induction forest with
    | nil => rfl
    | cons node rest ih => rw [Forest.relocate, ih, List.map_cons]
  rw [hmap, hmap, List.map_reverse]

/-- A result of a computation with tokens at other places; `f` says what becomes of the value. -/
def relocated {α β : Type} (f : α → β) (result : Except SourceError α) : Except SourceError β :=
  (result.map f).mapError (SourceError.relocate place)

theorem relocated_bind {α β γ δ : Type} {f : α → γ} {g : β → δ}
    {next : α → Except SourceError β} {next' : γ → Except SourceError δ}
    (h : ∀ a, next' (f a) = relocated place g (next a)) (result : Except SourceError α) :
    relocated place f result >>= next' = relocated place g (result >>= next) := by
  cases result with
  | error error => rfl
  | ok a => exact h a

/-! ### Scanning -/

namespace Forest

theorem extendRun_relocate (action : Action) (change : Int) (offset : Nat) (last : Option Command)
    (body : Forest) :
    extendRun action change (place offset) last (relocate place body) =
      relocated place (relocate place) (extendRun action change offset last body) := by
  rcases body with _ | ⟨⟨newest, total⟩ | ⟨start, inner⟩, older⟩
  · rfl
  · rw [relocate, Node.relocate, extendRun, extendRun]
    split
    · cases int32OfInt? (total.toInt + change) <;> rfl
    · rfl
  · rfl

namespace Scan

theorem read_relocate (scan : Scan) (token : Token) :
    (scan.relocate place).read (token.relocate place) =
      relocated place (relocate place) (scan.read token) := by
  obtain ⟨body, enclosing, last⟩ := scan
  obtain ⟨command, offset⟩ := token
  unfold read Token.relocate
  dsimp only
  cases hc : command.contribution? with
  | some contribution =>
    obtain ⟨action, change⟩ := contribution
    dsimp only [relocate]
    rw [extendRun_relocate]
    refine relocated_bind place (fun after => ?_) _
    rfl
  | none =>
    dsimp only [relocate]
    split
    · rfl
    · rcases enclosing with _ | ⟨⟨start, around⟩, outer⟩
      · rfl
      · dsimp only [List.map_cons]
        rw [← relocate_reverse]
        rfl

theorem foldlM_relocate (tokens : List Token) (scan : Scan) :
    (tokens.map (Token.relocate place)).foldlM read (scan.relocate place) =
      relocated place (relocate place) (tokens.foldlM read scan) := by
  induction tokens generalizing scan with
  | nil => rfl
  | cons token tokens ih =>
    rw [List.map_cons, List.foldlM_cons, List.foldlM_cons, read_relocate]
    exact relocated_bind place ih _

theorem finish_relocate (scan : Scan) :
    (scan.relocate place).finish = relocated place (Forest.relocate place) scan.finish := by
  obtain ⟨body, _ | ⟨⟨start, around⟩, outer⟩, last⟩ := scan
  · exact congrArg Except.ok (relocate_reverse place body).symm
  · rfl

end Scan

/-- Moving the tokens moves the loops of their forest, or the error. -/
theorem ofTokens_relocate (tokens : List Token) :
    ofTokens (tokens.map (Token.relocate place)) =
      relocated place (relocate place) (ofTokens tokens) := by
  have hfold := Scan.foldlM_relocate place tokens .start
  unfold ofTokens
  rw [show (Scan.start).relocate place = .start from rfl] at hfold
  rw [hfold]
  exact relocated_bind place (Scan.finish_relocate place) _

end Forest

/-! ### Flattening -/

mutual

theorem Node.emit_relocate (node : Node) (code : Array Instruction) :
    (node.relocate place).emit code = relocated place id (node.emit code) := by
  cases node with
  | leaf action argument => rfl
  | loop offset body =>
    rw [Node.relocate, Node.emit, Node.emit]
    dsimp only
    rw [Forest.emit_relocate body]
    refine relocated_bind place (fun after => ?_) _
    dsimp only [id]
    split <;> rfl

theorem Forest.emit_relocate (forest : List Node) (code : Array Instruction) :
    Forest.emit code (Forest.relocate place forest) = relocated place id (Forest.emit code forest) := by
  cases forest with
  | nil => rfl
  | cons node rest =>
    rw [Forest.relocate, Forest.emit, Forest.emit, Node.emit_relocate node]
    exact relocated_bind place (fun after => Forest.emit_relocate rest after) _

end

theorem Forest.flatten_relocate (forest : Forest) :
    Forest.flatten (Forest.relocate place forest) = relocated place id forest.flatten := by
  unfold Forest.flatten
  rw [Forest.emit_relocate]
  refine relocated_bind place (fun after => ?_) _
  rfl

/-- The instructions of a token sequence. -/
def assemble (tokens : List Token) : Except SourceError (List Instruction) := do
  (← Forest.ofTokens tokens).flatten

theorem compile_eq_assemble (source : List UInt8) :
    compile source = (assemble (tokens source)).map Program.ofList := by
  unfold compile assemble Forest.ofSource
  cases Forest.ofTokens (tokens source) with
  | error error => rfl
  | ok forest =>
    dsimp only [bind, Except.bind]
    cases forest.flatten <;> rfl

theorem assemble_relocate (tokens : List Token) :
    assemble (tokens.map (Token.relocate place)) = relocated place id (assemble tokens) := by
  unfold assemble
  rw [Forest.ofTokens_relocate]
  exact relocated_bind place (Forest.flatten_relocate place) _

/-! ### Errors blame a token -/

variable {place}

theorem SourceError.relocate_congr {place place' : Nat → Nat} {error : SourceError}
    (h : place error.offset = place' error.offset) : error.relocate place = error.relocate place' := by
  cases error <;> exact congrArg _ h

theorem SourceError.offset_relocate (place : Nat → Nat) (error : SourceError) :
    (error.relocate place).offset = place error.offset := by
  cases error <;> rfl

/-- An error stands where a token stands: it stays where it is when everything is moved but the
tokens. -/
theorem exists_mem_of_assemble_eq_error {tokens : List Token} {error : SourceError}
    (h : assemble tokens = .error error) : ∃ token ∈ tokens, token.offset = error.offset := by
  let place offset := if offset ∈ tokens.map Token.offset then offset else offset + 1
  have hstay : tokens.map (Token.relocate place) = tokens := by
    refine (List.map_congr_left fun token hmem => ?_).trans (List.map_id tokens)
    have hin : token.offset ∈ tokens.map Token.offset := List.mem_map_of_mem hmem
    show ({ token with offset := place token.offset } : Token) = token
    rw [show place token.offset = token.offset from if_pos hin]
  have hmoved := assemble_relocate place tokens
  rw [hstay, h] at hmoved
  have hoffset := congrArg SourceError.offset (Except.error.inj hmoved)
  rw [SourceError.offset_relocate] at hoffset
  by_cases hin : error.offset ∈ tokens.map Token.offset
  · exact List.mem_map.mp hin
  · rw [show place error.offset = error.offset + 1 from if_neg hin] at hoffset
    omega

/-! ### Texts with the same commands -/

/-- Tokens that stand at their numbers. -/
def numbered (commands : List Command) : List Token :=
  commands.zipIdx.map fun pair => ⟨pair.1, pair.2⟩

/-- The offset of the token with a number. -/
def offsetOf (tokens : List Token) (number : Nat) : Nat := (tokens[number]?.map Token.offset).getD 0

theorem eq_numbered_relocate (tokens : List Token) :
    tokens = (numbered (tokens.map Token.command)).map (Token.relocate (offsetOf tokens)) := by
  apply List.ext_getElem?
  intro number
  unfold numbered
  rw [List.getElem?_map, List.getElem?_map, List.getElem?_zipIdx, List.getElem?_map]
  cases htoken : tokens[number]? with
  | none => rfl
  | some token =>
    have hoffset : offsetOf tokens number = token.offset := by
      unfold offsetOf
      rw [htoken]
      rfl
    simp [Token.relocate, hoffset]

/-- What a text compiles to is what its numbered commands are assembled to, with the errors moved
from numbers to offsets. -/
theorem assemble_tokens (source : List UInt8) :
    assemble (tokens source) =
      relocated (offsetOf (tokens source)) id (assemble (numbered (commands source))) := by
  conv => lhs; rw [eq_numbered_relocate (tokens source), map_command_tokens]
  exact assemble_relocate _ _

/-- The number that an error has been moved from is the number of a token, at which it stands. -/
theorem relocate_offsetOf {source : List UInt8} {error : SourceError}
    (h : assemble (numbered (commands source)) = .error error) :
    ∃ token, (tokens source)[error.offset]? = some token ∧
      error.relocate (offsetOf (tokens source)) = error.relocate fun _ => token.offset := by
  obtain ⟨found, hmem, hoffset⟩ := exists_mem_of_assemble_eq_error h
  obtain ⟨⟨command, number⟩, hpair, rfl⟩ := List.mem_map.mp hmem
  have hlt := List.snd_lt_of_mem_zipIdx hpair
  rw [← map_command_tokens, List.length_map] at hlt
  obtain rfl : number = error.offset := hoffset
  have htoken : (tokens source)[error.offset]? = some (tokens source)[error.offset] :=
    List.getElem?_eq_getElem hlt
  refine ⟨_, htoken, SourceError.relocate_congr ?_⟩
  unfold offsetOf
  rw [htoken]
  rfl

/-- What stands between the commands of a source text does not matter, nor does where they stand.
Two source texts with the same commands are compiled to the same program, or to errors of one cause,
each of which stands, in its own text, where the command with one number stands.  For tokens at any
places: moving them moves the loops of their forest, or the error, and changes nothing else. -/
theorem comments_ignored :
    (∀ source source' : List UInt8, commands source = commands source' →
      (∃ program, compile source = .ok program ∧ compile source' = .ok program) ∨
      ∃ (error : SourceError) (number : Nat) (token token' : Token),
        (tokens source)[number]? = some token ∧ (tokens source')[number]? = some token' ∧
        compile source = .error (error.relocate fun _ => token.offset) ∧
        compile source' = .error (error.relocate fun _ => token'.offset)) ∧
    ∀ (place : Nat → Nat) (tokens : List Token),
      Forest.ofTokens (tokens.map (Token.relocate place)) =
        ((Forest.ofTokens tokens).map (Forest.relocate place)).mapError
          (SourceError.relocate place) := by
  refine ⟨fun source source' hcommands => ?_, Forest.ofTokens_relocate⟩
  rw [compile_eq_assemble, compile_eq_assemble, assemble_tokens, assemble_tokens, ← hcommands]
  cases hresult : assemble (numbered (commands source)) with
  | ok code => exact .inl ⟨.ofList code, rfl, rfl⟩
  | error error =>
    obtain ⟨token, htoken, herror⟩ := relocate_offsetOf hresult
    rw [hcommands] at hresult
    obtain ⟨token', htoken', herror'⟩ := relocate_offsetOf hresult
    exact .inr ⟨error, error.offset, token, token', htoken, htoken',
      congrArg Except.error herror, congrArg Except.error herror'⟩

/-- A loop end too many, behind a comment that is not ASCII and in front of a second one. -/
theorem comments_ignored_unmatched :
    let source : List UInt8 := [43, 226, 130, 172, 93, 32]
    let source' : List UInt8 := [43, 93]
    commands source = commands source' ∧ compile source = .error (.unmatchedClose 4) ∧
      compile source' = .error (.unmatchedClose 1) ∧
      ∃ (error : SourceError) (number : Nat) (token token' : Token),
        (tokens source)[number]? = some token ∧ (tokens source')[number]? = some token' ∧
        compile source = .error (error.relocate fun _ => token.offset) ∧
        compile source' = .error (error.relocate fun _ => token'.offset) := by
  intro source source'
  have hcommands : commands source = commands source' := by decide
  have hcompile : compile source = .error (.unmatchedClose 4) := rfl
  refine ⟨hcommands, hcompile, rfl, ?_⟩
  rcases comments_ignored.1 source source' hcommands with ⟨program, hok, -⟩ | herror
  · rw [hcompile] at hok
    cases hok
  · exact herror

end TapeMachine
