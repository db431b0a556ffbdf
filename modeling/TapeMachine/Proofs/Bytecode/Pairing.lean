import TapeMachine.Proofs.Bytecode.Layout
import TapeMachine.Proofs.Machine.After
import TapeMachine.Proofs.Machine.Words
import TapeMachine.Proofs.Source.Nesting
import TapeMachine.Proofs.Source.Transcript

/-!
# TapeMachine.Proofs.Bytecode.Pairing — jumps in pairs

Flat code has two jumps for each loop, one in front of the body and one behind it, and so it stands
for the forest that it comes from as a sequence of brackets does, with jumps in their place.  So
its jumps have a matching that is nested as the loops of the forest are, and, for compiled code, as
the brackets of the source text (`jumps_paired`).
-/

namespace TapeMachine

/-- The end of a loop that an instruction is. -/
def Instruction.bracket? (instruction : Instruction) : Option Bracket :=
  match instruction.opcode? with
  | some .jumpIfZero => some .opening
  | some .jumpIfNonzero => some .closing
  | _ => none

/-- The end of a loop that a command is. -/
def Command.bracket? : Command → Option Bracket
  | .loopStart => some .opening
  | .loopEnd => some .closing
  | _ => none

mutual

/-- The leaves of a node, in order. -/
def Node.leaves : Node → List (Action × Int32)
  | .leaf action argument => [(action, argument)]
  | .loop _ body => Forest.leaves body

/-- The leaves of a forest, in order. -/
def Forest.leaves : List Node → List (Action × Int32)
  | [] => []
  | node :: rest => node.leaves ++ Forest.leaves rest

end

/-! ### Code -/

/-- The jumps in front of a body of so many instructions and behind it: the first leads behind the
second, and the second to the body. -/
def JumpsAround (length : Nat) (head last : Instruction) : Prop :=
  ∃ forward back : Int32, head = .ofOpcode .jumpIfZero forward ∧
    last = .ofOpcode .jumpIfNonzero back ∧ forward.toInt = length + 2 ∧ back.toInt = -length

/-- The jumps around a body are given by its length, if they are words of 32 bits. -/
theorem jumpsAround_iff {length : Nat} {head last : Instruction} :
    JumpsAround length head last ↔ length + 2 ≤ Int32.maxValue.toInt.toNat ∧
      head = .ofOpcode .jumpIfZero (Int32.ofNat (length + 2)) ∧
      last = .ofOpcode .jumpIfNonzero (Int32.ofInt (-length)) := by
  constructor
  · rintro ⟨forward, back, rfl, rfl, hforward, hback⟩
    have hmax : Int32.maxValue.toInt.toNat = 2 ^ 31 - 1 := rfl
    have hlt := forward.toInt_lt
    have hle : length + 2 ≤ Int32.maxValue.toInt.toNat := by omega
    obtain ⟨hover, hunder⟩ := Machine.toInt_jumps hle
    refine ⟨hle, ?_, ?_⟩
    · rw [Int32.toInt_inj.mp (hforward.trans hover.symm)]
    · rw [Int32.toInt_inj.mp (hback.trans hunder.symm)]
  · rintro ⟨hle, rfl, rfl⟩
    obtain ⟨hover, hunder⟩ := Machine.toInt_jumps hle
    exact ⟨_, _, rfl, rfl, hover, hunder⟩

@[simp] theorem Instruction.bracket?_ofAction (action : Action) (argument : Int32) :
    (ofOpcode (.ofAction action) argument).bracket? = none := by
  unfold bracket?
  rw [opcode?_ofOpcode]
  cases action <;> rfl

@[simp] theorem Instruction.bracket?_jumpIfZero (argument : Int32) :
    (ofOpcode .jumpIfZero argument).bracket? = some .opening := by
  unfold bracket?
  rw [opcode?_ofOpcode]

@[simp] theorem Instruction.bracket?_jumpIfNonzero (argument : Int32) :
    (ofOpcode .jumpIfNonzero argument).bracket? = some .closing := by
  unfold bracket?
  rw [opcode?_ofOpcode]

theorem brackets_jumpsAround : Brackets Instruction.bracket? JumpsAround := by
  rintro length head last ⟨forward, back, rfl, rfl, -, -⟩
  exact ⟨Instruction.bracket?_jumpIfZero forward, Instruction.bracket?_jumpIfNonzero back⟩

mutual

theorem Node.laidOut_append {node : Node} {text : List Instruction} {rest : List Node}
    (h : node.Fits) (hrest : LaidOut Instruction.bracket? JumpsAround text rest) :
    LaidOut Instruction.bracket? JumpsAround (node.code ++ text) (node :: rest) := by
  cases node with
  | leaf action argument =>
    refine .leaf (fun item hmem => ?_) hrest
    rw [List.mem_singleton.mp hmem]
    exact Instruction.bracket?_ofAction action argument
  | loop offset body =>
    obtain ⟨hle, hbody⟩ := h
    refine .loop ?_ (Forest.laidOut_code hbody) hrest
    rw [Forest.length_code]
    exact jumpsAround_iff.mpr ⟨hle, rfl, rfl⟩

/-- The code of a forest stands for the forest. -/
theorem Forest.laidOut_code {forest : List Node} (h : Forest.Fits forest) :
    LaidOut Instruction.bracket? JumpsAround (Forest.code forest) forest := by
  cases forest with
  | nil => exact .nil
  | cons node rest => exact Node.laidOut_append h.1 (Forest.laidOut_code h.2)

end

/-- The instruction of a leaf. -/
def leafInstruction (leaf : Action × Int32) : Instruction := .ofOpcode (.ofAction leaf.1) leaf.2

mutual

theorem Node.filter_code (node : Node) :
    node.code.filter (·.bracket?.isNone) = node.leaves.map leafInstruction := by
  cases node with
  | leaf action argument => simp [Node.code, Node.leaves, leafInstruction]
  | loop offset body =>
    have hbody := Forest.filter_code body
    simp [Node.code, Node.leaves, hbody]

/-- The instructions that are no jumps are those of the leaves. -/
theorem Forest.filter_code (forest : List Node) :
    (Forest.code forest).filter (·.bracket?.isNone) =
      (Forest.leaves forest).map leafInstruction := by
  cases forest with
  | nil => rfl
  | cons node rest =>
    rw [Forest.code, Forest.leaves, List.filter_append, List.map_append, Node.filter_code node,
      Forest.filter_code rest]

end

/-! ### Source texts -/

/-- The commands around the body of a loop, however long it is. -/
def LoopCommands (_ : Nat) (head last : Command) : Prop := head = .loopStart ∧ last = .loopEnd

theorem brackets_loopCommands : Brackets Command.bracket? LoopCommands := by
  rintro length head last ⟨rfl, rfl⟩
  exact ⟨rfl, rfl⟩

/-- Commands that spell a forest stand for it. -/
theorem Spells.laidOut {text : List Command} {forest : List Node} (h : Spells text forest) :
    LaidOut Command.bracket? LoopCommands text forest := by
  induction h with
  | nil => exact .nil
  | leaf hrun hrest ih =>
    refine .leaf (fun command hmem => ?_) ih
    have haction := hrun.action command hmem
    cases command <;> first | rfl | cases haction
  | loop hbody hrest ihbody ih => exact .loop ⟨rfl, rfl⟩ ihbody ih

/-! ### Jumps -/

/-- The jumps of a code are matched: the first jump of each pair leads just behind the second, and
the second just behind the first. -/
structure JumpsPaired (code : List Instruction) (pairs : List (Nat × Nat)) : Prop where
  matching : Matching Instruction.bracket? code pairs
  targets : ∀ first last, (first, last) ∈ pairs → ∃ forward back : Int32,
    code[first]? = some (.ofOpcode .jumpIfZero forward) ∧
      code[last]? = some (.ofOpcode .jumpIfNonzero back) ∧
      forward.toInt = last + 1 - first ∧ back.toInt = first + 1 - last ∧ last + 1 ≤ code.length

theorem exists_jumpsPaired {forest : Forest} {code : List Instruction}
    (h : forest.flatten = .ok code) : ∃ pairs, JumpsPaired code pairs ∧
      SameNesting Address.Encloses Encloses (Forest.loops [] 0 forest) pairs := by
  obtain ⟨rfl, hfits⟩ := Forest.flatten_code h
  obtain ⟨pairs, hmatching, hnesting, hloops⟩ :=
    (Forest.laidOut_code hfits).exists_matching brackets_jumpsAround
  refine ⟨pairs, ⟨hmatching, fun first last hmem => ?_⟩, hnesting⟩
  obtain ⟨_, _, hfirst, hlast, forward, back, rfl, rfl, hforward, hback⟩ := hloops first last hmem
  have hlt := (hmatching.paired first last hmem).1
  have hlength := (List.getElem?_eq_some_iff.mp hlast).1
  exact ⟨forward, back, hfirst, hlast, by omega, by omega, hlength⟩

/-- The jumps of flat code are matched, and their pairs are inside one another as the loops of the
forest are; the other instructions are the leaves of the forest, in order and with their arguments.
The jumps of a compiled program are matched and inside one another as the matched brackets of the
source text are. -/
theorem jumps_paired :
    (∀ (forest : Forest) (code : List Instruction), forest.flatten = .ok code →
      (∃ pairs, JumpsPaired code pairs ∧
        SameNesting Address.Encloses Encloses (Forest.loops [] 0 forest) pairs) ∧
      code.filter (·.bracket?.isNone) = (Forest.leaves forest).map leafInstruction) ∧
    ∀ (source : List UInt8) (program : Program), compile source = .ok program →
      ∃ pairs brackets, JumpsPaired program.toList pairs ∧
        Matching Command.bracket? (commands source) brackets ∧
        SameNesting Encloses Encloses brackets pairs := by
  refine ⟨fun forest code h => ⟨exists_jumpsPaired h, ?_⟩, fun source program h => ?_⟩
  · rw [(Forest.flatten_code h).1]
    exact Forest.filter_code forest
  · obtain ⟨forest, code, hforest, hcode, rfl⟩ := compile_eq_ok h
    obtain ⟨pairs, hpairs, hnesting⟩ := exists_jumpsPaired hcode
    obtain ⟨brackets, hmatching, hbrackets, -⟩ :=
      (spells_source hforest).laidOut.exists_matching brackets_loopCommands
    exact ⟨pairs, brackets, hpairs, hmatching, hbrackets.symm.trans hnesting⟩

/-- The text `[[]+][]`: a loop inside another one and a loop behind it. -/
theorem jumps_paired_nested :
    let source : List UInt8 := [91, 91, 93, 43, 93, 91, 93]
    let forest : Forest := [.loop 0 [.loop 1 [], .leaf .addValue 1], .loop 5 []]
    let code : List Instruction := [.ofOpcode .jumpIfZero 5, .ofOpcode .jumpIfZero 2,
      .ofOpcode .jumpIfNonzero 0, .ofOpcode .addValue 1, .ofOpcode .jumpIfNonzero (-3),
      .ofOpcode .jumpIfZero 2, .ofOpcode .jumpIfNonzero 0]
    forest.flatten = .ok code ∧ compile source = .ok (.ofList code) ∧
      Forest.loops [] 0 forest = [[0], [0, 0], [1]] ∧
      (∃ pairs, JumpsPaired code pairs ∧
        SameNesting Address.Encloses Encloses [[0], [0, 0], [1]] pairs) ∧
      ∃ pairs brackets, JumpsPaired code pairs ∧
        Matching Command.bracket? (commands source) brackets ∧
        SameNesting Encloses Encloses brackets pairs := by
  intro source forest code
  have hflatten : forest.flatten = .ok code := rfl
  have hcompile : compile source = .ok (.ofList code) := rfl
  exact ⟨hflatten, hcompile, rfl, (jumps_paired.1 forest code hflatten).1,
    jumps_paired.2 source (.ofList code) hcompile⟩

end TapeMachine
