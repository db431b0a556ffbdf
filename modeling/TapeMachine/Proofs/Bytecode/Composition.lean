import TapeMachine.Proofs.Bytecode.Pairing
import TapeMachine.Proofs.Source.NormalForests
import TapeMachine.Proofs.Source.Relocation

/-!
# TapeMachine.Proofs.Bytecode.Composition — flat code is put together from its parts

Flattening goes on with one array and fills in the first jump of a loop by its place in that array.
Still, what is added does not depend on what stands in front of it (`Forest.emit_append_left`), so
the code of a sequence is that of its parts, one behind the other (`Forest.flatten_append`).  Nothing
is lost on the way: the first jump of a loop says how long the body is, so a node can be told from
any code that begins with its own (`Node.unplaced_eq_of_code_append`), and a forest from its code
(`flatten_compositional`).  Only the places of loops are not in it.
-/

namespace TapeMachine

/-! ### Code that stands in front -/

mutual

theorem Node.emit_append_left (front code : Array Instruction) (node : Node) :
    node.emit (front ++ code) = (node.emit code).map (front ++ ·) := by
  cases node with
  | leaf action argument =>
    rw [Node.emit, Node.emit]
    exact congrArg Except.ok Array.push_append
  | loop offset body =>
    rw [Node.emit, Node.emit, Array.push_append, Forest.emit_append_left]
    cases Forest.emit (code.push (.ofOpcode .jumpIfZero 0)) body with
    | error error => rfl
    | ok inner =>
      -- the head is as far behind `front` as it was from the beginning, and the body is as long
      have hlength : (front ++ inner).size - (front ++ code).size - 1 =
          inner.size - code.size - 1 := by
        rw [Array.size_append, Array.size_append]
        omega
      have hhead : ∀ head, (front ++ inner).setIfInBounds (front ++ code).size head =
          front ++ inner.setIfInBounds code.size head := by
        intro head
        rw [Array.size_append, Array.setIfInBounds_append_right (Nat.le_add_right _ _),
          Nat.add_sub_cancel_left]
      dsimp only [Except.map, bind, Except.bind]
      rw [hlength]
      split
      · rw [hhead, Array.push_append]
        rfl
      · rfl

/-- What is added to the code does not depend on what stands in front of it. -/
theorem Forest.emit_append_left (front code : Array Instruction) (forest : List Node) :
    Forest.emit (front ++ code) forest = (Forest.emit code forest).map (front ++ ·) := by
  cases forest with
  | nil => rfl
  | cons node rest =>
    rw [Forest.emit, Forest.emit, Node.emit_append_left]
    cases node.emit code with
    | error error => rfl
    | ok inner => exact Forest.emit_append_left front inner rest

end

namespace Forest

theorem emit_append (code : Array Instruction) (front back : List Node) :
    emit code (front ++ back) = emit code front >>= (emit · back) := by
  induction front generalizing code with
  | nil => rfl
  | cons node front ih =>
    rw [List.cons_append, emit, emit]
    cases node.emit code with
    | error error => rfl
    | ok inner => exact ih inner

/-- Behind any code, a forest has the code that it has alone. -/
theorem emit_eq_flatten (code : Array Instruction) (forest : Forest) :
    emit code forest = forest.flatten.map (code ++ ·.toArray) := by
  have hfront := emit_append_left code #[] forest
  rw [Array.append_empty] at hfront
  rw [hfront]
  unfold flatten
  cases emit #[] forest <;> rfl

/-- The code of a sequence is that of its parts, one behind the other; an error is that of the first
part that cannot be flattened. -/
theorem flatten_append (front back : Forest) :
    flatten (front ++ back) = do return (← front.flatten) ++ (← back.flatten) := by
  unfold flatten
  rw [emit_append]
  cases emit #[] front with
  | error error => rfl
  | ok code =>
    dsimp only [bind, Except.bind]
    rw [emit_eq_flatten]
    unfold flatten
    cases emit #[] back with
    | error error => rfl
    | ok inner => exact congrArg Except.ok Array.toList_append

end Forest

theorem Node.emit_eq_flatten (code : Array Instruction) (node : Node) :
    node.emit code = (Forest.flatten [node]).map (code ++ ·.toArray) := by
  rw [← Forest.emit_eq_flatten, Forest.emit]
  cases node.emit code <;> rfl

/-! ### Loops -/

/-- The code of a loop is that of its body between two jumps, and it exists when the body has code
and the jumps are words of 32 bits. -/
theorem Forest.flatten_loop {offset : Nat} {body : Forest} {code : List Instruction} :
    Forest.flatten [.loop offset body] = .ok code ↔ ∃ inner head last,
      body.flatten = .ok inner ∧ JumpsAround inner.length head last ∧
        code = head :: (inner ++ [last]) := by
  constructor
  · intro h
    obtain ⟨rfl, ⟨hle, hbody⟩, -⟩ := Forest.flatten_code h
    refine ⟨_, _, _, Forest.flatten_of_fits hbody, ?_, List.append_nil _⟩
    rw [Forest.length_code]
    exact jumpsAround_iff.mpr ⟨hle, rfl, rfl⟩
  · rintro ⟨inner, head, last, hinner, hjumps, rfl⟩
    obtain ⟨rfl, hbody⟩ := Forest.flatten_code hinner
    rw [Forest.length_code, jumpsAround_iff] at hjumps
    obtain ⟨hle, rfl, rfl⟩ := hjumps
    have hfits : Forest.Fits [.loop offset body] := ⟨⟨hle, hbody⟩, trivial⟩
    rw [Forest.flatten_of_fits hfits]
    exact congrArg Except.ok (List.append_nil _)

/-! ### Telling a forest from its code -/

theorem Opcode.ofAction_inj {a b : Action} : ofAction a = ofAction b ↔ a = b := by
  cases a <;> cases b <;> decide

theorem Instruction.ofOpcode_inj {a b : Opcode} {m n : Int32} :
    ofOpcode a m = ofOpcode b n ↔ a = b ∧ m = n := by
  constructor
  · intro h
    have hopcode := congrArg opcode? h
    rw [opcode?_ofOpcode, opcode?_ofOpcode] at hopcode
    exact ⟨Option.some.inj hopcode, congrArg argument h⟩
  · rintro ⟨rfl, rfl⟩
    rfl

/-- A leaf and a loop do not begin with the same instruction. -/
theorem leaf_ne_head (action : Action) (m n : Int32) :
    Instruction.ofOpcode (.ofAction action) m ≠ .ofOpcode .jumpIfZero n := by
  intro h
  have hbracket := congrArg Instruction.bracket? h
  rw [Instruction.bracket?_ofAction, Instruction.bracket?_jumpIfZero] at hbracket
  cases hbracket

theorem Node.code_ne_nil (node : Node) : node.code ≠ [] := by
  cases node <;> exact List.cons_ne_nil _ _

mutual

/-- No code of a node is the beginning of the code of another one, the places of loops apart. -/
theorem Node.unplaced_eq_of_code_append {node other : Node} {text text' : List Instruction}
    (hnode : node.Fits) (hother : other.Fits) (h : node.code ++ text = other.code ++ text') :
    node.unplaced = other.unplaced ∧ text = text' := by
  cases node with
  | leaf action argument =>
    cases other with
    | leaf action' argument' =>
      obtain ⟨hhead, htext⟩ := List.cons.inj h
      obtain ⟨haction, rfl⟩ := Instruction.ofOpcode_inj.mp hhead
      obtain rfl := Opcode.ofAction_inj.mp haction
      exact ⟨rfl, htext⟩
    | loop offset' body' => exact absurd (List.cons.inj h).1 (leaf_ne_head _ _ _)
  | loop offset body =>
    cases other with
    | leaf action' argument' => exact absurd (List.cons.inj h).1.symm (leaf_ne_head _ _ _)
    | loop offset' body' =>
      obtain ⟨hle, hbody⟩ := hnode
      obtain ⟨hle', hbody'⟩ := hother
      rw [Node.code, Node.code, List.cons_append, List.cons_append, List.append_assoc,
        List.append_assoc] at h
      obtain ⟨hhead, hrest⟩ := List.cons.inj h
      -- the first jumps are the same, so the bodies are of one length
      have hjump := congrArg Int32.toInt (Instruction.ofOpcode_inj.mp hhead).2
      rw [(Machine.toInt_jumps hle).1, (Machine.toInt_jumps hle').1] at hjump
      have hlength : (Forest.code body).length = (Forest.code body').length := by
        rw [Forest.length_code, Forest.length_code]
        omega
      obtain ⟨hcode, hlast⟩ := List.append_inj hrest hlength
      have hsame := Forest.unplaced_eq_of_code hbody hbody' hcode
      exact ⟨congrArg (Node.loop 0) hsame, (List.cons.inj hlast).2⟩

/-- A forest can be told from its code, the places of its loops apart. -/
theorem Forest.unplaced_eq_of_code {forest other : List Node} (hforest : Forest.Fits forest)
    (hother : Forest.Fits other) (h : Forest.code forest = Forest.code other) :
    Forest.unplaced forest = Forest.unplaced other := by
  cases forest with
  | nil =>
    cases other with
    | nil => rfl
    | cons node' rest' =>
      exact absurd (List.append_eq_nil_iff.mp h.symm).1 node'.code_ne_nil
  | cons node rest =>
    cases other with
    | nil => exact absurd (List.append_eq_nil_iff.mp h).1 node.code_ne_nil
    | cons node' rest' =>
      obtain ⟨hfits, hrest⟩ := hforest
      obtain ⟨hfits', hrest'⟩ := hother
      obtain ⟨hnode, hcode⟩ := Node.unplaced_eq_of_code_append hfits hfits' h
      rw [Forest.unplaced, Forest.unplaced, hnode, Forest.unplaced_eq_of_code hrest hrest' hcode]

end

/-! ### Places of loops -/

mutual

theorem Node.unplaced_eq_relocate (node : Node) : node.unplaced = node.relocate fun _ => 0 := by
  cases node with
  | leaf action argument => rfl
  | loop offset body => exact congrArg (Node.loop 0) (Forest.unplaced_eq_relocate body)

theorem Forest.unplaced_eq_relocate (forest : List Node) :
    Forest.unplaced forest = Forest.relocate (fun _ => 0) forest := by
  cases forest with
  | nil => rfl
  | cons node rest =>
    rw [Forest.unplaced, Forest.relocate, Node.unplaced_eq_relocate,
      Forest.unplaced_eq_relocate rest]

end

/-- A forest has the code that it has with every loop at the beginning of the text. -/
theorem Forest.flatten_unplaced {forest : Forest} {code : List Instruction} :
    Forest.flatten (Forest.unplaced forest) = .ok code ↔ forest.flatten = .ok code := by
  rw [unplaced_eq_relocate, flatten_relocate]
  cases forest.flatten with
  | error error => exact iff_of_false nofun nofun
  | ok found => exact Iff.rfl

/-- Flattening puts code together from that of its parts.  A sequence is flattened part by part, the
code of a node is the same behind any other code, a leaf is one instruction, and a loop is its body
between two jumps, the first of which leads behind the second and the second to the body.  The code
of a forest is the code of no other one, up to the places of its loops. -/
theorem flatten_compositional :
    (∀ front back : Forest,
      Forest.flatten (front ++ back) = do return (← front.flatten) ++ (← back.flatten)) ∧
    (∀ (code : Array Instruction) (node : Node),
      node.emit code = (Forest.flatten [node]).map (code ++ ·.toArray)) ∧
    (∀ action argument, Forest.flatten [.leaf action argument] =
      .ok [.ofOpcode (.ofAction action) argument]) ∧
    (∀ offset body code, Forest.flatten [.loop offset body] = .ok code ↔
      ∃ inner head last, Forest.flatten body = .ok inner ∧ JumpsAround inner.length head last ∧
        code = head :: (inner ++ [last])) ∧
    ∀ (forest other : Forest) (code : List Instruction), forest.flatten = .ok code →
      (other.flatten = .ok code ↔ Forest.unplaced other = Forest.unplaced forest) := by
  refine ⟨Forest.flatten_append, Node.emit_eq_flatten, fun _ _ => rfl,
    fun _ _ _ => Forest.flatten_loop, fun forest other code h => ⟨fun hother => ?_, fun hsame => ?_⟩⟩
  · obtain ⟨hcode, hfits⟩ := Forest.flatten_code h
    obtain ⟨hcode', hfits'⟩ := Forest.flatten_code hother
    exact Forest.unplaced_eq_of_code hfits' hfits (hcode'.symm.trans hcode)
  · rw [← Forest.flatten_unplaced, hsame, Forest.flatten_unplaced]
    exact h

/-- The forest of `[[]+]`, at two places of a text, and that of `[[]]+`. -/
theorem flatten_compositional_moved :
    let forest : Forest := [.loop 0 [.loop 1 [], .leaf .addValue 1]]
    let moved : Forest := [.loop 5 [.loop 8 [], .leaf .addValue 1]]
    let other : Forest := [.loop 0 [.loop 1 []], .leaf .addValue 1]
    let code : List Instruction := [.ofOpcode .jumpIfZero 5, .ofOpcode .jumpIfZero 2,
      .ofOpcode .jumpIfNonzero 0, .ofOpcode .addValue 1, .ofOpcode .jumpIfNonzero (-3)]
    forest.flatten = .ok code ∧ moved.flatten = .ok code ∧
      Forest.unplaced moved = Forest.unplaced forest ∧ Forest.flatten other ≠ .ok code ∧
      Forest.flatten (forest ++ moved) = .ok (code ++ code) ∧
      ∃ inner head last, Forest.flatten [.loop 1 [], .leaf .addValue 1] = .ok inner ∧
        JumpsAround inner.length head last ∧ code = head :: (inner ++ [last]) := by
  intro forest moved other code
  have hforest : forest.flatten = .ok code := rfl
  have hmoved : moved.flatten = .ok code := rfl
  obtain ⟨happend, -, -, hloop, htold⟩ := flatten_compositional
  refine ⟨hforest, hmoved, (htold forest moved code hforest).mp hmoved, fun hother => ?_, ?_,
    (hloop _ _ code).mp hforest⟩
  · have hsame := (htold forest other code hforest).mp hother
    cases congrArg List.length hsame
  · rw [happend, hforest, hmoved]
    rfl

end TapeMachine
