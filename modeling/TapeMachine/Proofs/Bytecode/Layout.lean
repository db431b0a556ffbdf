import TapeMachine.Proofs.Source.Structured

/-!
# TapeMachine.Proofs.Bytecode.Layout — where the instructions of a node are

`Forest.code` says what the instructions of a forest are without saying how they are put together:
the code of a loop is that of its body between two jumps.  Flattening adds this code to what is
there already and changes nothing of that (`emit_code`), which is why the code of a node can be
found again at the place of the node.
-/

namespace TapeMachine

mutual

/-- The instructions of a node. -/
def Node.code : Node → List Instruction
  | .leaf action argument => [.ofOpcode (.ofAction action) argument]
  | .loop _ body =>
    .ofOpcode .jumpIfZero (Int32.ofNat (Forest.size body + 2)) ::
      (Forest.code body ++ [.ofOpcode .jumpIfNonzero (Int32.ofInt (-Forest.size body))])

/-- The instructions of a forest. -/
def Forest.code : List Node → List Instruction
  | [] => []
  | node :: rest => node.code ++ Forest.code rest

/-- Whether the jumps of all loops of a node are words of 32 bits. -/
def Node.Fits : Node → Prop
  | .leaf _ _ => True
  | .loop _ body => Forest.size body + 2 ≤ Int32.maxValue.toInt.toNat ∧ Forest.Fits body

/-- Whether the jumps of all loops of a forest are words of 32 bits. -/
def Forest.Fits : List Node → Prop
  | [] => True
  | node :: rest => node.Fits ∧ Forest.Fits rest

end

mutual

theorem Node.length_code (node : Node) : node.code.length = node.size := by
  cases node with
  | leaf action argument => rfl
  | loop offset body =>
    have hbody := Forest.length_code body
    rw [Node.code, Node.size, List.length_cons, List.length_append, hbody]
    rfl

theorem Forest.length_code (forest : List Node) :
    (Forest.code forest).length = Forest.size forest := by
  cases forest with
  | nil => rfl
  | cons node rest =>
    have hnode := Node.length_code node
    have hrest := Forest.length_code rest
    rw [Forest.code, Forest.size, List.length_append, hnode, hrest]

end

/-! ### Flattening -/

/-- The code of a body is as long as the body is large. -/
theorem Forest.size_body {body : List Node} {before inner : Array Instruction} {head : Instruction}
    (h : inner.toList = (before.push head).toList ++ Forest.code body) :
    inner.size - before.size - 1 = Forest.size body := by
  have hlength := congrArg List.length h
  rw [Array.toList_push, List.length_append, List.length_append, Forest.length_code,
    Array.length_toList, Array.length_toList, List.length_singleton] at hlength
  omega

mutual

/-- Flattening a node adds its code to the code before it. -/
theorem Node.emit_code {node : Node} {before after : Array Instruction}
    (h : node.emit before = .ok after) :
    after.toList = before.toList ++ node.code ∧ node.Fits := by
  cases node with
  | leaf action argument =>
    cases h
    exact ⟨Array.toList_push, trivial⟩
  | loop offset body =>
    rw [Node.emit] at h
    cases hbody : Forest.emit (before.push (.ofOpcode .jumpIfZero 0)) body with
    | error error =>
      rw [hbody] at h
      cases h
    | ok inner =>
      obtain ⟨hinner, hfits⟩ := Forest.emit_code hbody
      rw [hbody] at h
      dsimp only [bind, Except.bind] at h
      rw [Forest.size_body hinner] at h
      by_cases hle : Forest.size body + 2 ≤ Int32.maxValue.toInt.toNat
      · rw [if_pos hle] at h
        cases h
        refine ⟨?_, hle, hfits⟩
        rw [Array.toList_push, Array.toList_setIfInBounds, hinner, Array.toList_push,
          ← Array.length_toList, List.append_assoc, List.set_append_right _ _ (Nat.le_refl _),
          Nat.sub_self, Node.code, List.append_assoc]
        rfl
      · rw [if_neg hle] at h
        cases h

theorem Forest.emit_code {forest : List Node} {before after : Array Instruction}
    (h : Forest.emit before forest = .ok after) :
    after.toList = before.toList ++ Forest.code forest ∧ Forest.Fits forest := by
  cases forest with
  | nil =>
    cases h
    exact ⟨(List.append_nil _).symm, trivial⟩
  | cons node rest =>
    rw [Forest.emit] at h
    cases hnode : node.emit before with
    | error error =>
      rw [hnode] at h
      cases h
    | ok inner =>
      rw [hnode] at h
      obtain ⟨hinner, hfits⟩ := Node.emit_code hnode
      obtain ⟨hafter, hfits'⟩ := @Forest.emit_code rest inner after h
      refine ⟨?_, hfits, hfits'⟩
      rw [hafter, hinner, Forest.code, List.append_assoc]

end

theorem Forest.flatten_code {forest : Forest} {code : List Instruction}
    (h : forest.flatten = .ok code) : code = Forest.code forest ∧ Forest.Fits forest := by
  unfold Forest.flatten at h
  cases hemit : Forest.emit #[] forest with
  | error error =>
    rw [hemit] at h
    cases h
  | ok out =>
    rw [hemit] at h
    cases h
    exact Forest.emit_code hemit

theorem compile_eq_ok {source : List UInt8} {program : Program}
    (h : compile source = .ok program) : ∃ forest code,
      Forest.ofSource source = .ok forest ∧ forest.flatten = .ok code ∧ program = .ofList code := by
  unfold compile at h
  cases hforest : Forest.ofSource source with
  | error error =>
    rw [hforest] at h
    cases h
  | ok forest =>
    rw [hforest] at h
    dsimp only [bind, Except.bind] at h
    cases hcode : forest.flatten with
    | error error =>
      rw [hcode] at h
      cases h
    | ok code =>
      rw [hcode] at h
      cases h
      exact ⟨forest, code, rfl, hcode, rfl⟩

/-! ### Forests that can be flattened -/

mutual

/-- The jumps of a node that is short enough as a whole are words of 32 bits. -/
theorem Node.fits_of_size_le {node : Node} (h : node.size ≤ Int32.maxValue.toInt.toNat) :
    node.Fits := by
  cases node with
  | leaf action argument => exact trivial
  | loop offset body =>
    rw [Node.size] at h
    exact ⟨h, Forest.fits_of_size_le (by omega)⟩

theorem Forest.fits_of_size_le {forest : List Node}
    (h : Forest.size forest ≤ Int32.maxValue.toInt.toNat) : Forest.Fits forest := by
  cases forest with
  | nil => exact trivial
  | cons node rest =>
    rw [Forest.size] at h
    exact ⟨Node.fits_of_size_le (by omega), Forest.fits_of_size_le (by omega)⟩

end

mutual

theorem Node.exists_emit {node : Node} (h : node.Fits) (before : Array Instruction) :
    ∃ after, node.emit before = .ok after := by
  cases node with
  | leaf action argument => exact ⟨_, rfl⟩
  | loop offset body =>
    obtain ⟨hle, hbody⟩ := h
    obtain ⟨inner, hinner⟩ := Forest.exists_emit hbody (before.push (.ofOpcode .jumpIfZero 0))
    rw [Node.emit, hinner]
    dsimp only [bind, Except.bind]
    rw [Forest.size_body (Forest.emit_code hinner).1, if_pos hle]
    exact ⟨_, rfl⟩

theorem Forest.exists_emit {forest : List Node} (h : Forest.Fits forest)
    (before : Array Instruction) : ∃ after, Forest.emit before forest = .ok after := by
  cases forest with
  | nil => exact ⟨before, rfl⟩
  | cons node rest =>
    obtain ⟨inner, hinner⟩ := Node.exists_emit h.1 before
    obtain ⟨after, hafter⟩ := Forest.exists_emit h.2 inner
    refine ⟨after, ?_⟩
    rw [Forest.emit, hinner]
    exact hafter

end

/-- A forest is flattened to its code if its jumps are words of 32 bits. -/
theorem Forest.flatten_of_fits {forest : Forest} (h : Forest.Fits forest) :
    forest.flatten = .ok (Forest.code forest) := by
  obtain ⟨out, hout⟩ := Forest.exists_emit h #[]
  unfold Forest.flatten
  rw [hout]
  exact congrArg Except.ok (Forest.emit_code hout).1

end TapeMachine
