import TapeMachine.Proofs.Source.Naive
import TapeMachine.Proofs.Source.Structured

/-!
# TapeMachine.Proofs.Source.Spelling — which commands a forest stands for

`Spells text forest` says that a sequence of commands is a way to write a forest down: each leaf is
a run of commands of its action with its argument as their net effect, and each loop is its body
between two brackets.  What is spelled so is balanced, in either direction, and not shorter than the
code of the forest.
-/

namespace TapeMachine

/-- A run of commands of one action, with its net effect in 32 bits. -/
inductive Run (action : Action) : List Command → Int32 → Prop
  | single {command : Command} {change : Int} (hc : command.contribution? = some (action, change)) :
      Run action [command] (Int32.ofInt change)
  | extend {run : List Command} {total total' : Int32} {command : Command} {change : Int}
      (hrun : Run action run total) (hc : command.contribution? = some (action, change))
      (htotal : total'.toInt = total.toInt + change) : Run action (run ++ [command]) total'

/-- A sequence of commands that writes a forest down. -/
inductive Spells : List Command → List Node → Prop
  | nil : Spells [] []
  | leaf {action : Action} {run text : List Command} {argument : Int32} {forest : List Node}
      (hrun : Run action run argument) (hrest : Spells text forest) :
      Spells (run ++ text) (.leaf action argument :: forest)
  | loop {offset : Nat} {inner text : List Command} {body forest : List Node}
      (hbody : Spells inner body) (hrest : Spells text forest) :
      Spells (.loopStart :: (inner ++ [.loopEnd]) ++ text) (.loop offset body :: forest)

theorem Command.action?_of_contribution? {command : Command} {action : Action} {change : Int}
    (h : command.contribution? = some (action, change)) : command.action? = some action := by
  unfold action?
  rw [h]
  rfl

/-- The change of one command is a 32-bit word. -/
theorem toInt_change {command : Command} {action : Action} {change : Int}
    (h : command.contribution? = some (action, change)) :
    (Int32.ofInt change).toInt = change ∧ (change = 1 ∨ change = -1) := by
  cases command <;> cases h <;> decide

/-- Reading and writing are only ever counted up. -/
theorem change_of_count {command : Command} {action : Action} {change : Int}
    (hc : command.contribution? = some (action, change))
    (haction : action = .readByte ∨ action = .writeByte) : change = 1 := by
  cases command <;> cases hc <;> first | rfl | exact absurd haction (by decide)

theorem Run.action {action : Action} {run : List Command} {total : Int32}
    (h : Run action run total) : ∀ command ∈ run, command.action? = some action := by
  induction h with
  | single hc =>
    rw [List.forall_mem_singleton]
    exact Command.action?_of_contribution? hc
  | extend hrun hc htotal ih =>
    rw [List.forall_mem_append, List.forall_mem_singleton]
    exact ⟨ih, Command.action?_of_contribution? hc⟩

/-! ### Brackets and lengths -/

theorem Run.length_pos {action : Action} {run : List Command} {total : Int32}
    (h : Run action run total) : 1 ≤ run.length := by
  cases h with
  | single hc => exact Nat.le_refl 1
  | extend hrun hc htotal =>
    rw [List.length_append, List.length_singleton]
    omega

/-- A run holds no brackets, so a search passes over it. -/
theorem Run.passes {enter leave : Command} {action : Action} {run : List Command} {total : Int32}
    (h : Run action run total) (he : enter.contribution? = none)
    (hl : leave.contribution? = none) :
    Naive.Passes enter leave run ∧ Naive.Passes enter leave run.reverse := by
  have hone : ∀ {command : Command} {change : Int},
      command.contribution? = some (action, change) → Naive.Passes enter leave [command] := by
    intro command change hc
    refine Naive.passes_single ?_ ?_
    · rintro rfl
      rw [he] at hc
      cases hc
    · rintro rfl
      rw [hl] at hc
      cases hc
  induction h with
  | single hc => exact ⟨hone hc, hone hc⟩
  | extend hrun hc htotal ih =>
    rw [List.reverse_append]
    exact ⟨ih.1.append (hone hc), (hone hc).append ih.2⟩

/-- Every loop of a spelled text is closed, whichever end the text is read from. -/
theorem Spells.passes {text : List Command} {forest : List Node} (h : Spells text forest) :
    Naive.Passes .loopStart .loopEnd text ∧ Naive.Passes .loopEnd .loopStart text.reverse := by
  induction h with
  | nil => exact ⟨Naive.passes_nil, Naive.passes_nil⟩
  | leaf hrun hrest ih =>
    rw [List.reverse_append]
    exact ⟨(hrun.passes rfl rfl).1.append ih.1, ih.2.append (hrun.passes rfl rfl).2⟩
  | loop hbody hrest ihbody ih =>
    rw [List.reverse_append, List.reverse_cons, List.reverse_append, List.reverse_singleton,
      List.singleton_append, List.cons_append]
    exact ⟨(ihbody.1.loop nofun).append ih.1, ih.2.append (ihbody.2.loop nofun)⟩

/-- No instruction takes less than a command. -/
theorem Spells.size_le {text : List Command} {forest : List Node} (h : Spells text forest) :
    Forest.size forest ≤ text.length := by
  induction h with
  | nil => exact Nat.le_refl 0
  | leaf hrun hrest ih =>
    have hpos := hrun.length_pos
    rw [Forest.size, Node.size, List.length_append]
    omega
  | loop hbody hrest ihbody ih =>
    rw [Forest.size, Node.size, List.length_append, List.length_cons, List.length_append,
      List.length_singleton]
    omega

/-- No command changes the net effect of its run by more than one. -/
theorem Run.toInt_bounds {action : Action} {run : List Command} {total : Int32}
    (h : Run action run total) : -run.length ≤ total.toInt ∧ total.toInt ≤ run.length := by
  induction h with
  | single hc =>
    obtain ⟨hword, hchange⟩ := toInt_change hc
    rw [hword, List.length_singleton]
    omega
  | extend hrun hc htotal ih =>
    have hchange := (toInt_change hc).2
    rw [htotal, List.length_append, List.length_singleton]
    omega

/-! ### Source texts -/

/-- The commands of a source text, without its comments. -/
def commands (source : List UInt8) : List Command := source.filterMap Command.ofByte?

theorem map_command_tokens (source : List UInt8) :
    (tokens source).map Token.command = commands source := by
  have hpair : ∀ pair : UInt8 × Nat,
      (((Command.ofByte? pair.1).map fun command => (⟨command, pair.2⟩ : Token)).map
        Token.command) = Command.ofByte? pair.1 := by
    intro pair
    cases Command.ofByte? pair.1 <;> rfl
  unfold tokens commands
  rw [List.map_filterMap, ← List.zipIdx_map_fst 0 source, List.filterMap_map,
    List.zipIdx_map_fst]
  congr 1
  funext pair
  exact hpair pair

end TapeMachine
