import Mathlib.Data.List.TakeWhile
import TapeMachine.Proofs.Source.Transcript

/-!
# TapeMachine.Proofs.Source.MaximalRuns — what a forest says of its tokens

`Folded` says what folding is for without saying how it is done: inside each body, every maximal run
of commands of one action is one leaf with the net effect of the run as its argument, and every loop
stands where its opening bracket stands.  A token sequence is folded to one forest at most
(`Folded.unique`).
-/

namespace TapeMachine

/-- The net effect of a run of commands. -/
def Action.net (action : Action) (run : List Command) : Int :=
  match action with
  | .addValue => (run.count .increment : Int) - run.count .decrement
  | .movePointer => (run.count .moveRight : Int) - run.count .moveLeft
  | .readByte | .writeByte => run.length

/-- The forest of a token sequence: its bracket tree, with one leaf for every maximal run. -/
inductive Folded : List Token → List Node → Prop
  | nil : Folded [] []
  | leaf {action : Action} {run text : List Token} {argument : Int32} {forest : List Node}
      (hne : run ≠ []) (hrun : ∀ token ∈ run, token.command.action? = some action)
      (hmaximal : ∀ token, text.head? = some token → token.command.action? ≠ some action)
      (hnet : argument.toInt = action.net (run.map Token.command)) (hrest : Folded text forest) :
      Folded (run ++ text) (.leaf action argument :: forest)
  | loop {start stop : Token} {inner text : List Token} {body forest : List Node}
      (hstart : start.command = .loopStart) (hstop : stop.command = .loopEnd)
      (hbody : Folded inner body) (hrest : Folded text forest) :
      Folded (start :: (inner ++ [stop]) ++ text) (.loop start.offset body :: forest)

/-! ### Net effects -/

theorem Action.net_append {action : Action} {change : Int} (run : List Command) {command : Command}
    (hc : command.contribution? = some (action, change)) :
    action.net (run ++ [command]) = action.net run + change := by
  cases command <;> cases hc <;> simp [Action.net, List.count_append] <;> omega

theorem Run.net {action : Action} {run : List Command} {total : Int32} (h : Run action run total) :
    total.toInt = action.net run := by
  induction h with
  | @single command change hc =>
    have hnet := Action.net_append [] hc
    rw [(toInt_change hc).1, ← List.nil_append [command], hnet]
    cases action <;> simp [Action.net]
  | extend hrun hc htotal ih => rw [htotal, ih, Action.net_append _ hc]

/-! ### Folding is a function -/

theorem Folded.balanced {tokens : List Token} {forest : List Node} (h : Folded tokens forest) :
    Balanced tokens := by
  induction h with
  | nil => exact balanced_nil
  | leaf hne hrun hmaximal hnet hrest ih => exact (balanced_of_action hrun).append ih
  | loop hstart hstop hbody hrest ihbody ih => exact (ihbody.loop hstart hstop).append ih

/-- A maximal run is as long as the tokens go on with its action. -/
theorem takeWhile_run {action : Action} {run text : List Token}
    (hrun : ∀ token ∈ run, token.command.action? = some action)
    (hmaximal : ∀ token, text.head? = some token → token.command.action? ≠ some action) :
    (run ++ text).takeWhile (·.command.action? = some action) = run := by
  have hstop : text.takeWhile (·.command.action? = some action) = [] := by
    cases text with
    | nil => rfl
    | cons token text =>
      rw [List.takeWhile_cons_of_neg]
      simpa using hmaximal token rfl
  rw [List.takeWhile_append_of_pos (by simpa using hrun), hstop, List.append_nil]

/-- The first node has the action of the first token. -/
theorem Folded.action? {tokens : List Token} {forest : List Node} (h : Folded tokens forest) :
    Forest.action? forest = tokens.head?.bind (·.command.action?) := by
  cases h with
  | nil => rfl
  | @leaf action run text argument forest hne hrun =>
    obtain ⟨token, run, rfl⟩ := List.exists_cons_of_ne_nil hne
    exact (hrun token List.mem_cons_self).symm
  | @loop start stop inner text body forest hstart =>
    show none = start.command.action?
    rw [hstart]
    rfl

/-- A token sequence is folded to one forest at most. -/
theorem Folded.unique {tokens : List Token} {forest forest' : List Node} (h : Folded tokens forest)
    (h' : Folded tokens forest') : forest' = forest := by
  have haction := h'.action?.trans h.action?.symm
  induction h generalizing forest' with
  | nil =>
    generalize htokens : ([] : List Token) = tokens at h'
    cases h' with
    | nil => rfl
    | leaf => cases haction
    | loop => cases htokens
  | @leaf action run text argument forest hne hrun hmaximal hnet hrest ih =>
    generalize htokens : run ++ text = tokens at h'
    cases h' with
    | nil => cases haction
    | @leaf action' run' text' argument' forest' hne' hrun' hmaximal' hnet' hrest' =>
      obtain rfl : action' = action := Option.some.inj haction
      have hsame : run = run' := by
        rw [← takeWhile_run hrun hmaximal, htokens, takeWhile_run hrun' hmaximal']
      subst hsame
      obtain rfl := List.append_cancel_left htokens
      rw [ih hrest' (hrest'.action?.trans hrest.action?.symm),
        Int32.toInt_inj.mp (hnet'.trans hnet.symm)]
    | loop => cases haction
  | @loop start stop inner text body forest hstart hstop hbody hrest ihbody ih =>
    generalize htokens : start :: (inner ++ [stop]) ++ text = tokens at h'
    cases h' with
    | nil => cases htokens
    | leaf => cases haction
    | @loop start' stop' inner' text' body' forest' hstart' hstop' hbody' hrest' =>
      simp only [List.cons_append, List.append_assoc, List.nil_append, List.cons.injEq] at htokens
      obtain ⟨rfl, htokens⟩ := htokens
      obtain ⟨rfl, -, rfl⟩ := hbody.balanced.inner_eq hbody'.balanced hstop hstop' htokens
      rw [ihbody hbody' (hbody'.action?.trans hbody.action?.symm),
        ih hrest' (hrest'.action?.trans hrest.action?.symm)]

end TapeMachine
