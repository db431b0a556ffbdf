import TapeMachine.Proofs.Source.Brackets
import TapeMachine.Proofs.Source.Spelling

/-!
# TapeMachine.Proofs.Source.Transcript — what a scan makes of the tokens it reads

A forest records a token sequence if the commands of the tokens spell it and each loop stands where
its opening bracket stands (`Recorded`).  Whether a command joins the newest node depends on the
command before it and on that node; the two always agree (`Scan.Consistent`), and so what a scan
does with one token can be said in terms of its bodies alone (`Consistent.step`).  A scan has one
body for each open loop: the innermost records the tokens from the bracket of that loop on, and the
bodies around it those before that bracket.  By induction, what has been read is recorded
(`hasRead_of_foldlM`).
-/

namespace TapeMachine

/-- The action of a leaf. -/
def Node.action? : Node → Option Action
  | .leaf action _ => some action
  | .loop _ _ => none

/-- The action of the first node. -/
def Forest.action? (forest : List Node) : Option Action := forest.head?.bind Node.action?

/-! ### One token -/

namespace Forest

variable {action : Action} {change : Int} {offset : Nat} {body older : Forest}
  {last : Option Command}

theorem extendRun_join (hlast : last.bind Command.action? = some action) {total total' : Int32}
    (htotal : total'.toInt = total.toInt + change) :
    extendRun action change offset last (.leaf action total :: older) =
      .ok (.leaf action total' :: older) := by
  have hword := int32OfInt?_eq_some_iff.mpr htotal
  unfold extendRun
  dsimp only
  rw [if_pos ⟨hlast, rfl⟩, hword]

theorem extendRun_start (h : action? body ≠ some action) :
    extendRun action change offset last body = .ok (.leaf action (Int32.ofInt change) :: body) := by
  unfold extendRun
  split
  · rename_i newest total older
    rw [if_neg fun heq => h (congrArg some heq.2)]
  · rfl

/-- What one more command makes of a body that is kept newest first. -/
inductive Extended (action : Action) (change : Int) (offset : Nat) :
    Forest → Except SourceError Forest → Prop
  | join {total total' : Int32} {older : Forest} (htotal : total'.toInt = total.toInt + change) :
      Extended action change offset (.leaf action total :: older)
        (.ok (.leaf action total' :: older))
  | overflow {total : Int32} {older : Forest}
      (hword : int32OfInt? (total.toInt + change) = none) :
      Extended action change offset (.leaf action total :: older) (.error (.overflow offset))
  | start {body : Forest} (h : action? body ≠ some action) :
      Extended action change offset body (.ok (.leaf action (Int32.ofInt change) :: body))

/-- Where the command read last tells the action of the newest node, that action decides. -/
theorem extended (action : Action) (change : Int) (offset : Nat)
    (hlast : last.bind Command.action? = action? body) :
    Extended action change offset body (extendRun action change offset last body) := by
  by_cases h : action? body = some action
  · rw [h] at hlast
    rcases body with _ | ⟨_ | _, older⟩ <;> cases h
    rename_i total
    cases hword : int32OfInt? (total.toInt + change) with
    | some total' =>
      have htotal := int32OfInt?_eq_some_iff.mp hword
      rw [extendRun_join hlast htotal]
      exact .join htotal
    | none =>
      unfold extendRun
      dsimp only
      rw [if_pos ⟨hlast, rfl⟩, hword]
      exact .overflow hword
  · rw [extendRun_start h]
    exact .start h

theorem Extended.action? {body' : Forest} (h : Extended action change offset body (.ok body')) :
    Forest.action? body' = some action := by
  cases h <;> rfl

namespace Scan

variable {scan scan' : Scan} {token : Token}

/-- The newest node is a leaf of the action of the command read last; if that was a bracket, or
nothing has been read, it is no leaf. -/
def Consistent (scan : Scan) : Prop := scan.last.bind Command.action? = Forest.action? scan.body

/-- What a scan does with one token. -/
inductive Step (scan : Scan) (token : Token) : Except SourceError Scan → Prop
  | command {action : Action} {change : Int} {body : Forest}
      (hc : token.command.contribution? = some (action, change))
      (hbody : Extended action change token.offset scan.body (.ok body)) :
      Step scan token (.ok ⟨body, scan.enclosing, some token.command⟩)
  | overflow {action : Action} {change : Int} {error : SourceError}
      (hc : token.command.contribution? = some (action, change))
      (hbody : Extended action change token.offset scan.body (.error error)) :
      Step scan token (.error error)
  | enter (hstart : token.command = .loopStart) :
      Step scan token (.ok ⟨[], (token.offset, scan.body) :: scan.enclosing, some token.command⟩)
  | leave {start : Nat} {around : Forest} {outer : List (Nat × Forest)}
      (hend : token.command = .loopEnd) (henclosing : scan.enclosing = (start, around) :: outer) :
      Step scan token
        (.ok ⟨.loop start scan.body.reverse :: around, outer, some token.command⟩)
  | excess (hend : token.command = .loopEnd) (henclosing : scan.enclosing = []) :
      Step scan token (.error (.unmatchedClose token.offset))

theorem Consistent.step (h : scan.Consistent) (token : Token) :
    Step scan token (scan.read token) := by
  unfold Scan.read
  cases hc : token.command.contribution? with
  | some pair =>
    obtain ⟨action, change⟩ := pair
    have hextended := extended action change token.offset h
    dsimp only
    cases hbody : extendRun action change token.offset scan.last scan.body with
    | ok body =>
      rw [hbody] at hextended
      exact .command hc hextended
    | error error =>
      rw [hbody] at hextended
      exact .overflow hc hextended
  | none =>
    dsimp only
    by_cases hstart : token.command = .loopStart
    · rw [if_pos hstart]
      exact .enter hstart
    · have hend : token.command = .loopEnd := by
        cases hcommand : token.command <;> rw [hcommand] at hc hstart <;>
          first | rfl | exact absurd rfl hstart | cases hc
      rw [if_neg hstart]
      split
      · exact .leave hend ‹_›
      · exact .excess hend ‹_›

theorem consistent_start : start.Consistent := rfl

theorem Consistent.read (h : scan.Consistent) (hread : scan.read token = .ok scan') :
    scan'.Consistent := by
  have hstep := h.step token
  rw [hread] at hstep
  unfold Consistent
  cases hstep with
  | command hc hbody => exact (Command.action?_of_contribution? hc).trans hbody.action?.symm
  | enter hstart => exact congrArg Command.action? hstart
  | leave hend henclosing => exact congrArg Command.action? hend

end Scan

end Forest

/-! ### What a forest records -/

/-- A forest that stands for a sequence of tokens. -/
inductive Recorded : List Token → List Node → Prop
  | nil : Recorded [] []
  | leaf {action : Action} {run text : List Token} {argument : Int32} {forest : List Node}
      (hrun : Run action (run.map Token.command) argument) (hrest : Recorded text forest) :
      Recorded (run ++ text) (.leaf action argument :: forest)
  | loop {start stop : Token} {inner text : List Token} {body forest : List Node}
      (hstart : start.command = .loopStart) (hstop : stop.command = .loopEnd)
      (hbody : Recorded inner body) (hrest : Recorded text forest) :
      Recorded (start :: (inner ++ [stop]) ++ text) (.loop start.offset body :: forest)

namespace Recorded

variable {text front back : List Token} {forest before behind : List Node}

theorem spells (h : Recorded text forest) : Spells (text.map Token.command) forest := by
  induction h with
  | nil => exact .nil
  | leaf hrun hrest ih =>
    rw [List.map_append]
    exact .leaf hrun ih
  | loop hstart hstop hbody hrest ihbody ih =>
    rw [List.map_append, List.map_cons, List.map_append, List.map_singleton, hstart, hstop]
    exact .loop ihbody ih

theorem append (hf : Recorded front before) (hb : Recorded back behind) :
    Recorded (front ++ back) (before ++ behind) := by
  induction hf with
  | nil => exact hb
  | leaf hrun hrest ih =>
    rw [List.append_assoc, List.cons_append]
    exact .leaf hrun ih
  | loop hstart hstop hbody hrest ihbody ih =>
    rw [List.append_assoc, List.cons_append]
    exact .loop hstart hstop hbody ih

/-- Each part of a forest has its own part of the text. -/
theorem split (h : Recorded text (before ++ behind)) :
    ∃ front back, text = front ++ back ∧ Recorded front before ∧ Recorded back behind := by
  induction before generalizing text with
  | nil => exact ⟨[], text, rfl, .nil, h⟩
  | cons node nodes ih =>
    rw [List.cons_append] at h
    cases h with
    | leaf hrun hrest =>
      obtain ⟨front, back, rfl, hf, hb⟩ := ih hrest
      exact ⟨_, back, (List.append_assoc _ _ _).symm, .leaf hrun hf, hb⟩
    | loop hstart hstop hbody hrest =>
      obtain ⟨front, back, rfl, hf, hb⟩ := ih hrest
      exact ⟨_, back, (List.append_assoc _ _ _).symm, .loop hstart hstop hbody hf, hb⟩

/-- The newest leaf of a body has its own run at the end of the text. -/
theorem split_leaf {action : Action} {total : Int32} {older : Forest}
    (h : Recorded text (Node.leaf action total :: older).reverse) : ∃ front run,
      text = front ++ run ∧ Recorded front older.reverse ∧
        Run action (run.map Token.command) total := by
  rw [List.reverse_cons] at h
  obtain ⟨front, back, rfl, hfront, hback⟩ := h.split
  cases hback with
  | leaf hrun hrest =>
    cases hrest
    exact ⟨front, _, by rw [List.append_nil], hfront, hrun⟩

theorem append_leaf {action : Action} {run : List Token} {argument : Int32}
    (h : Recorded text forest) (hrun : Run action (run.map Token.command) argument) :
    Recorded (text ++ run) (forest ++ [.leaf action argument]) := by
  rw [← List.append_nil run]
  exact h.append (.leaf hrun .nil)

/-- A command that adds to a body, kept newest first, is one more command of its text. -/
theorem extended {body body' : Forest} {token : Token} {action : Action} {change : Int}
    {offset : Nat} (h : Recorded text body.reverse)
    (hc : token.command.contribution? = some (action, change))
    (hbody : Forest.Extended action change offset body (.ok body')) :
    Recorded (text ++ [token]) body'.reverse := by
  cases hbody with
  | join htotal =>
    obtain ⟨front, run, rfl, hfront, hrun⟩ := h.split_leaf
    have hlonger := hrun.extend hc htotal
    rw [← List.map_singleton, ← List.map_append] at hlonger
    rw [List.append_assoc, List.reverse_cons]
    exact hfront.append_leaf hlonger
  | start =>
    rw [List.reverse_cons]
    exact h.append_leaf (.single hc)

end Recorded

/-- Commands of one action are no brackets. -/
theorem balanced_of_action {action : Action} {run : List Token}
    (h : ∀ token ∈ run, token.command.action? = some action) : Balanced run := by
  refine balanced_of_bracketless fun token hmem => ?_
  have haction := h token hmem
  constructor <;> intro hbracket <;> rw [hbracket] at haction <;> cases haction

/-- A recorded sequence closes what it opens. -/
theorem Recorded.balanced {tokens : List Token} {forest : List Node} (h : Recorded tokens forest) :
    Balanced tokens := by
  induction h with
  | nil => exact balanced_nil
  | leaf hrun hrest ih =>
    have haction := hrun.action
    rw [List.forall_mem_map] at haction
    exact (balanced_of_action haction).append ih
  | loop hstart hstop hbody hrest ihbody ih => exact (ihbody.loop hstart hstop).append ih

/-! ### What a scan has read -/

namespace Forest

namespace Scan

/-- The tokens that a scan has read, with its innermost body and the loops still open. -/
def Follows : List Token → Forest → List (Nat × Forest) → Prop
  | seen, body, [] => Recorded seen body.reverse
  | seen, body, (start, around) :: outer =>
    ∃ before bracket inner, seen = before ++ bracket :: inner ∧ bracket.command = .loopStart ∧
      bracket.offset = start ∧ Recorded inner body.reverse ∧ Follows before around outer

variable {seen more : List Token} {body body' : Forest} {enclosing : List (Nat × Forest)}
  {scan scan' : Scan} {token : Token}

/-- The innermost body records the last tokens read. -/
theorem Follows.inner (h : Follows seen body enclosing) :
    ∃ before inner, seen = before ++ inner ∧ Recorded inner body.reverse := by
  rcases enclosing with _ | ⟨⟨start, around⟩, outer⟩
  · exact ⟨[], seen, rfl, h⟩
  · obtain ⟨before, bracket, inner, rfl, -, -, hinner, -⟩ := h
    exact ⟨before ++ [bracket], inner, List.append_cons _ _ _, hinner⟩

/-- The text of the innermost body can be exchanged. -/
theorem Follows.extend (h : Follows seen body enclosing)
    (hmore : ∀ text, Recorded text body.reverse → Recorded (text ++ more) body'.reverse) :
    Follows (seen ++ more) body' enclosing := by
  rcases enclosing with _ | ⟨⟨start, around⟩, outer⟩
  · exact hmore seen h
  · obtain ⟨before, bracket, inner, rfl, hstart, hoffset, hinner, hbefore⟩ := h
    refine ⟨before, bracket, inner ++ more, ?_, hstart, hoffset, hmore inner hinner, hbefore⟩
    rw [List.append_assoc, List.cons_append]

/-- The scan has read these tokens. -/
structure HasRead (seen : List Token) (scan : Scan) : Prop where
  consistent : scan.Consistent
  follows : Follows seen scan.body scan.enclosing

theorem HasRead.read (h : HasRead seen scan) (hread : scan.read token = .ok scan') :
    HasRead (seen ++ [token]) scan' := by
  refine ⟨h.consistent.read hread, ?_⟩
  have hfollows := h.follows
  have hstep := h.consistent.step token
  rw [hread] at hstep
  cases hstep with
  | command hc hbody => exact hfollows.extend fun text htext => htext.extended hc hbody
  | enter hstart => exact ⟨seen, token, [], rfl, hstart, rfl, .nil, hfollows⟩
  | leave hend henclosing =>
    rw [henclosing] at hfollows
    obtain ⟨before, bracket, inner, rfl, hstart, rfl, hinner, hbefore⟩ := hfollows
    rw [List.append_assoc, List.cons_append]
    refine hbefore.extend fun text htext => ?_
    rw [List.reverse_cons, ← List.append_nil (bracket :: _)]
    exact htext.append (.loop hstart hend hinner .nil)

/-- What every token that is read keeps holds of the whole that is read. -/
theorem holds_foldlM {Holds : List Token → Scan → Prop}
    (hkeeps : ∀ seen scan token scan', Holds seen scan → scan.read token = .ok scan' →
      Holds (seen ++ [token]) scan') (tokens : List Token) (h : Holds seen scan)
    (hread : tokens.foldlM Scan.read scan = .ok scan') : Holds (seen ++ tokens) scan' := by
  induction tokens generalizing seen scan with
  | nil =>
    cases hread
    rw [List.append_nil]
    exact h
  | cons token tokens ih =>
    rw [List.foldlM_cons] at hread
    cases hone : scan.read token with
    | error error =>
      rw [hone] at hread
      cases hread
    | ok next =>
      rw [hone] at hread
      rw [List.append_cons]
      exact ih (hkeeps seen scan token next h hone) hread

theorem hasRead_of_foldlM {tokens : List Token} (hread : tokens.foldlM Scan.read start = .ok scan) :
    HasRead tokens scan :=
  @holds_foldlM [] start scan HasRead (fun _ _ _ _ h hone => h.read hone) tokens
    ⟨consistent_start, Recorded.nil⟩ hread

end Scan

/-- The forest of a token sequence is the outermost body of a scan that has closed all its loops. -/
theorem ofTokens_eq_ok {tokens : List Token} {forest : Forest} (h : ofTokens tokens = .ok forest) :
    ∃ body last, tokens.foldlM Scan.read .start = .ok ⟨body, [], last⟩ ∧ forest = body.reverse := by
  unfold ofTokens at h
  cases hread : tokens.foldlM Scan.read .start with
  | error error =>
    rw [hread] at h
    cases h
  | ok scan =>
    rw [hread] at h
    obtain ⟨body, _ | ⟨⟨start, around⟩, outer⟩, last⟩ := scan
    · cases h
      exact ⟨body, last, rfl, rfl⟩
    · cases h

end Forest

theorem recorded_tokens {tokens : List Token} {forest : Forest}
    (h : Forest.ofTokens tokens = .ok forest) : Recorded tokens forest := by
  obtain ⟨body, last, hread, rfl⟩ := Forest.ofTokens_eq_ok h
  exact (Forest.Scan.hasRead_of_foldlM hread).follows

/-- The commands of a source text spell its forest. -/
theorem spells_source {source : List UInt8} {forest : Forest}
    (h : Forest.ofSource source = .ok forest) : Spells (commands source) forest := by
  rw [← map_command_tokens]
  exact (recorded_tokens h).spells

end TapeMachine
