import Mathlib.Data.List.Chain
import TapeMachine.Proofs.Source.MaximalRuns

/-!
# TapeMachine.Proofs.Source.NormalForests — which forests come from a source text

In a normal forest no two leaves of one action stand side by side, and reading and writing happen at
least once.  Folding gives normal forests, and it gives all of them: a normal forest can be written
down as a source text (`Forest.source`) that is folded to it again (`folding_onto_normal`).
-/

namespace TapeMachine

/-- Whether two nodes are not leaves of one action. -/
def Node.Apart (a b : Node) : Prop := ∀ action, a.action? = some action → b.action? ≠ some action

mutual

/-- Whether reading and writing happen at least once, and bodies keep leaves of one action apart. -/
def Node.Normal : Node → Prop
  | .leaf action argument => action = .readByte ∨ action = .writeByte → 1 ≤ argument.toInt
  | .loop _ body => body.IsChain Node.Apart ∧ Forest.EachNormal body

def Forest.EachNormal : List Node → Prop
  | [] => True
  | node :: rest => node.Normal ∧ Forest.EachNormal rest

end

/-- Whether leaves of one action are kept apart, and reading and writing happen at least once. -/
structure Forest.Normal (forest : List Node) : Prop where
  apart : forest.IsChain Node.Apart
  each : Forest.EachNormal forest

mutual

/-- The node with every loop at the beginning of the text. -/
def Node.unplaced : Node → Node
  | .leaf action argument => .leaf action argument
  | .loop _ body => .loop 0 (Forest.unplaced body)

/-- The forest with every loop at the beginning of the text. -/
def Forest.unplaced : List Node → List Node
  | [] => []
  | node :: rest => node.unplaced :: Forest.unplaced rest

end

/-! ### Folding gives normal forests -/

theorem Node.Apart.symm {a b : Node} (h : a.Apart b) : b.Apart a :=
  fun action hb ha => h action ha hb

namespace Forest

variable {forest rest : List Node} {node : Node} {action : Action}

theorem eachNormal_iff : EachNormal forest ↔ ∀ node ∈ forest, node.Normal := by
  induction forest with
  | nil => simp [EachNormal]
  | cons node rest ih => rw [EachNormal, ih, List.forall_mem_cons]

theorem normal_cons : Normal (node :: rest) ↔
    node.Normal ∧ (∀ action, node.action? = some action → action? rest ≠ some action) ∧
      Normal rest := by
  have hhead : (∀ next ∈ rest.head?, node.Apart next) ↔
      ∀ action, node.action? = some action → action? rest ≠ some action := by
    cases rest with
    | nil => simp [Forest.action?]
    | cons next rest => simp [Forest.action?, Node.Apart]
  constructor
  · rintro ⟨hapart, hnode, heach⟩
    rw [List.isChain_cons, hhead] at hapart
    exact ⟨hnode, hapart.1, hapart.2, heach⟩
  · rintro ⟨hnode, hapart, hrest⟩
    refine ⟨?_, hnode, hrest.each⟩
    rw [List.isChain_cons, hhead]
    exact ⟨hapart, hrest.apart⟩

/-- It does not matter at which end a forest is begun. -/
theorem Normal.reverse (h : Normal forest) : Normal forest.reverse := by
  refine ⟨?_, ?_⟩
  · rw [List.isChain_reverse]
    exact h.apart.imp fun _ _ => Node.Apart.symm
  · rw [eachNormal_iff]
    intro node hmem
    exact eachNormal_iff.mp h.each node (List.mem_reverse.mp hmem)

theorem normal_loop {offset : Nat} {body : Forest} :
    (Node.loop offset body).Normal ↔ Normal body := by
  rw [Node.Normal]
  exact ⟨fun h => ⟨h.1, h.2⟩, fun h => ⟨h.1, h.2⟩⟩

theorem Normal.extended {change : Int} {offset : Nat} {body body' : Forest} {command : Command}
    (h : Normal body) (hc : command.contribution? = some (action, change))
    (hbody : Extended action change offset body (.ok body')) : Normal body' := by
  cases hbody with
  | join htotal =>
    rw [normal_cons] at h ⊢
    refine ⟨fun hcount => ?_, h.2⟩
    have hone := change_of_count hc hcount
    have hleast := h.1 hcount
    omega
  | start hstart =>
    rw [normal_cons]
    refine ⟨fun hcount => ?_, ?_, h⟩
    · have hword := (toInt_change hc).1
      have hone := change_of_count hc hcount
      omega
    · rintro _ ⟨⟩
      exact hstart

namespace Scan

/-- All bodies of a scan are normal. -/
structure Normal (scan : Scan) : Prop where
  consistent : scan.Consistent
  body : Forest.Normal scan.body
  enclosing : ∀ loop ∈ scan.enclosing, Forest.Normal loop.2

theorem Normal.read {scan scan' : Scan} {token : Token} (h : scan.Normal)
    (hread : scan.read token = .ok scan') : scan'.Normal := by
  have hconsistent := h.consistent.read hread
  have hstep := h.consistent.step token
  rw [hread] at hstep
  cases hstep with
  | command hc hbody => exact ⟨hconsistent, h.body.extended hc hbody, h.enclosing⟩
  | enter hstart =>
    exact ⟨hconsistent, ⟨.nil, trivial⟩, List.forall_mem_cons.mpr ⟨h.body, h.enclosing⟩⟩
  | leave hend henclosing =>
    have hall := h.enclosing
    rw [henclosing, List.forall_mem_cons] at hall
    refine ⟨hconsistent, normal_cons.mpr ⟨?_, nofun, hall.1⟩, hall.2⟩
    exact normal_loop.mpr h.body.reverse

end Scan

theorem normal_tokens {tokens : List Token} {forest : Forest} (h : ofTokens tokens = .ok forest) :
    Normal forest := by
  obtain ⟨body, last, hread, rfl⟩ := ofTokens_eq_ok h
  have hscan := @Scan.holds_foldlM [] .start _ (fun _ scan => scan.Normal)
    (fun _ _ _ _ h hone => h.read hone) tokens
    ⟨Scan.consistent_start, ⟨.nil, trivial⟩, nofun⟩ hread
  exact hscan.body.reverse

end Forest

theorem Recorded.action? {tokens : List Token} {forest : List Node} (h : Recorded tokens forest) :
    Forest.action? forest = tokens.head?.bind (·.command.action?) := by
  cases h with
  | nil => rfl
  | @leaf action run text argument forest hrun =>
    have hpos := hrun.length_pos
    rw [List.length_map] at hpos
    obtain ⟨token, run, rfl⟩ := List.exists_cons_of_length_pos hpos
    exact (hrun.action token.command List.mem_cons_self).symm
  | @loop start stop inner text body forest hstart =>
    show none = start.command.action?
    rw [hstart]
    rfl

/-- In a normal forest the runs that are recorded are maximal. -/
theorem Recorded.folded {tokens : List Token} {forest : List Node} (h : Recorded tokens forest)
    (hnormal : Forest.Normal forest) : Folded tokens forest := by
  induction h with
  | nil => exact .nil
  | @leaf action run text argument forest hrun hrest ih =>
    obtain ⟨-, hapart, hnormal⟩ := Forest.normal_cons.mp hnormal
    have haction := hrun.action
    rw [List.forall_mem_map] at haction
    have hne : run ≠ [] := by
      rintro rfl
      exact absurd hrun.length_pos (by simp)
    refine .leaf hne haction (fun token htoken heq => ?_) hrun.net (ih hnormal)
    refine hapart action rfl ?_
    rw [hrest.action?, htoken]
    exact heq
  | loop hstart hstop hbody hrest ihbody ih =>
    obtain ⟨hloop, -, hnormal⟩ := Forest.normal_cons.mp hnormal
    exact .loop hstart hstop (ihbody (Forest.normal_loop.mp hloop)) (ih hnormal)

/-! ### Every normal forest can be written down -/

/-- The commands that a net effect is written with, for an action that can be undone. -/
def strokes (up down : Command) (net : Int) : List Command :=
  if net = 0 then [up, down] else List.replicate net.toNat up ++ List.replicate (-net).toNat down

/-- The commands that a leaf is written with. -/
def Action.spelling (action : Action) (net : Int) : List Command :=
  match action with
  | .addValue => strokes .increment .decrement net
  | .movePointer => strokes .moveRight .moveLeft net
  | .readByte => List.replicate net.toNat .readByte
  | .writeByte => List.replicate net.toNat .writeByte

mutual

/-- The commands that a node is written with. -/
def Node.spelling : Node → List Command
  | .leaf action argument => action.spelling argument.toInt
  | .loop _ body => .loopStart :: (Forest.spelling body ++ [.loopEnd])

/-- The commands that a forest is written with. -/
def Forest.spelling : List Node → List Command
  | [] => []
  | node :: rest => node.spelling ++ Forest.spelling rest

end

/-- The source text of a forest. -/
def Forest.source (forest : Forest) : List UInt8 := (spelling forest).map Command.byte

theorem commands_source (forest : Forest) : commands forest.source = Forest.spelling forest := by
  unfold commands Forest.source
  rw [List.filterMap_map]
  have hbyte : Command.ofByte? ∘ Command.byte = some := funext Command.ofByte?_byte
  rw [hbyte, List.filterMap_some]

/-- A command that is repeated is a run. -/
theorem run_replicate {command : Command} {action : Action} {change : Int} {count : Nat}
    (hc : command.contribution? = some (action, change)) (hpos : 1 ≤ count) {argument : Int32}
    (hargument : argument.toInt = count * change) :
    Run action (List.replicate count command) argument := by
  obtain ⟨hword, hchange⟩ := toInt_change hc
  induction count, hpos using Nat.le_induction generalizing argument with
  | base =>
    have heq : argument = Int32.ofInt change := by
      rw [← Int32.toInt_inj, hword, hargument]
      simp
    rw [heq]
    exact .single hc
  | succ count hpos ih =>
    have hleast := argument.le_toInt
    have hgreatest := argument.toInt_lt
    have hearlier : (Int32.ofInt (count * change)).toInt = count * change := by
      rcases hchange with rfl | rfl <;>
        exact Int32.toInt_ofInt_of_le (by omega) (by omega)
    rw [List.replicate_succ']
    refine .extend (ih hearlier) hc ?_
    rw [hargument, hearlier]
    push_cast
    rw [Int.add_mul, Int.one_mul]

theorem run_strokes {up down : Command} {action : Action} (argument : Int32)
    (hup : up.contribution? = some (action, 1)) (hdown : down.contribution? = some (action, -1)) :
    Run action (strokes up down argument.toInt) argument := by
  unfold strokes
  rcases Int.lt_trichotomy argument.toInt 0 with hneg | hzero | hpos
  · have hnone : argument.toInt.toNat = 0 := by omega
    rw [if_neg (by omega), hnone, List.replicate_zero, List.nil_append]
    exact run_replicate hdown (by omega) (by omega)
  · rw [if_pos hzero]
    exact .extend (.single hup) hdown hzero
  · have hnone : (-argument.toInt).toNat = 0 := by omega
    rw [if_neg (by omega), hnone, List.replicate_zero, List.append_nil]
    exact run_replicate hup (by omega) (by omega)

theorem run_spelling {action : Action} {argument : Int32}
    (h : (Node.leaf action argument).Normal) :
    Run action (action.spelling argument.toInt) argument := by
  cases action with
  | addValue => exact run_strokes argument rfl rfl
  | movePointer => exact run_strokes argument rfl rfl
  | readByte =>
    have hone : Command.contribution? .readByte = some (.readByte, 1) := rfl
    have hleast := h (.inl rfl)
    exact run_replicate hone (by omega) (by omega)
  | writeByte =>
    have hone : Command.contribution? .writeByte = some (.writeByte, 1) := rfl
    have hleast := h (.inr rfl)
    exact run_replicate hone (by omega) (by omega)

mutual

theorem Node.spells_append {node : Node} {text : List Command} {rest : List Node}
    (h : node.Normal) (hrest : Spells text rest) :
    Spells (node.spelling ++ text) (node :: rest) := by
  cases node with
  | leaf action argument => exact .leaf (run_spelling h) hrest
  | loop offset body =>
    rw [Node.Normal] at h
    exact .loop (Forest.spells_spelling h.2) hrest

/-- A forest is written with commands that spell it. -/
theorem Forest.spells_spelling {forest : List Node} (h : Forest.EachNormal forest) :
    Spells (Forest.spelling forest) forest := by
  cases forest with
  | nil => exact .nil
  | cons node rest => exact Node.spells_append h.1 (Forest.spells_spelling h.2)

end

/-! ### What is written down is folded again -/

namespace Forest

namespace Scan

variable {scan : Scan} {token : Token}

theorem read_command {action : Action} {change : Int} {body : Forest}
    (hc : token.command.contribution? = some (action, change))
    (hbody : extendRun action change token.offset scan.last scan.body = .ok body) :
    scan.read token = .ok ⟨body, scan.enclosing, some token.command⟩ := by
  unfold Scan.read
  rw [hc]
  dsimp only
  rw [hbody]
  rfl

theorem read_start (h : token.command = .loopStart) :
    scan.read token =
      .ok ⟨[], (token.offset, scan.body) :: scan.enclosing, some token.command⟩ := by
  unfold Scan.read
  rw [h]
  rfl

theorem read_end (h : token.command = .loopEnd) {start : Nat} {around : Forest}
    {outer : List (Nat × Forest)} (henclosing : scan.enclosing = (start, around) :: outer) :
    scan.read token =
      .ok ⟨.loop start scan.body.reverse :: around, outer, some token.command⟩ := by
  unfold Scan.read
  rw [h]
  dsimp only [Command.contribution?]
  rw [henclosing]
  rfl

/-- A run of tokens makes one leaf, where no leaf of its action is newest. -/
theorem foldlM_run {action : Action} {run : List Token} {argument : Int32}
    (h : Run action (run.map Token.command) argument) (hstart : action? scan.body ≠ some action) :
    ∃ last, last.bind Command.action? = some action ∧ run.foldlM Scan.read scan =
      .ok ⟨.leaf action argument :: scan.body, scan.enclosing, last⟩ := by
  generalize hcommands : run.map Token.command = commands at h
  induction h generalizing run with
  | single hc =>
    obtain ⟨token, more, rfl, rfl, hmore⟩ := List.map_eq_cons_iff.mp hcommands
    obtain rfl := List.map_eq_nil_iff.mp hmore
    refine ⟨some token.command, Command.action?_of_contribution? hc, ?_⟩
    rw [List.foldlM_cons, read_command hc (extendRun_start hstart)]
    rfl
  | extend hrun hc htotal ih =>
    obtain ⟨front, back, rfl, rfl, hback⟩ := List.map_eq_append_iff.mp hcommands
    obtain ⟨token, more, rfl, rfl, hmore⟩ := List.map_eq_cons_iff.mp hback
    obtain rfl := List.map_eq_nil_iff.mp hmore
    obtain ⟨last, hlast, hfront⟩ := ih rfl
    refine ⟨some token.command, Command.action?_of_contribution? hc, ?_⟩
    rw [List.foldlM_append, hfront]
    dsimp only [bind, Except.bind]
    rw [List.foldlM_cons, read_command hc (extendRun_join hlast htotal)]
    rfl

/-- A loop is added to the body around it when its loop end has been read. -/
theorem foldlM_loop {start stop : Token} {inner : List Token} {body : Forest}
    {last : Option Command} (hstart : start.command = .loopStart)
    (hstop : stop.command = .loopEnd)
    (hinner : inner.foldlM Scan.read
        ⟨[], (start.offset, scan.body) :: scan.enclosing, some start.command⟩ =
      .ok ⟨body, (start.offset, scan.body) :: scan.enclosing, last⟩) :
    (start :: (inner ++ [stop])).foldlM Scan.read scan =
      .ok ⟨.loop start.offset body.reverse :: scan.body, scan.enclosing, some stop.command⟩ := by
  rw [List.foldlM_cons, read_start hstart]
  dsimp only [bind, Except.bind]
  rw [List.foldlM_append, hinner]
  dsimp only [bind, Except.bind]
  rw [List.foldlM_cons, read_end hstop rfl]
  rfl

/-- Tokens that spell a normal forest add it to the innermost body, up to the places of loops. -/
theorem foldlM_spelled {tokens : List Token} {forest : List Node}
    (h : Spells (tokens.map Token.command) forest) (hnormal : Forest.Normal forest)
    (hstart : ∀ action, action? scan.body = some action → action? forest ≠ some action) :
    ∃ folded last, tokens.foldlM Scan.read scan =
        .ok ⟨folded.reverse ++ scan.body, scan.enclosing, last⟩ ∧
      unplaced folded = unplaced forest := by
  generalize hcommands : tokens.map Token.command = commands at h
  induction h generalizing tokens scan with
  | nil =>
    obtain rfl := List.map_eq_nil_iff.mp hcommands
    exact ⟨[], scan.last, rfl, rfl⟩
  | @leaf action run text argument forest hrun hrest ih =>
    obtain ⟨-, hapart, hnormal⟩ := normal_cons.mp hnormal
    obtain ⟨front, back, rfl, rfl, hback⟩ := List.map_eq_append_iff.mp hcommands
    have hleaf : action? scan.body ≠ some action := fun heq => hstart action heq rfl
    obtain ⟨between, -, hfront⟩ := foldlM_run hrun hleaf
    let next : Scan := ⟨.leaf action argument :: scan.body, scan.enclosing, between⟩
    have hnext : ∀ other, action? next.body = some other → action? forest ≠ some other := hapart
    obtain ⟨folded, last, hfold, hfolded⟩ := ih hnormal hnext hback
    refine ⟨.leaf action argument :: folded, last, ?_, ?_⟩
    · rw [List.foldlM_append, hfront, List.reverse_cons, List.append_assoc]
      exact hfold
    · rw [unplaced, unplaced, hfolded]
  | @loop offset inner text body forest hbody hrest ihbody ih =>
    obtain ⟨hloop, -, hnormal⟩ := normal_cons.mp hnormal
    obtain ⟨front, back, rfl, hfront, hback⟩ := List.map_eq_append_iff.mp hcommands
    obtain ⟨start, more, rfl, hopen, hmore⟩ := List.map_eq_cons_iff.mp hfront
    obtain ⟨inner, ending, rfl, rfl, hending⟩ := List.map_eq_append_iff.mp hmore
    obtain ⟨stop, nothing, rfl, hclose, hnothing⟩ := List.map_eq_cons_iff.mp hending
    obtain rfl := List.map_eq_nil_iff.mp hnothing
    let entered : Scan := ⟨[], (start.offset, scan.body) :: scan.enclosing, some start.command⟩
    have hentered : ∀ other, action? entered.body = some other → action? body ≠ some other := nofun
    obtain ⟨foldedBody, lastBody, hfoldBody, hfoldedBody⟩ :=
      ihbody (normal_loop.mp hloop) hentered rfl
    rw [List.append_nil] at hfoldBody
    let next : Scan :=
      ⟨.loop start.offset foldedBody :: scan.body, scan.enclosing, some stop.command⟩
    have hnext : ∀ other, action? next.body = some other → action? forest ≠ some other := nofun
    obtain ⟨folded, last, hfold, hfolded⟩ := ih hnormal hnext hback
    refine ⟨.loop start.offset foldedBody :: folded, last, ?_, ?_⟩
    · rw [List.foldlM_append, foldlM_loop hopen hclose hfoldBody, List.reverse_reverse,
        List.reverse_cons, List.append_assoc]
      exact hfold
    · rw [unplaced, unplaced, Node.unplaced, Node.unplaced, hfolded, hfoldedBody]

end Scan

theorem exists_ofTokens_of_spells {tokens : List Token} {forest : Forest}
    (h : Spells (tokens.map Token.command) forest) (hnormal : Normal forest) :
    ∃ folded, ofTokens tokens = .ok folded ∧ unplaced folded = unplaced forest := by
  have hstart : ∀ action, action? Scan.start.body = some action → action? forest ≠ some action :=
    nofun
  obtain ⟨folded, last, hfold, hfolded⟩ := Scan.foldlM_spelled h hnormal hstart
  refine ⟨folded, ?_, hfolded⟩
  have hbody : folded.reverse ++ Scan.start.body = folded.reverse := List.append_nil _
  unfold ofTokens
  rw [hfold, hbody]
  show Except.ok folded.reverse.reverse = _
  rw [List.reverse_reverse]

end Forest

/-- Folding makes one leaf of every maximal run and nothing else, and every normal forest is made by
it.  The forest of a token sequence is the only one that its maximal runs and brackets give, and it
is normal; and the source text that a normal forest is written down as is folded to that forest, up
to the places of its loops. -/
theorem folding_onto_normal :
    (∀ tokens forest, Forest.ofTokens tokens = .ok forest →
      Folded tokens forest ∧ (∀ other, Folded tokens other → other = forest) ∧
        Forest.Normal forest) ∧
    ∀ forest : Forest, Forest.Normal forest → ∃ folded,
      Forest.ofSource (Forest.source forest) = .ok folded ∧
        Forest.unplaced folded = Forest.unplaced forest := by
  refine ⟨fun tokens forest h => ?_, fun forest hnormal => ?_⟩
  · have hnormal := Forest.normal_tokens h
    have hfolded := (recorded_tokens h).folded hnormal
    exact ⟨hfolded, fun other hother => hfolded.unique hother, hnormal⟩
  · refine Forest.exists_ofTokens_of_spells ?_ hnormal
    rw [map_command_tokens, commands_source]
    exact Forest.spells_spelling hnormal.each

/-- A run without net effect, and reads inside and behind a loop. -/
theorem folding_onto_normal_nested :
    let tokens : List Token := [⟨.increment, 0⟩, ⟨.decrement, 2⟩, ⟨.loopStart, 3⟩, ⟨.readByte, 4⟩,
      ⟨.readByte, 6⟩, ⟨.loopEnd, 9⟩, ⟨.readByte, 10⟩]
    let forest : Forest := [.leaf .addValue 0, .loop 3 [.leaf .readByte 2], .leaf .readByte 1]
    Forest.ofTokens tokens = .ok forest ∧ Folded tokens forest ∧ Forest.Normal forest ∧
      ∃ folded, Forest.ofSource (Forest.source forest) = .ok folded ∧
        Forest.unplaced folded = Forest.unplaced forest := by
  intro tokens forest
  have hread : Forest.ofTokens tokens = .ok forest := rfl
  obtain ⟨hfolded, -, hnormal⟩ := folding_onto_normal.1 tokens forest hread
  exact ⟨hread, hfolded, hnormal, folding_onto_normal.2 forest hnormal⟩

end TapeMachine
