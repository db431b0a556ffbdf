import TapeMachine.Source.Command

/-!
# TapeMachine.Proofs.Source.Naive — one command at a time

The naive interpreter runs the commands of a source text as they stand, on an endless row of cells
that are zero at first.  It folds no runs and builds no loops: a bracket that jumps looks through
the text for the bracket it belongs to.  Only two things can go wrong, a move below the first cell
and a bracket without its match.
-/

namespace TapeMachine

/-- A naive interpreter between two commands. -/
structure Naive where
  /-- How many commands stand in front of the next one. -/
  position : Nat
  cursor : Nat
  cells : Nat → Int32
  unread : List UInt8
  written : List UInt8

namespace Naive

/-- How a naive run ended. -/
inductive Ending where
  /-- There was no command left. -/
  | halted
  /-- A move would have put the cursor below zero. -/
  | faulted
  /-- A bracket had to jump and has no match. -/
  | unmatched
  /-- The commands allowed were used up. -/
  | stopped
  deriving DecidableEq, Repr

/-- Everything zero, and nothing read. -/
def start (input : List UInt8) : Naive := ⟨0, 0, fun _ => 0, input, []⟩

def current (s : Naive) : Int32 := s.cells s.cursor

def put (s : Naive) (value : Int32) : Naive :=
  { s with cells := fun index => if index = s.cursor then value else s.cells index }

/-- Goes to a position. -/
def goto (s : Naive) (position : Nat) : Naive := { s with position }

/-- Reads a byte, or the value for the end of the input, into the current cell. -/
def read (eof : Int32) (s : Naive) : Naive :=
  match s.unread with
  | [] => s.put eof
  | byte :: unread => ({ s with unread } : Naive).put byte.toUInt32.toInt32

/-- Writes the low byte of the current cell a number of times. -/
def write (s : Naive) (count : Nat) : Naive :=
  { s with written := s.written ++ List.replicate count s.current.toUInt32.toUInt8 }

/-- How many commands stand in front of the first bracket that leaves more loops than are entered,
`depth` loops being entered already. -/
def matching (enter leave : Command) : (depth : Nat) → List Command → Option Nat
  | _, [] => none
  | depth, command :: rest =>
    if command = enter then (matching enter leave (depth + 1) rest).map (· + 1)
    else if command = leave then
      match depth with
      | 0 => some 0
      | depth + 1 => (matching enter leave depth rest).map (· + 1)
    else (matching enter leave depth rest).map (· + 1)

/-- The position of the bracket that matches a loop start. -/
def closing (commands : List Command) (position : Nat) : Option Nat :=
  (matching .loopStart .loopEnd 0 (commands.drop (position + 1))).map (position + 1 + ·)

/-- The position of the bracket that matches a loop end. -/
def opening (commands : List Command) (position : Nat) : Option Nat :=
  (matching .loopEnd .loopStart 0 (commands.take position).reverse).map (position - 1 - ·)

/-- Jumps to a bracket and goes on behind it. -/
def jump (s : Naive) : Option Nat → Except Ending Naive
  | some bracket => .ok (s.goto (bracket + 1))
  | none => .error .unmatched

/-- Executes the next command. -/
def step (commands : List Command) (eof : Int32) (s : Naive) : Except Ending Naive :=
  match commands[s.position]? with
  | none => .error .halted
  | some .increment => .ok ((s.put (s.current + 1)).goto (s.position + 1))
  | some .decrement => .ok ((s.put (s.current - 1)).goto (s.position + 1))
  | some .moveRight => .ok (({ s with cursor := s.cursor + 1 } : Naive).goto (s.position + 1))
  | some .moveLeft =>
    if s.cursor = 0 then .error .faulted
    else .ok (({ s with cursor := s.cursor - 1 } : Naive).goto (s.position + 1))
  | some .readByte => .ok ((s.read eof).goto (s.position + 1))
  | some .writeByte => .ok ((s.write 1).goto (s.position + 1))
  | some .loopStart =>
    if s.current = 0 then s.jump (closing commands s.position) else .ok (s.goto (s.position + 1))
  | some .loopEnd =>
    if s.current ≠ 0 then s.jump (opening commands s.position) else .ok (s.goto (s.position + 1))

/-- Executes at most `limit` commands. -/
def run (commands : List Command) (eof : Int32) : (limit : Nat) → Naive → Ending × Naive
  | 0, s => (.stopped, s)
  | limit + 1, s =>
    match step commands eof s with
    | .ok s => run commands eof limit s
    | .error ending => (ending, s)

/-! ### Runs -/

variable {commands : List Command} {eof : Int32} {s s' : Naive} {limit : Nat}

theorem run_one (h : step commands eof s = .ok s') : run commands eof 1 s = (.stopped, s') := by
  rw [run, h]
  rfl

theorem step_ne_stopped : step commands eof s ≠ .error .stopped := by
  have hjump : ∀ target, s.jump target ≠ .error .stopped := by
    rintro (_ | bracket) <;> exact nofun
  unfold step
  split
  · exact nofun
  · exact nofun
  · exact nofun
  · exact nofun
  · split <;> exact nofun
  · exact nofun
  · exact nofun
  · split
    · exact hjump _
    · exact nofun
  · split
    · exact hjump _
    · exact nofun

/-- A run that was stopped can be gone on with. -/
theorem run_add (h : run commands eof limit s = (.stopped, s')) (more : Nat) :
    run commands eof (limit + more) s = run commands eof more s' := by
  induction limit generalizing s with
  | zero =>
    cases h
    rw [Nat.zero_add]
  | succ limit ih =>
    rw [Nat.succ_add, run]
    rw [run] at h
    cases hs : step commands eof s with
    | error ending =>
      rw [hs] at h
      cases h
      exact absurd hs step_ne_stopped
    | ok next =>
      rw [hs] at h
      exact ih h

/-- A run that has ended stays as it is. -/
theorem run_of_ended (h : (run commands eof limit s).1 ≠ .stopped) (more : Nat) :
    run commands eof (limit + more) s = run commands eof limit s := by
  induction limit generalizing s with
  | zero => exact absurd rfl h
  | succ limit ih =>
    rw [Nat.succ_add, run, run]
    rw [run] at h
    cases hs : step commands eof s with
    | error ending => rfl
    | ok next =>
      rw [hs] at h
      exact ih h

/-- A run ends in one way only. -/
theorem run_eq_run {limit' : Nat} (h : (run commands eof limit s).1 ≠ .stopped)
    (h' : (run commands eof limit' s).1 ≠ .stopped) :
    run commands eof limit s = run commands eof limit' s := by
  rw [← run_of_ended h limit', Nat.add_comm, run_of_ended h' limit]

/-- Whether the interpreter comes to a move below the first cell. -/
def Faults (commands : List Command) (eof : Int32) (s : Naive) : Prop :=
  ∃ limit, (run commands eof limit s).1 = .faulted

theorem faults_of_step (h : step commands eof s = .error .faulted) : Faults commands eof s := by
  refine ⟨1, ?_⟩
  rw [run, h]

theorem Faults.of_run (h : run commands eof limit s = (.stopped, s'))
    (hf : Faults commands eof s') : Faults commands eof s := by
  obtain ⟨more, hmore⟩ := hf
  refine ⟨limit + more, ?_⟩
  rw [run_add h, hmore]

theorem not_faults_of_halted (h : run commands eof limit s = (.halted, s')) :
    ¬ Faults commands eof s := by
  rintro ⟨limit', hfault⟩
  have hsame := @run_eq_run commands eof s limit limit' (by rw [h]; exact nofun)
    (by rw [hfault]; exact nofun)
  rw [← hsame, h] at hfault
  cases hfault

/-! ### Looking for brackets -/

section Matching

variable {enter leave : Command}

/-- The search passes over a balanced text: all loops entered in it are left again. -/
def Passes (enter leave : Command) (text : List Command) : Prop :=
  ∀ depth tail, matching enter leave depth (text ++ tail) =
    (matching enter leave depth tail).map (· + text.length)

theorem passes_nil : Passes enter leave [] := by
  intro depth tail
  cases h : matching enter leave depth tail with
  | none => rw [List.nil_append, h]; rfl
  | some found => rw [List.nil_append, h]; rfl

theorem Passes.append {front back : List Command} (hf : Passes enter leave front)
    (hb : Passes enter leave back) : Passes enter leave (front ++ back) := by
  intro depth tail
  rw [List.append_assoc, hf, hb, Option.map_map, List.length_append]
  congr 1
  funext found
  show found + back.length + front.length = _
  omega

theorem passes_single {command : Command} (he : command ≠ enter) (hl : command ≠ leave) :
    Passes enter leave [command] := by
  intro depth tail
  rw [List.singleton_append, matching.eq_def]
  dsimp only
  rw [if_neg he, if_neg hl]
  rfl

theorem Passes.loop {text : List Command} (h : Passes enter leave text) (hne : leave ≠ enter) :
    Passes enter leave (enter :: (text ++ [leave])) := by
  intro depth tail
  have hleave : matching enter leave (depth + 1) (leave :: tail) =
      (matching enter leave depth tail).map (· + 1) := by
    rw [matching.eq_def]
    dsimp only
    rw [if_neg hne, if_pos rfl]
  rw [List.cons_append, List.append_assoc, List.singleton_append, matching.eq_def]
  dsimp only
  rw [if_pos rfl, h, hleave, Option.map_map, Option.map_map]
  congr 1
  funext found
  show found + 1 + text.length + 1 = _
  rw [List.length_cons, List.length_append, List.length_singleton]
  omega

/-- The bracket behind a balanced text is the one that is looked for. -/
theorem Passes.found {text : List Command} (h : Passes enter leave text) (hne : leave ≠ enter)
    (tail : List Command) : matching enter leave 0 (text ++ leave :: tail) = some text.length := by
  have hleave : matching enter leave 0 (leave :: tail) = some 0 := by
    rw [matching.eq_def]
    dsimp only
    rw [if_neg hne, if_pos rfl]
  rw [h, hleave, Option.map_some, Nat.zero_add]

end Matching

end Naive

end TapeMachine
