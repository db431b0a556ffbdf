import TapeMachine.Proofs.Machine.Sessions
import TapeMachine.Proofs.Tape.Growth

/-!
# TapeMachine.Proofs.Machine.Visited — the tape of a session

A machine is watched: of its cursor are kept all the places at which it has been since the latest
load.  The tape has just the length that these places ask for, and no cell is written but those
(`tape_fits_visited`).  Before the first load there is no tape and no register is ever moved.
-/

namespace TapeMachine

/-- The lengths that the tape of a machine can have, shortest first. -/
def Config.lengths (config : Config) : Nat → Nat
  | 0 => max 1 config.tapeLength
  | steps + 1 =>
    config.lengths steps + min (config.lengths steps) (max 1 config.maxGrowth)

theorem Config.lengths_eq_chain (config : Config) (steps : Nat) :
    config.lengths steps =
      Growth.chain (max 1 config.maxGrowth) (max 1 config.tapeLength) steps := by
  induction steps with
  | zero => rfl
  | succ steps ih =>
    have hpos := Growth.le_chain (max 1 config.maxGrowth) (max 1 config.tapeLength) steps
    rw [Config.lengths, ih, Growth.chain, Growth.next]
    omega

namespace Machine

variable {ι ω : Type}

/-! ### After a load -/

/-- The tape is as long as the places visited ask for, and holds nothing elsewhere. -/
structure Fits (config : Config) (visited : List Nat) (m : Machine ι ω) : Prop where
  config_eq : m.config = config
  maxGrowth : m.tape.maxGrowth = max 1 config.maxGrowth
  length : IsLeast {l | (∃ steps, l = config.lengths steps) ∧ ∀ place ∈ visited, place < l}
    m.tape.length
  cursor : m.cursor.toNat ∈ visited
  cell : ∀ index, index ∉ visited → m.cell index = 0

namespace Fits

variable {config : Config} {visited : List Nat} {m m' : Machine ι ω}

theorem covered (h : Fits config visited m) : Covered m := h.length.1.2 _ h.cursor

theorem load (machine : Machine ι ω) (program : Program) :
    Fits machine.config [0] (machine.load program) := by
  have hlen : (machine.load program).tape.length = machine.config.lengths 0 :=
    Tape.length_zeros _ _
  refine ⟨rfl, rfl, ?_, by simp [Machine.load], fun index _ => cell_load machine program index⟩
  rw [hlen]
  refine ⟨⟨⟨0, rfl⟩, ?_⟩, ?_⟩
  · simp [Config.lengths]
  · rintro l ⟨⟨steps, rfl⟩, -⟩
    rw [Config.lengths_eq_chain _ steps]
    exact Growth.le_chain _ _ _

theorem isSome_currentValue (h : Fits config visited m) : m.snapshot.currentValue.isSome := by
  have hget : m.snapshot.currentValue = some _ := Array.getElem?_eq_getElem h.covered
  rw [hget]
  rfl

/-- What an instruction keeps is enough to keep the fit. -/
theorem of_keeps (h : Fits config visited m) (hk : Keeps m m') :
    Fits config (visited ++ [m'.cursor.toNat]) m' := by
  refine ⟨hk.config.trans h.config_eq, hk.maxGrowth.trans h.maxGrowth, ?_, by simp,
    fun index hindex => ?_⟩
  · have hlen := h.length
    simp only [Config.lengths_eq_chain, ← h.maxGrowth] at hlen ⊢
    rw [hk.length]
    exact Tape.isLeast_growTo_append hlen m'.cursor.toNat
  · simp only [List.mem_append, not_or] at hindex
    have hne : index ≠ m.cursor.toNat := fun heq => hindex.1 (heq ▸ h.cursor)
    rw [hk.cell index hne]
    exact h.cell index hindex.1

end Fits

/-! ### Sessions -/

/-- A machine with the places at which its cursor has been since its latest load, oldest first;
`none` if it was never given a program. -/
structure Watched (ι ω : Type) where
  machine : Machine ι ω
  visited : Option (List Nat)

namespace Watched

variable {config : Config} {input : ι} {output : ω}

/-- What is known of a watched machine: before the first load it is new, after it its tape fits. -/
inductive Sound (config : Config) (input : ι) (output : ω) : Watched ι ω → Prop
  | new : Sound config input output ⟨Machine.new config input output, none⟩
  | loaded {machine : Machine ι ω} {visited : List Nat} (h : Fits config visited machine) :
      Sound config input output ⟨machine, some visited⟩

theorem Sound.eq_new {watched : Watched ι ω} (h : Sound config input output watched)
    (hnone : watched.visited = none) : watched.machine = Machine.new config input output := by
  cases h with
  | new => rfl
  | loaded hf => cases hnone

theorem Sound.fits {watched : Watched ι ω} (h : Sound config input output watched)
    {visited : List Nat} (hsome : watched.visited = some visited) :
    Fits config visited watched.machine := by
  cases h with
  | new => cases hsome
  | loaded hf =>
    cases hsome
    exact hf

end Watched

variable [Input ι] [Output ω]

/-- The places of the cursor after each instruction of a run of at most `limit` fetches. -/
def cursorsWithin : (limit : Nat) → Machine ι ω → List Nat
  | 0, _ => []
  | limit + 1, machine =>
    match machine.fetch with
    | none => []
    | some instruction =>
      (machine.perform instruction).2.cursor.toNat ::
        match machine.perform instruction with
        | (.ok (), machine) => cursorsWithin limit machine
        | (.error _, _) => []

theorem Fits.run {config : Config} {visited : List Nat} {m : Machine ι ω}
    (h : Fits config visited m) (limit : Nat) :
    Fits config (visited ++ m.cursorsWithin limit) (m.run limit).2 := by
  induction limit generalizing m visited with
  | zero =>
    rw [cursorsWithin, List.append_nil]
    exact h
  | succ limit ih =>
    rw [Machine.run, cursorsWithin]
    cases hf : m.fetch with
    | none =>
      rw [List.append_nil]
      exact h
    | some instruction =>
      have hstep := h.of_keeps (Keeps.perform h.covered instruction)
      dsimp only
      rcases hp : m.perform instruction with ⟨fault | _, next⟩
      · rw [hp] at hstep
        exact hstep
      · rw [hp] at hstep
        have hrest := ih hstep
        rw [List.append_assoc] at hrest
        exact hrest

/-- The places of the cursor after each instruction of a request. -/
def cursorsOf (machine : Machine ι ω) : Request → List Nat
  | .execute limit => machine.cursorsWithin limit
  | .load _ | .loadListing _ => []

theorem Fits.serve {config : Config} {visited : List Nat} {m : Machine ι ω}
    (h : Fits config visited m) {request : Request} (hloads : request.loads = false) :
    Fits config (visited ++ m.cursorsOf request) (m.serve request).2.2 := by
  cases request with
  | load program => cases hloads
  | execute limit => exact h.run limit
  | loadListing text =>
    have hrefused : (Request.loadListing text).refused := by
      rw [Request.loads] at hloads
      rw [Request.refused, hloads]
      rfl
    rw [serve_refused m hrefused, cursorsOf, List.append_nil]
    exact h

namespace Watched

/-- Serves a request and goes on watching. -/
def serve (watched : Watched ι ω) (request : Request) : Watched ι ω :=
  let machine := (watched.machine.serve request).2.2
  if request.loads then ⟨machine, some [machine.cursor.toNat]⟩
  else ⟨machine, watched.visited.map (· ++ watched.machine.cursorsOf request)⟩

/-- A new machine, watched while it serves requests. -/
def session (config : Config) (input : ι) (output : ω) (requests : List Request) : Watched ι ω :=
  requests.foldl serve ⟨Machine.new config input output, none⟩

variable {config : Config} {input : ι} {output : ω}

theorem Sound.serve {watched : Watched ι ω} (h : Sound config input output watched)
    (request : Request) : Sound config input output (watched.serve request) := by
  unfold Watched.serve
  cases hloads : request.loads with
  | true =>
    obtain ⟨program, hprogram⟩ := serve_of_loads watched.machine hloads
    have hfits := Fits.load watched.machine program
    have hconfig : watched.machine.config = config := by
      cases h with
      | new => rfl
      | loaded hf => exact hf.config_eq
    rw [hconfig] at hfits
    rw [hprogram]
    exact .loaded hfits
  | false =>
    cases h with
    | new =>
      obtain ⟨count, hcount⟩ := serve_eq_after (Machine.new config input output) hloads
      rw [hcount, after_new]
      exact .new
    | loaded hf => exact .loaded (hf.serve hloads)

theorem session_append (config : Config) (input : ι) (output : ω) (requests : List Request)
    (request : Request) :
    session config input output (requests ++ [request]) =
      (session config input output requests).serve request := List.foldl_append

theorem machine_serve (watched : Watched ι ω) (request : Request) :
    (watched.serve request).machine = (watched.machine.serve request).2.2 := by
  unfold serve
  cases request.loads <;> rfl

theorem isSome_visited_serve (watched : Watched ι ω) (request : Request) :
    (watched.serve request).visited.isSome = (watched.visited.isSome || request.loads) := by
  unfold serve
  cases request.loads <;> simp

theorem sound_session (config : Config) (input : ι) (output : ω) (requests : List Request) :
    Sound config input output (session config input output requests) := by
  induction requests using List.reverseRecOn with
  | nil => exact .new
  | append_singleton requests request ih =>
    rw [session_append]
    exact ih.serve request

theorem machine_session (config : Config) (input : ι) (output : ω) (requests : List Request) :
    (session config input output requests).machine =
      (Machine.new config input output).served requests := by
  induction requests using List.reverseRecOn with
  | nil => rfl
  | append_singleton requests request ih =>
    rw [session_append, machine_serve, ih, served_append]
    rfl

/-- Whenever a machine has an instruction to perform, its tape fits. -/
theorem exists_fits_of_fetch {config : Config} {input : ι} {output : ω} {requests : List Request}
    {instruction : Instruction}
    (h : ((Machine.new config input output).served requests).fetch = some instruction) :
    ∃ visited, Fits config visited ((Machine.new config input output).served requests) := by
  have hsound := sound_session config input output requests
  have hmachine := machine_session config input output requests
  cases hvisited : (session config input output requests).visited with
  | none =>
    rw [← hmachine, hsound.eq_new hvisited, fetch_new] at h
    cases h
  | some visited => exact ⟨visited, hmachine ▸ hsound.fits hvisited⟩

/-- There are places to speak of once there was a load. -/
theorem isSome_visited_session (config : Config) (input : ι) (output : ω)
    (requests : List Request) :
    (session config input output requests).visited.isSome = requests.any Request.loads := by
  induction requests using List.reverseRecOn with
  | nil => rfl
  | append_singleton requests request ih =>
    rw [session_append, isSome_visited_serve, ih, List.any_append]
    simp

end Watched

/-- Whatever requests a new machine has served: as long as none of them was a load, it shows zeros
and no cell.  Since its latest load its tape has the first of its possible lengths that is beyond
every place the cursor has been at, so the cursor is on the tape; the cells of other places are
zero; and until the next load the tape does not get shorter. -/
theorem tape_fits_visited (config : Config) (input : ι) (output : ω) (requests : List Request) :
    let watched := Watched.session config input output requests
    let m := watched.machine
    m = (Machine.new config input output).served requests ∧
      (requests.any Request.loads = false → m.snapshot = ⟨0, 0, 0, none⟩) ∧
      (requests.any Request.loads = true → ∃ visited, watched.visited = some visited ∧
        IsLeast {l | (∃ steps, l = config.lengths steps) ∧ ∀ place ∈ visited, place < l}
          m.tape.length ∧
        m.cursor.toNat ∈ visited ∧ m.cursor.toNat < m.tape.length ∧
        m.snapshot.currentValue.isSome ∧ (∀ index, index ∉ visited → m.cell index = 0) ∧
        ∀ later : List Request, later.any Request.loads = false →
          m.tape.length ≤ (m.served later).tape.length) := by
  intro watched m
  have hsound := Watched.sound_session config input output requests
  have hsome := Watched.isSome_visited_session config input output requests
  refine ⟨Watched.machine_session config input output requests, fun hnone => ?_, fun hload => ?_⟩
  · have hvisited : watched.visited = none := by
      rw [← Option.not_isSome_iff_eq_none, hsome, hnone]
      exact Bool.false_ne_true
    have hnew : m = Machine.new config input output := hsound.eq_new hvisited
    rw [hnew]
    rfl
  · obtain ⟨visited, hvisited⟩ := Option.isSome_iff_exists.mp (hsome.trans hload)
    have hfits : Fits config visited m := hsound.fits hvisited
    refine ⟨visited, hvisited, hfits.length, hfits.cursor, hfits.covered,
      hfits.isSome_currentValue, hfits.cell, fun later hlater => ?_⟩
    obtain ⟨count, hcount⟩ := @served_eq_after _ _ _ _ m later (by simpa using hlater)
    rw [hcount]
    exact (kept_after hfits.covered count).2.2

end Machine

end TapeMachine
