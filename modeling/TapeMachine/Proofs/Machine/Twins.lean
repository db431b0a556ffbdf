import TapeMachine.Proofs.Machine.Sessions

/-!
# TapeMachine.Proofs.Machine.Twins — one machine on different devices

Alike machines may have tapes of different lengths.  `Twins` are alike and were made with the same
settings, so their tapes are equal as well, and they show the same registers: all that tells them
apart is in their devices.  Where related devices answer alike, twins stay twins through any
requests (`Twins.served`).
-/

namespace TapeMachine

namespace Machine

variable {ι ι' ω ω' : Type}

/-- Alike machines with the same settings and with tapes of one length, which reach to the cursor
wherever there is an instruction to perform. -/
structure Twins (RI : ι → ι' → Prop) (RO : ω → ω' → Prop) (m : Machine ι ω) (m' : Machine ι' ω') :
    Prop extends Alike RI RO m m' where
  config : m.config = m'.config
  length : m.tape.length = m'.tape.length
  maxGrowth : m.tape.maxGrowth = m'.tape.maxGrowth
  covered : ∀ instruction, m.fetch = some instruction → Covered m

namespace Twins

variable {RI : ι → ι' → Prop} {RO : ω → ω' → Prop} {m : Machine ι ω} {m' : Machine ι' ω'}

/-- The tapes are equal: they are of one length and hold the same cells. -/
theorem tape (h : Twins RI RO m m') : m.tape = m'.tape := by
  have hcells : m.tape.cells = m'.tape.cells := by
    apply Array.ext h.length
    intro index hi hi'
    have hcell : (m.tape.cells[index]?).getD 0 = (m'.tape.cells[index]?).getD 0 := h.cell index
    simpa [hi, hi'] using hcell
  have hgrowth := h.maxGrowth
  rcases hm : m.tape with ⟨cells, growth⟩
  rcases hm' : m'.tape with ⟨cells', growth'⟩
  rw [hm, hm'] at hcells hgrowth
  exact congrArg₂ Tape.mk hcells hgrowth

theorem snapshot (h : Twins RI RO m m') : m.snapshot = m'.snapshot := by
  unfold Machine.snapshot
  rw [h.cursor, h.programCounter, h.tape]

/-- The tape is as long as what the cursor asks for, so alike machines have tapes of one length as
long as each has come from its twin by an instruction. -/
theorem of_keeps {RI' : ι → ι' → Prop} {RO' : ω → ω' → Prop} {n : Machine ι ω}
    {n' : Machine ι' ω'} (h : Twins RI RO m m') (hk : Keeps m n) (hk' : Keeps m' n')
    (ha : Alike RI' RO' n n') : Twins RI' RO' n n' where
  toAlike := ha
  config := by rw [hk.config, hk'.config, h.config]
  length := by rw [hk.length, hk'.length, ha.cursor, h.tape]
  maxGrowth := by rw [hk.maxGrowth, hk'.maxGrowth, h.maxGrowth]
  covered := fun _ _ => hk.covered

theorem covered' (h : Twins RI RO m m') {instruction : Instruction}
    (hf : m.fetch = some instruction) : Covered m' := by
  have hcov := h.covered instruction hf
  unfold Covered at hcov ⊢
  rwa [← h.cursor, ← h.length]

/-! ### Making and loading -/

theorem new {input : ι} {input' : ι'} {output : ω} {output' : ω'} (hi : RI input input')
    (ho : RO output output') (config : Config) :
    Twins RI RO (Machine.new config input output) (Machine.new config input' output') where
  toAlike := ⟨rfl, hi, ho, rfl, rfl, rfl, fun _ => rfl⟩
  config := rfl
  length := rfl
  maxGrowth := rfl
  covered := nofun

/-- A load makes twins of any two machines with the same settings and related devices. -/
theorem loaded (hconfig : m.config = m'.config) (hi : RI m.input m'.input)
    (ho : RO m.output m'.output) (program : Program) :
    Twins RI RO (m.load program) (m'.load program) where
  toAlike := Alike.load (congrArg Config.eof hconfig) hi ho program
  config := hconfig
  length := by
    show (Tape.zeros m.config.tapeLength _).length = (Tape.zeros m'.config.tapeLength _).length
    rw [Tape.length_zeros, Tape.length_zeros, hconfig]
  maxGrowth := by
    show max 1 m.config.maxGrowth = max 1 m'.config.maxGrowth
    rw [hconfig]
  covered := fun _ _ => covered_load m program

theorem load (h : Twins RI RO m m') (program : Program) :
    Twins RI RO (m.load program) (m'.load program) :=
  loaded h.config h.input h.output program

/-! ### Instructions, runs and requests -/

variable [Input ι] [Input ι'] [Output ω] [Output ω']

/-- Twins that have performed an instruction are twins again if they are alike. -/
theorem performed {RI' : ι → ι' → Prop}
    {RO' : ω → ω' → Prop} (h : Twins RI RO m m') {instruction : Instruction}
    (hf : m.fetch = some instruction)
    (ha : Alike RI' RO' (m.perform instruction).2 (m'.perform instruction).2) :
    Twins RI' RO' (m.perform instruction).2 (m'.perform instruction).2 :=
  h.of_keeps (Keeps.perform (h.covered _ hf) instruction)
    (Keeps.perform (h.covered' hf) instruction) ha

theorem perform (hRI : AnswersAlike RI) (hRO : TakesAlike RO) (h : Twins RI RO m m')
    {instruction : Instruction} (hf : m.fetch = some instruction) :
    (m.perform instruction).1 = (m'.perform instruction).1 ∧
      Twins RI RO (m.perform instruction).2 (m'.perform instruction).2 := by
  obtain ⟨hr, ha⟩ := h.toAlike.perform hRI hRO instruction
  exact ⟨hr, h.performed hf ha⟩

theorem run (hRI : AnswersAlike RI) (hRO : TakesAlike RO) (h : Twins RI RO m m') (limit : Nat) :
    (m.run limit).1 = (m'.run limit).1 ∧ Twins RI RO (m.run limit).2 (m'.run limit).2 :=
  run_related (fun h => h.fetch) (fun h hf => h.perform hRI hRO hf) h limit

theorem serve (hRI : AnswersAlike RI) (hRO : TakesAlike RO) (h : Twins RI RO m m')
    (request : Request) :
    (m.serve request).1 = (m'.serve request).1 ∧
      Twins RI RO (m.serve request).2.2 (m'.serve request).2.2 := by
  cases request with
  | load program => exact ⟨rfl, h.load program⟩
  | loadListing text =>
    cases htext : Program.ofListing text with
    | ok program =>
      rw [serve_listing_ok m htext, serve_listing_ok m' htext]
      exact ⟨rfl, h.load program⟩
    | error fault =>
      rw [serve_listing_error m htext, serve_listing_error m' htext]
      exact ⟨rfl, h⟩
  | execute limit => exact h.run hRI hRO limit

theorem served (hRI : AnswersAlike RI) (hRO : TakesAlike RO) (h : Twins RI RO m m')
    (requests : List Request) : Twins RI RO (m.served requests) (m'.served requests) := by
  induction requests generalizing m m' with
  | nil => exact h
  | cons request requests ih => exact ih (h.serve hRI hRO request).2

end Twins

end Machine

end TapeMachine
