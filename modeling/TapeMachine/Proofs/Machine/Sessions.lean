import Mathlib.Data.List.Induction
import TapeMachine.Proofs.Machine.After
import TapeMachine.Proofs.Machine.Requests

/-!
# TapeMachine.Proofs.Machine.Sessions — a machine through any requests

`served` is the machine when any requests have been served, loads among them.  Whatever they are, it
is in a state after its latest load, or it has never been given a program (`served_cases`); between
two loads it goes through the states of `after` (`served_eq_after`).  So what holds after a load and
is kept by every instruction holds throughout a session.
-/

namespace TapeMachine

namespace Machine

variable {ι ω : Type}

/-- Whether a request puts a program into the machine. -/
def Request.loads : Request → Bool
  | .load _ => true
  | .loadListing text => (Program.ofListing text).isOk
  | .execute _ => false

theorem fetch_new (config : Config) (input : ι) (output : ω) :
    (Machine.new config input output).fetch = none := rfl

variable [Input ι] [Output ω]

/-- The machine when requests have been served, one after the other. -/
def served (machine : Machine ι ω) (requests : List Request) : Machine ι ω :=
  requests.foldl (fun machine request => (machine.serve request).2.2) machine

@[simp] theorem served_nil (machine : Machine ι ω) : machine.served [] = machine := rfl

@[simp] theorem served_cons (machine : Machine ι ω) (request : Request) (requests : List Request) :
    machine.served (request :: requests) = (machine.serve request).2.2.served requests := rfl

theorem served_append (machine : Machine ι ω) (requests requests' : List Request) :
    machine.served (requests ++ requests') = (machine.served requests).served requests' :=
  List.foldl_append

/-! ### One request -/

/-- A request with a program in it loads that program. -/
theorem serve_of_loads (machine : Machine ι ω) {request : Request} (h : request.loads = true) :
    ∃ program, (machine.serve request).2.2 = machine.load program := by
  cases request with
  | load program => exact ⟨program, rfl⟩
  | execute limit => cases h
  | loadListing text =>
    cases htext : Program.ofListing text with
    | ok program => exact ⟨program, by rw [serve_listing_ok machine htext]⟩
    | error fault =>
      rw [Request.loads, htext] at h
      cases h

/-- Any other request leaves the machine in one of the states that follow the one it was in. -/
theorem serve_eq_after (machine : Machine ι ω) {request : Request} (h : request.loads = false) :
    ∃ count, (machine.serve request).2.2 = machine.after count := by
  cases request with
  | load program => cases h
  | execute limit => exact machine.run_eq_after limit
  | loadListing text =>
    cases htext : Program.ofListing text with
    | ok program =>
      rw [Request.loads, htext] at h
      cases h
    | error fault => exact ⟨0, by rw [serve_listing_error machine htext]; rfl⟩

/-! ### Any number of requests -/

theorem after_add (machine : Machine ι ω) (count count' : Nat) :
    machine.after (count + count') = (machine.after count).after count' := by
  induction count' with
  | zero => rfl
  | succ count' ih => exact congrArg tick ih

theorem served_eq_after (machine : Machine ι ω) {requests : List Request}
    (h : ∀ request ∈ requests, request.loads = false) :
    ∃ count, machine.served requests = machine.after count := by
  induction requests generalizing machine with
  | nil => exact ⟨0, rfl⟩
  | cons request requests ih =>
    obtain ⟨first, hfirst⟩ := serve_eq_after machine (h request (by simp))
    obtain ⟨rest, hrest⟩ := ih (machine.after first) fun r hr => h r (by simp [hr])
    exact ⟨first + rest, by rw [served_cons, hfirst, hrest, after_add]⟩

/-- Throughout a session the machine is in a state after its latest load, if there was one. -/
theorem served_cases (machine : Machine ι ω) (requests : List Request) :
    (∃ count, machine.served requests = machine.after count) ∨
      ∃ (earlier : Machine ι ω) (program : Program) (count : Nat),
        machine.served requests = (earlier.load program).after count := by
  -- from the last request back: a load makes what was before it not matter
  induction requests using List.reverseRecOn with
  | nil => exact .inl ⟨0, rfl⟩
  | append_singleton requests request ih =>
    have hlast : machine.served (requests ++ [request]) =
        ((machine.served requests).serve request).2.2 := served_append _ _ _
    cases h : request.loads with
    | true =>
      obtain ⟨program, hprogram⟩ := serve_of_loads (machine.served requests) h
      exact .inr ⟨machine.served requests, program, 0, hlast.trans hprogram⟩
    | false =>
      obtain ⟨more, hmore⟩ := serve_eq_after (machine.served requests) h
      rcases ih with ⟨count, hcount⟩ | ⟨earlier, program, count, hcount⟩
      · exact .inl ⟨count + more, by rw [hlast, hmore, hcount, after_add]⟩
      · exact .inr ⟨earlier, program, count + more, by rw [hlast, hmore, hcount, after_add]⟩

/-! ### A machine that was never given a program -/

theorem after_new (config : Config) (input : ι) (output : ω) (count : Nat) :
    (Machine.new config input output).after count = Machine.new config input output := by
  induction count with
  | zero => rfl
  | succ count ih =>
    show ((Machine.new config input output).after count).tick = _
    rw [ih]
    rfl

/-- Whenever a machine has an instruction to perform, its tape reaches to the cursor. -/
theorem covered_of_fetch {config : Config} {input : ι} {output : ω} {requests : List Request}
    {instruction : Instruction}
    (h : ((Machine.new config input output).served requests).fetch = some instruction) :
    Covered ((Machine.new config input output).served requests) := by
  rcases served_cases (Machine.new config input output) requests with
    ⟨count, hcount⟩ | ⟨earlier, program, count, hcount⟩
  · rw [hcount, after_new, fetch_new] at h
    cases h
  · rw [hcount]
    exact (after_load earlier program count).1

end Machine

end TapeMachine
