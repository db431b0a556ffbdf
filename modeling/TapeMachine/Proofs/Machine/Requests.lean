import TapeMachine.Proofs.Machine.Calls

/-!
# TapeMachine.Proofs.Machine.Requests — nothing outlives a load

The holder of a machine loads programs and listings and has programs executed, in any order.  What
the machine answers after a load depends on the program, the value stored at the end of the input
and the devices only: not on the sizes it was made with, and not on anything it did before
(`answers_after_load`).  A listing that is refused might as well not have been offered.
-/

namespace TapeMachine

namespace Machine

variable {ι ω : Type}

/-- What the holder of a machine asks of it. -/
inductive Request where
  | load (program : Program)
  | loadListing (text : List Char)
  /-- Goes on with the program for at most `limit` fetches.  An execution that is not stopped by
  its limit has come to its end; one that every limit stops never comes to an end. -/
  | execute (limit : Nat)

/-- What can be seen of a machine when a request has been served. -/
structure Answer where
  outcome : Outcome
  calls : List Call
  cursor : UInt64
  programCounter : UInt64
  cells : Nat → Int32

/-- Whether a request is a listing that has no program. -/
def Request.refused : Request → Bool
  | .loadListing text => !(Program.ofListing text).isOk
  | _ => false

variable [Input ι] [Output ω]

/-- How a request ends, the calls it makes, and the machine after it. -/
def serve (machine : Machine ι ω) : Request → Outcome × List Call × Machine ι ω
  | .load program => (.halted, [], machine.load program)
  | .loadListing text =>
    match machine.loadListing text with
    | (.ok (), machine) => (.halted, [], machine)
    | (.error fault, machine) => (.faulted fault, [], machine)
  | .execute limit =>
    let (outcome, after) := machine.run limit
    (outcome, machine.callsWithin limit, after)

/-- The requests of a sequence, each with the answer to it. -/
def answers : List Request → Machine ι ω → List (Request × Answer)
  | [], _ => []
  | request :: requests, machine =>
    let (outcome, calls, after) := machine.serve request
    (request, ⟨outcome, calls, after.cursor, after.programCounter, after.cell⟩) ::
      answers requests after

theorem serve_listing_ok (machine : Machine ι ω) {text : List Char} {program : Program}
    (h : Program.ofListing text = .ok program) :
    machine.serve (.loadListing text) = (.halted, [], machine.load program) := by
  simp only [serve, loadListing, h]

theorem serve_listing_error (machine : Machine ι ω) {text : List Char} {fault : Fault}
    (h : Program.ofListing text = .error fault) :
    machine.serve (.loadListing text) = (.faulted fault, [], machine) := by
  simp only [serve, loadListing, h]

theorem serve_alike {m m' : Machine ι ω} (h : Alike Eq Eq m m') (request : Request) :
    (m.serve request).1 = (m'.serve request).1 ∧
      (m.serve request).2.1 = (m'.serve request).2.1 ∧
      Alike Eq Eq (m.serve request).2.2 (m'.serve request).2.2 := by
  cases request with
  | load program => exact ⟨rfl, rfl, Alike.load h.eof h.input h.output program⟩
  | loadListing text =>
    cases htext : Program.ofListing text with
    | ok program =>
      rw [serve_listing_ok m htext, serve_listing_ok m' htext]
      exact ⟨rfl, rfl, Alike.load h.eof h.input h.output program⟩
    | error fault =>
      rw [serve_listing_error m htext, serve_listing_error m' htext]
      exact ⟨rfl, rfl, h⟩
  | execute limit =>
    obtain ⟨hr, hm⟩ := h.run answersAlike_eq takesAlike_eq limit
    exact ⟨hr, callsWithin_alike answersAlike_eq takesAlike_eq h limit, hm⟩

theorem answers_alike {m m' : Machine ι ω} (h : Alike Eq Eq m m') (requests : List Request) :
    answers requests m = answers requests m' := by
  induction requests generalizing m m' with
  | nil => rfl
  | cons request requests ih =>
    obtain ⟨hr, hc, hm⟩ := serve_alike h request
    rw [answers, answers]
    dsimp only
    rw [hr, hc, hm.cursor, hm.programCounter, funext hm.cell, ih hm]

theorem serve_refused (machine : Machine ι ω) {request : Request} (h : request.refused) :
    (machine.serve request).2.2 = machine := by
  cases request with
  | load program => exact absurd h Bool.false_ne_true
  | execute limit => exact absurd h Bool.false_ne_true
  | loadListing text =>
    cases htext : Program.ofListing text with
    | error fault => rw [serve_listing_error machine htext]
    | ok program =>
      rw [Request.refused, htext] at h
      exact absurd h Bool.false_ne_true

/-- The answers to the requests that were not refused. -/
def heard (requests : List Request) (machine : Machine ι ω) : List (Request × Answer) :=
  (answers requests machine).filter (fun answered => !answered.1.refused)

/-- Refused requests leave no trace in the answers to the others. -/
theorem heard_filter (requests : List Request) (machine : Machine ι ω) :
    heard (requests.filter (fun request => !request.refused)) machine = heard requests machine := by
  induction requests generalizing machine with
  | nil => rfl
  | cons request requests ih =>
    cases h : request.refused with
    | true =>
      rw [List.filter_cons_of_neg (by rw [h]; exact Bool.false_ne_true), ih]
      conv => rhs; rw [heard, answers]
      dsimp only
      rw [List.filter_cons_of_neg (by rw [h]; exact Bool.false_ne_true), serve_refused machine h]
      rfl
    | false =>
      rw [List.filter_cons_of_pos (by rw [h]; rfl)]
      unfold heard
      rw [answers, answers]
      dsimp only
      rw [List.filter_cons_of_pos (by rw [h]; rfl), List.filter_cons_of_pos (by rw [h]; rfl)]
      exact congrArg (_ :: ·) (ih _)

/-- Two machines, in whatever states, that store the same value at the end of the input and hold the
same devices answer alike from the next load on, to any requests.  One of them may be offered
listings that it refuses, anywhere in between: the answers to the other requests stay the same. -/
theorem answers_after_load (m m' : Machine ι ω) (heof : m.config.eof = m'.config.eof)
    (hinput : m.input = m'.input) (houtput : m.output = m'.output) (program : Program)
    (requests : List Request) :
    answers (.load program :: requests) m = answers (.load program :: requests) m' ∧
      ∀ requests' : List Request,
        requests'.filter (fun request => !request.refused) =
          requests.filter (fun request => !request.refused) →
        heard (.load program :: requests) m = heard (.load program :: requests') m' := by
  have hload : ∀ requests, answers (.load program :: requests) m =
      answers (.load program :: requests) m' := by
    intro requests
    have h : Alike Eq Eq (m.load program) (m'.load program) :=
      Alike.load heof hinput houtput program
    rw [answers, answers]
    dsimp only [serve]
    rw [h.cursor, h.programCounter, funext h.cell, answers_alike h requests]
  refine ⟨hload requests, fun requests' hsame => ?_⟩
  have hfilter : ∀ requests : List Request,
      (Request.load program :: requests).filter (fun request => !request.refused) =
        .load program :: requests.filter (fun request => !request.refused) := fun _ => rfl
  rw [← heard_filter (.load program :: requests') m', hfilter, hsame, ← hfilter, heard_filter,
    heard, heard, hload]

/-- A machine that has run into a fault and one that was made with no memory at all; to one of them
a text that is no listing is offered. -/
theorem answers_after_load_refusal :
    let devices : ByteBlock × ByteBuffer := (.ofList [7, 9], .empty)
    let faulty := Program.ofList [.ofOpcode .addValue 1, .ofOpcode .movePointer (-1)]
    let program := Program.ofList [.ofOpcode .readByte 1, .ofOpcode .writeByte 2]
    let used := (((Machine.new { tapeLength := 2, scratchLength := 1 } devices.1 devices.2).load
      faulty).run 5).2
    let fresh : Machine ByteBlock ByteBuffer := Machine.new
      { tapeLength := 0, maxGrowth := 0, scratchLength := 0 } devices.1 devices.2
    used.cell 0 = 1 ∧ (Request.loadListing []).refused ∧
      heard [.load program, .execute 9] used =
        heard [.load program, .loadListing [], .execute 9] fresh := by
  intro devices faulty program used fresh
  have heof : used.config.eof = fresh.config.eof := by decide
  have hinput : used.input = fresh.input := by decide
  have houtput : used.output = fresh.output := by decide
  refine ⟨by decide, by decide, ?_⟩
  exact (answers_after_load used fresh heof hinput houtput program [.execute 9]).2
    [.loadListing [], .execute 9] rfl

end Machine

end TapeMachine
