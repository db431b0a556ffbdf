import TapeMachine.Proofs.Machine.Alike

/-!
# TapeMachine.Proofs.Machine.Calls — the calls that a machine makes to its devices

A logged device passes every call on and notes it down with its answer.  The calls of an instruction
are what the devices of the machine note down when they are logged, so nothing is said twice about
what an instruction does.  Logging changes nothing (`logged_run`), and alike machines whose devices
answer alike make the same calls (`callsWithin_alike`).
-/

namespace TapeMachine

/-- A call to a device, with its answer. -/
inductive Call where
  | atEnd (answer : Except IoError Bool)
  | next (answer : Except IoError UInt8)
  | write (batch : List UInt8) (answer : Except IoError Unit)

/-- A device with the calls made to it, newest first. -/
structure Logged (δ : Type) where
  device : δ
  log : List Call

namespace Logged

instance {ι : Type} [Input ι] : Input (Logged ι) where
  atEnd logged :=
    let (answer, device) := Input.atEnd logged.device
    (answer, ⟨device, .atEnd answer :: logged.log⟩)
  next logged :=
    let (answer, device) := Input.next logged.device
    (answer, ⟨device, .next answer :: logged.log⟩)

instance {ω : Type} [Output ω] : Output (Logged ω) where
  write logged batch :=
    let (answer, device) := Output.write logged.device batch
    (answer, ⟨device, .write batch answer :: logged.log⟩)

theorem atEnd_eq {ι : Type} [Input ι] {input after : ι} {answer : Except IoError Bool}
    (h : Input.atEnd input = (answer, after)) (log : List Call) :
    Input.atEnd (⟨input, log⟩ : Logged ι) = (answer, ⟨after, .atEnd answer :: log⟩) := by
  show ((Input.atEnd input).1, (⟨(Input.atEnd input).2, .atEnd (Input.atEnd input).1 :: log⟩ :
    Logged ι)) = _
  rw [h]

theorem next_eq {ι : Type} [Input ι] {input after : ι} {answer : Except IoError UInt8}
    (h : Input.next input = (answer, after)) (log : List Call) :
    Input.next (⟨input, log⟩ : Logged ι) = (answer, ⟨after, .next answer :: log⟩) := by
  show ((Input.next input).1, (⟨(Input.next input).2, .next (Input.next input).1 :: log⟩ :
    Logged ι)) = _
  rw [h]

/-- The log holds no write. -/
def Silent {δ : Type} (logged : Logged δ) : Prop :=
  ∀ batch answer, Call.write batch answer ∉ logged.log

/-- A logged device, with whatever log, and the device in it. -/
def Of {δ : Type} (logged : Logged δ) (device : δ) : Prop := logged.device = device

theorem answersAlike_of {ι : Type} [Input ι] : AnswersAlike (@Of ι) where
  atEnd h := by cases h; exact ⟨rfl, rfl⟩
  next h := by cases h; exact ⟨rfl, rfl⟩

theorem takesAlike_of {ω : Type} [Output ω] : TakesAlike (@Of ω) := by
  intro logged device h batch
  cases h
  exact ⟨rfl, rfl⟩

/-- Logged devices that have noted down the same calls, with related devices in them. -/
def Matching {δ δ' : Type} (R : δ → δ' → Prop) (a : Logged δ) (b : Logged δ') : Prop :=
  R a.device b.device ∧ a.log = b.log

theorem answersAlike_matching {ι ι' : Type} [Input ι] [Input ι'] {R : ι → ι' → Prop}
    (h : AnswersAlike R) : AnswersAlike (Matching R) where
  atEnd := by
    rintro a b ⟨hdevice, hlog⟩
    obtain ⟨hanswer, hafter⟩ := h.atEnd hdevice
    refine ⟨hanswer, hafter, ?_⟩
    show Call.atEnd _ :: a.log = Call.atEnd _ :: b.log
    rw [hanswer, hlog]
  next := by
    rintro a b ⟨hdevice, hlog⟩
    obtain ⟨hanswer, hafter⟩ := h.next hdevice
    refine ⟨hanswer, hafter, ?_⟩
    show Call.next _ :: a.log = Call.next _ :: b.log
    rw [hanswer, hlog]

theorem takesAlike_matching {ω ω' : Type} [Output ω] [Output ω'] {R : ω → ω' → Prop}
    (h : TakesAlike R) : TakesAlike (Matching R) := by
  rintro a b ⟨hdevice, hlog⟩ batch
  obtain ⟨hanswer, hafter⟩ := h hdevice batch
  refine ⟨hanswer, hafter, ?_⟩
  show Call.write batch _ :: a.log = Call.write batch _ :: b.log
  rw [hanswer, hlog]

end Logged

namespace Machine

variable {ι ω : Type}

/-- The machine with logs on its devices, both empty. -/
def logged (machine : Machine ι ω) : Machine (Logged ι) (Logged ω) :=
  { machine with input := ⟨machine.input, []⟩, output := ⟨machine.output, []⟩ }

theorem alike_logged (machine : Machine ι ω) :
    Alike Logged.Of Logged.Of machine.logged machine :=
  ⟨rfl, rfl, rfl, rfl, rfl, rfl, fun _ => rfl⟩

theorem Alike.logged {ι' ω' : Type} {RI : ι → ι' → Prop} {RO : ω → ω' → Prop} {m : Machine ι ω}
    {m' : Machine ι' ω'} (h : Alike RI RO m m') :
    Alike (Logged.Matching RI) (Logged.Matching RO) m.logged m'.logged :=
  ⟨h.eof, ⟨h.input, rfl⟩, ⟨h.output, rfl⟩, h.program, h.programCounter, h.cursor, h.cell⟩

/-- What the devices have noted down, in order.  No instruction calls both of them. -/
def noted (machine : Machine (Logged ι) (Logged ω)) : List Call :=
  machine.input.log.reverse ++ machine.output.log.reverse

variable [Input ι] [Output ω]

/-- Logging changes neither how a run ends nor what it leaves behind. -/
theorem logged_run (machine : Machine ι ω) (limit : Nat) :
    (machine.logged.run limit).1 = (machine.run limit).1 ∧
      Alike Logged.Of Logged.Of (machine.logged.run limit).2 (machine.run limit).2 :=
  machine.alike_logged.run Logged.answersAlike_of Logged.takesAlike_of limit

/-- The calls of one instruction, in order. -/
def calls (machine : Machine ι ω) (instruction : Instruction) : List Call :=
  (machine.logged.perform instruction).2.noted

/-- The calls of a run of at most `limit` fetches, in order. -/
def callsWithin : (limit : Nat) → Machine ι ω → List Call
  | 0, _ => []
  | limit + 1, machine =>
    match machine.fetch with
    | none => []
    | some instruction =>
      machine.calls instruction ++ match machine.perform instruction with
        | (.ok (), machine) => callsWithin limit machine
        | (.error _, _) => []

theorem callsWithin_of_ok {machine next : Machine ι ω} {instruction : Instruction}
    (hf : machine.fetch = some instruction) (h : machine.perform instruction = (.ok (), next))
    (limit : Nat) :
    machine.callsWithin (limit + 1) = machine.calls instruction ++ next.callsWithin limit := by
  rw [callsWithin, hf]
  dsimp only
  rw [h]

theorem callsWithin_of_error {machine next : Machine ι ω} {instruction : Instruction}
    {fault : Fault} (hf : machine.fetch = some instruction)
    (h : machine.perform instruction = (.error fault, next)) (limit : Nat) :
    machine.callsWithin (limit + 1) = machine.calls instruction := by
  rw [callsWithin, hf]
  dsimp only
  rw [h]
  exact List.append_nil _

/-- The calls of a run that was stopped, and then those of the run that takes it up. -/
theorem callsWithin_add {machine machine' : Machine ι ω} {limit : Nat}
    (h : machine.run limit = (.stopped, machine')) (more : Nat) :
    machine.callsWithin (limit + more) =
      machine.callsWithin limit ++ machine'.callsWithin more := by
  induction limit generalizing machine with
  | zero =>
    cases h
    rw [Nat.zero_add]
    rfl
  | succ limit ih =>
    rw [Nat.succ_add]
    cases hf : machine.fetch with
    | none =>
      rw [run_of_fetch_none hf] at h
      cases h
    | some instruction =>
      rcases hp : machine.perform instruction with ⟨fault | _, next⟩
      · rw [run_of_error hf hp] at h
        cases h
      · rw [run_of_ok hf hp] at h
        rw [callsWithin_of_ok hf hp, callsWithin_of_ok hf hp, ih h, List.append_assoc]

/-- An instruction that neither reads nor writes calls no device. -/
theorem calls_quiet (machine : Machine ι ω) {instruction : Instruction}
    (hread : instruction.opcode? ≠ some .readByte)
    (hwrite : instruction.opcode? = some .writeByte → instruction.argument.toInt ≤ 0) :
    machine.calls instruction = [] := by
  -- the logged machine is alike to itself, with empty logs
  have hself : Alike (fun a _ : Logged ι => a.log = []) (fun a _ : Logged ω => a.log = [])
      machine.logged machine.logged := ⟨rfl, rfl, rfl, rfl, rfl, rfl, fun _ => rfl⟩
  obtain ⟨-, hafter⟩ := hself.perform_quiet hread hwrite
  unfold calls noted
  rw [hafter.input, hafter.output]
  rfl

/-! ### Writing -/

omit [Input ι] [Output ω] in
theorem noted_settle (done : Except IoError Unit × Machine (Logged ι) (Logged ω)) :
    (settle done).2.noted = done.2.noted := by
  obtain ⟨error | _, machine⟩ := done <;> rfl

/-- An instruction that writes makes one call, with the whole batch. -/
theorem calls_writeByte (machine : Machine ι ω) {instruction : Instruction}
    (hop : instruction.opcode? = some .writeByte) (hpos : 0 < instruction.argument.toInt) :
    machine.calls instruction = [.write (machine.batch instruction)
      (Output.write machine.output (machine.batch instruction)).1] := by
  obtain ⟨scratch, hperform⟩ := perform_batch machine.logged hop hpos
  unfold calls
  rw [hperform, noted_settle]
  rfl

/-- An instruction that writes nothing makes no call to the output. -/
theorem calls_silent (machine : Machine ι ω) {instruction : Instruction}
    (hwrite : instruction.opcode? = some .writeByte → instruction.argument.toInt ≤ 0)
    (batch : List UInt8) (answer : Except IoError Unit) :
    Call.write batch answer ∉ machine.calls instruction := by
  -- the logged machine is alike to itself, with silent logs
  have hRI : AnswersAlike fun a b : Logged ι => a = b ∧ Logged.Silent a :=
    { atEnd := by
        rintro a b ⟨rfl, hsilent⟩
        exact ⟨rfl, rfl, fun _ _ => List.not_mem_cons_of_ne_of_not_mem nofun (hsilent _ _)⟩
      next := by
        rintro a b ⟨rfl, hsilent⟩
        exact ⟨rfl, rfl, fun _ _ => List.not_mem_cons_of_ne_of_not_mem nofun (hsilent _ _)⟩ }
  have hself : Alike (fun a b : Logged ι => a = b ∧ Logged.Silent a)
      (fun a _ : Logged ω => a.log = []) machine.logged machine.logged :=
    ⟨rfl, ⟨rfl, fun _ _ => List.not_mem_nil⟩, rfl, rfl, rfl, rfl, fun _ => rfl⟩
  obtain ⟨-, hafter⟩ := hself.perform_silent hRI hwrite
  unfold calls noted
  rw [hafter.output, List.reverse_nil, List.append_nil, List.mem_reverse]
  exact hafter.input.2 batch answer

section Alike

variable {ι' ω' : Type} [Input ι'] [Output ω'] {RI : ι → ι' → Prop} {RO : ω → ω' → Prop}
  {m : Machine ι ω} {m' : Machine ι' ω'}

theorem calls_alike (hRI : AnswersAlike RI) (hRO : TakesAlike RO) (h : Alike RI RO m m')
    (instruction : Instruction) : m.calls instruction = m'.calls instruction := by
  have hRI' : AnswersAlike (Logged.Matching RI) := Logged.answersAlike_matching hRI
  have hRO' : TakesAlike (Logged.Matching RO) := Logged.takesAlike_matching hRO
  obtain ⟨-, hafter⟩ := h.logged.perform hRI' hRO' instruction
  unfold calls noted
  rw [hafter.input.2, hafter.output.2]

theorem callsWithin_alike (hRI : AnswersAlike RI) (hRO : TakesAlike RO) (h : Alike RI RO m m')
    (limit : Nat) : m.callsWithin limit = m'.callsWithin limit := by
  induction limit generalizing m m' with
  | zero => rfl
  | succ limit ih =>
    cases hf : m.fetch with
    | none => rw [callsWithin, callsWithin, ← h.fetch, hf]
    | some instruction =>
      have hf' : m'.fetch = some instruction := h.fetch.symm.trans hf
      have hcalls := calls_alike hRI hRO h instruction
      obtain ⟨hr, hm⟩ := h.perform hRI hRO instruction
      rcases hp : m.perform instruction with ⟨result, after⟩
      rcases hp' : m'.perform instruction with ⟨result', after'⟩
      rw [hp, hp'] at hr hm
      obtain rfl : result = result' := hr
      cases result with
      | ok => rw [callsWithin_of_ok hf hp, callsWithin_of_ok hf' hp', hcalls, ih hm]
      | error fault => rw [callsWithin_of_error hf hp, callsWithin_of_error hf' hp', hcalls]

end Alike

/-! ### Jumps and places -/

theorem calls_jump (machine : Machine ι ω) {instruction : Instruction}
    (h : instruction.opcode? = some .jumpIfZero ∨ instruction.opcode? = some .jumpIfNonzero) :
    machine.calls instruction = [] := by
  rcases h with h | h <;> exact calls_quiet machine (by rw [h]; nofun) (by rw [h]; nofun)

theorem calls_goto (machine : Machine ι ω) (counter : UInt64) (action : Action)
    (argument : Int32) :
    (machine.goto counter).calls (.ofOpcode (.ofAction action) argument) =
      machine.calls (.ofOpcode (.ofAction action) argument) := by
  have h := perform_goto machine.logged counter action argument
  have hlogged : (machine.goto counter).logged = machine.logged.goto counter := rfl
  unfold calls
  rw [hlogged, h]
  rfl

end Machine

end TapeMachine
