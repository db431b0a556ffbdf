import TapeMachine.Device.Stdout

/-!
# TapeMachine.Proofs.Device.Stdout — standard output on a device that takes everything

On such a device no operation fails.  Which bytes have reached the device and which are held back
depends on how they were batched, but together and in order they are the bytes written
(`Stdout.taken`).  A flush and a line break send everything (`flush_accepting`, `writeLine`).
-/

namespace TapeMachine

namespace Stdout

/-- Whether the device takes everything. -/
def Accepting (stdout : Stdout) : Prop := stdout.device.full = false

/-- The bytes taken: those that the device has received, and then those held back. -/
def taken (stdout : Stdout) : List UInt8 := stdout.device.received.toList ++ stdout.held.toList

/-- Standard output when these bytes have reached a device that takes everything. -/
def delivered (bytes : List UInt8) : Stdout := .onDevice ⟨false, ⟨bytes.toArray⟩⟩

@[simp] theorem taken_delivered (bytes : List UInt8) : (delivered bytes).taken = bytes :=
  List.append_nil bytes

theorem accepting_delivered (bytes : List UInt8) : (delivered bytes).Accepting := rfl

theorem eq_delivered {stdout : Stdout} {bytes : List UInt8} (h : stdout.Accepting)
    (hheld : stdout.held = .empty) (htaken : stdout.taken = bytes) : stdout = delivered bytes := by
  obtain ⟨⟨full, received⟩, held⟩ := stdout
  obtain rfl : full = false := h
  obtain rfl : held = .empty := hheld
  have hreceived : received.toList = bytes := by
    rw [← htaken]
    exact (List.append_nil _).symm
  rw [← hreceived]
  rfl

theorem send_accepting {device : Device} (h : device.full = false) (bytes : List UInt8) :
    device.send bytes = (.ok (), { device with received := device.received.append bytes }) := by
  cases bytes with
  | nil => rfl
  | cons byte bytes => simp [Device.send, h]

/-! ### Operations that succeed -/

/-- The operation succeeds and leaves standard output so. -/
def Succeeds (result : Except IoError Unit × Stdout) (After : Stdout → Prop) : Prop :=
  ∃ after, result = (.ok (), after) ∧ After after

/-- Standard output has taken these bytes more. -/
def Took (stdout : Stdout) (bytes : List UInt8) (after : Stdout) : Prop :=
  after.Accepting ∧ after.taken = stdout.taken ++ bytes

theorem succeeds_andThen {first : Except IoError Unit × Stdout}
    {second : Stdout → Except IoError Unit × Stdout} {Between After : Stdout → Prop}
    (h : Succeeds first Between) (h' : ∀ between, Between between → Succeeds (second between) After) :
    Succeeds (andThen first second) After := by
  obtain ⟨between, rfl, hbetween⟩ := h
  exact h' between hbetween

theorem Took.append {stdout between after : Stdout} {bytes bytes' : List UInt8}
    (h : Took stdout bytes between) (h' : Took between bytes' after) :
    Took stdout (bytes ++ bytes') after := by
  refine ⟨h'.1, ?_⟩
  rw [h'.2, h.2, List.append_assoc]

theorem Took.nothing {stdout : Stdout} (h : stdout.Accepting) : Took stdout [] stdout :=
  ⟨h, (List.append_nil _).symm⟩

variable {stdout : Stdout}

theorem flush_accepting (h : stdout.Accepting) :
    stdout.flush = (.ok (), delivered stdout.taken) := by
  unfold flush
  rw [send_accepting h]
  refine congrArg (Except.ok (), ·) (eq_delivered h rfl ?_)
  show (stdout.device.received.append _).toList ++ [] = _
  rw [ByteBuffer.toList_append, List.append_nil]
  rfl

theorem succeeds_sendDirectly (h : stdout.Accepting) (hheld : stdout.held.toList = [])
    (bytes : List UInt8) :
    Succeeds (stdout.sendDirectly bytes) fun after =>
      Took stdout bytes after ∧ after.held = stdout.held := by
  unfold sendDirectly
  rw [send_accepting h]
  refine ⟨_, rfl, ⟨h, ?_⟩, rfl⟩
  simp [taken, hheld]

theorem succeeds_flush (h : stdout.Accepting) :
    Succeeds stdout.flush fun after => Took stdout [] after ∧ after.held = .empty := by
  refine ⟨_, flush_accepting h, ⟨accepting_delivered _, ?_⟩, rfl⟩
  simp

theorem succeeds_holdBack (h : stdout.Accepting) (bytes : List UInt8) :
    Succeeds (stdout.holdBack bytes) (Took stdout bytes) := by
  have hroom : Succeeds
      (if capacity - stdout.held.bytes.size < bytes.length then stdout.flush else (.ok (), stdout))
      fun between => Took stdout [] between ∧
        (capacity ≤ bytes.length → between.held.toList = []) := by
    by_cases hspare : capacity - stdout.held.bytes.size < bytes.length
    · obtain ⟨between, hflush, htook, hheld⟩ := succeeds_flush h
      rw [if_pos hspare]
      exact ⟨between, hflush, htook, fun _ => by rw [hheld]; rfl⟩
    · rw [if_neg hspare]
      refine ⟨stdout, rfl, .nothing h, fun hle => ?_⟩
      -- a batch that needs the whole capacity, and fits, finds nothing held back
      have hcapacity : capacity = 1024 := rfl
      have hsize : stdout.held.toList.length = 0 := by
        rw [ByteBuffer.toList, Array.length_toList]
        omega
      exact List.length_eq_zero_iff.mp hsize
  refine succeeds_andThen hroom ?_
  rintro between ⟨hbetween, hheld⟩
  by_cases hlarge : capacity ≤ bytes.length
  · obtain ⟨after, hsent, htook, -⟩ := succeeds_sendDirectly hbetween.1 (hheld hlarge) bytes
    rw [if_pos hlarge]
    exact ⟨after, hsent, hbetween.append htook⟩
  · rw [if_neg hlarge]
    refine ⟨_, rfl, hbetween.append ⟨hbetween.1, ?_⟩⟩
    simp [taken]

theorem holdBack_nil (stdout : Stdout) : stdout.holdBack [] = (.ok (), stdout) := by
  simp [holdBack, andThen, capacity, ByteBuffer.append]

/-! ### Batches -/

theorem splitLines_append (bytes : List UInt8) :
    (splitLines bytes).1 ++ (splitLines bytes).2 = bytes := by
  have hsuffix : (bytes.reverse.takeWhile (· ≠ lineBreak)).reverse <:+ bytes := by
    have hprefix := List.takeWhile_prefix (· ≠ lineBreak) (l := bytes.reverse)
    simpa using List.reverse_suffix.mpr hprefix
  exact List.suffix_iff_eq_append.mp hsuffix

/-- Lines go out at once, after what was held back. -/
theorem succeeds_lines (h : stdout.Accepting) (lines : List UInt8) :
    Succeeds (if stdout.held.bytes.isEmpty then stdout.sendDirectly lines
      else andThen (stdout.holdBack lines) (·.flush)) fun between =>
        Took stdout lines between ∧ between.held = .empty := by
  by_cases hempty : stdout.held.bytes.isEmpty = true
  · have hheld : stdout.held = .empty := congrArg ByteBuffer.mk (Array.isEmpty_iff.mp hempty)
    have hlist : stdout.held.toList = [] := by rw [hheld]; rfl
    obtain ⟨between, hsent, htook, hkept⟩ := succeeds_sendDirectly h hlist lines
    rw [if_pos hempty]
    exact ⟨between, hsent, htook, hkept.trans hheld⟩
  · rw [if_neg hempty]
    refine succeeds_andThen (succeeds_holdBack h lines) fun between hbetween => ?_
    obtain ⟨after, hflushed, htook, hheld⟩ := succeeds_flush hbetween.1
    refine ⟨after, hflushed, ?_, hheld⟩
    simpa using hbetween.append htook

theorem succeeds_writeAll (h : stdout.Accepting) (bytes : List UInt8) :
    Succeeds (stdout.writeAll bytes) (Took stdout bytes) := by
  have happend := splitLines_append bytes
  unfold writeAll
  rcases hsplit : splitLines bytes with ⟨lines, tail⟩
  rw [hsplit] at happend
  cases lines with
  | nil =>
    have hsent : Succeeds (if stdout.held.bytes.back? = some lineBreak then stdout.flush
        else (.ok (), stdout)) (Took stdout []) := by
      split
      · obtain ⟨after, hflushed, htook, -⟩ := succeeds_flush h
        exact ⟨after, hflushed, htook⟩
      · exact ⟨stdout, rfl, .nothing h⟩
    refine succeeds_andThen hsent fun between hbetween => ?_
    obtain ⟨after, hheld, htook⟩ := succeeds_holdBack hbetween.1 tail
    refine ⟨after, hheld, ?_⟩
    rw [← happend]
    exact hbetween.append htook
  | cons first lines =>
    refine succeeds_andThen (succeeds_lines h _) ?_
    rintro between ⟨hbetween, -⟩
    obtain ⟨after, hheld, htook⟩ := succeeds_holdBack hbetween.1 tail
    refine ⟨after, hheld, ?_⟩
    rw [← happend]
    exact hbetween.append htook

/-- A line break sends everything. -/
theorem writeAll_lineBreak (h : stdout.Accepting) :
    stdout.writeAll [lineBreak] = (.ok (), delivered (stdout.taken ++ [lineBreak])) := by
  obtain ⟨between, hsent, ⟨haccepting, htaken⟩, hheld⟩ := succeeds_lines h [lineBreak]
  have hsplit : splitLines [lineBreak] = ([lineBreak], []) := by decide
  unfold writeAll
  rw [hsplit]
  dsimp only
  rw [hsent]
  show between.holdBack [] = _
  rw [holdBack_nil, eq_delivered haccepting hheld htaken]

/-- A batch and a line break after it reach the device, and nothing is held back. -/
theorem writeLine (h : stdout.Accepting) (bytes : List UInt8) :
    andThen (stdout.writeAll bytes) (·.writeAll [lineBreak]) =
      (.ok (), delivered (stdout.taken ++ (bytes ++ [lineBreak]))) := by
  obtain ⟨between, hwritten, haccepting, htaken⟩ := succeeds_writeAll h bytes
  rw [hwritten]
  show between.writeAll [lineBreak] = _
  rw [writeAll_lineBreak haccepting, htaken, List.append_assoc]

end Stdout

end TapeMachine
