import TapeMachine.Device.ChunkedReader

/-!
# TapeMachine.Proofs.Device.Supply — inputs that hold a sequence of bytes

Whatever an input is made of, a caller can only find out which bytes it holds.  `Supplies Holds`
says that an input in the relation `Holds` with a sequence of bytes answers every question as the
sequence does.  Blocks and queues are such inputs (`supplies_block`, `supplies_queue`), and so are
readers to which the bytes arrive in chunks, as long as nothing but interruptions comes between the
chunks and the input does not end early (`supplies_reader`).
-/

namespace TapeMachine

/-- Inputs that answer as the bytes they hold, and as an exhausted input when they hold none. -/
structure Supplies {ι : Type} [Input ι] (Holds : ι → List UInt8 → Prop) : Prop where
  atEnd : ∀ {input bytes}, Holds input bytes →
    ∃ after, Input.atEnd input = (.ok bytes.isEmpty, after) ∧ Holds after bytes
  next : ∀ {input byte bytes}, Holds input (byte :: bytes) →
    ∃ after, Input.next input = (.ok byte, after) ∧ Holds after bytes
  exhausted : ∀ {input}, Holds input [] →
    ∃ after, Input.next input = (.error .inputExhausted, after) ∧ Holds after []

/-! ### Bytes in memory -/

theorem atEnd_block {block : ByteBlock} (h : block.toList = []) :
    Input.atEnd block = (.ok true, block) := by
  have hle : block.bytes.size ≤ block.position := List.drop_eq_nil_iff.mp h
  show (Except.ok (decide _), block) = _
  rw [decide_eq_true hle]

theorem next_block {block : ByteBlock} {byte : UInt8} {rest : List UInt8}
    (h : block.toList = byte :: rest) :
    Input.atEnd block = (.ok false, block) ∧
      ∃ after, Input.next block = (.ok byte, after) ∧ after.toList = rest := by
  have hbyte : block.bytes[block.position]? = some byte := by
    rw [← Array.getElem?_toList, ← List.head?_drop]
    exact congrArg List.head? h
  have hlt : block.position < block.bytes.size := (Array.getElem?_eq_some_iff.mp hbyte).1
  refine ⟨?_, { block with position := block.position + 1 }, ?_, ?_⟩
  · show (Except.ok (decide _), block) = _
    rw [decide_eq_false (by omega)]
  · show block.next = _
    unfold ByteBlock.next
    rw [hbyte]
  · show block.bytes.toList.drop (block.position + 1) = rest
    rw [← List.drop_drop]
    exact congrArg (List.drop 1) h

/-- The block holds these bytes. -/
def ByteBlock.Holds (block : ByteBlock) (bytes : List UInt8) : Prop := block.toList = bytes

theorem supplies_block : Supplies ByteBlock.Holds where
  atEnd := by
    rintro block bytes h
    cases bytes with
    | nil => exact ⟨block, atEnd_block h, h⟩
    | cons byte rest => exact ⟨block, (next_block h).1, h⟩
  next h := (next_block h).2
  exhausted := by
    intro block h
    have hle : block.bytes.size ≤ block.position := List.drop_eq_nil_iff.mp h
    refine ⟨block, ?_, h⟩
    show block.next = _
    unfold ByteBlock.next
    rw [Array.getElem?_eq_none hle]

theorem ByteQueue.isEmpty_eq (queue : ByteQueue) : queue.isEmpty = queue.toList.isEmpty := by
  obtain ⟨front, back⟩ := queue
  cases front <;> simp [isEmpty, toList, List.isEmpty_reverse]

/-- The queue holds these bytes. -/
def ByteQueue.Holds (queue : ByteQueue) (bytes : List UInt8) : Prop := queue.toList = bytes

theorem supplies_queue : Supplies ByteQueue.Holds where
  atEnd := by
    rintro queue bytes rfl
    exact ⟨queue, congrArg (Except.ok ·, queue) queue.isEmpty_eq, rfl⟩
  next := by
    rintro ⟨front, back⟩ byte bytes h
    cases front with
    | cons first front =>
      obtain ⟨rfl, rfl⟩ := List.cons.inj h
      exact ⟨⟨front, back⟩, rfl, rfl⟩
    | nil =>
      have hback : back.reverse = byte :: bytes := h
      refine ⟨⟨bytes, []⟩, ?_, List.append_nil bytes⟩
      show ByteQueue.next _ = _
      simp only [ByteQueue.next, hback]
  exhausted := by
    rintro ⟨front, back⟩ h
    obtain ⟨rfl, hback⟩ := List.append_eq_nil_iff.mp h
    refine ⟨⟨[], back⟩, ?_, h⟩
    show ByteQueue.next _ = _
    simp only [ByteQueue.next, hback]

/-! ### Bytes in chunks -/

/-- The bytes that an arrival brings. -/
def Arrival.contents : Arrival → List UInt8
  | .bytes chunk => chunk
  | .failure _ => []

/-- Arrivals among which every failure is an interruption, and no end of the input comes before a
byte. -/
inductive Steady : List Arrival → Prop
  | nil : Steady []
  | chunk {chunk : List UInt8} {later : List Arrival} (hchunk : chunk ≠ []) (h : Steady later) :
      Steady (.bytes chunk :: later)
  | ended {later : List Arrival} (hlast : later.flatMap Arrival.contents = []) (h : Steady later) :
      Steady (.bytes [] :: later)
  | interrupted {error : IoError} {later : List Arrival} (herror : error.isInterrupted = true)
      (h : Steady later) : Steady (.failure error :: later)

namespace ChunkedReader

/-- The bytes not taken yet: those of the chunk, and those that will arrive. -/
def toList (reader : ChunkedReader) : List UInt8 :=
  reader.chunk ++ reader.arrivals.flatMap Arrival.contents

@[simp] theorem toList_ofList (bytes : List UInt8) : (ofList bytes).toList = bytes :=
  List.append_nil bytes

/-- The reader holds these bytes, and nothing comes in between them but interruptions. -/
def Holds (reader : ChunkedReader) (bytes : List UInt8) : Prop :=
  reader.toList = bytes ∧ Steady reader.arrivals

theorem firstArriving_of_steady {arrivals : List Arrival} (h : Steady arrivals) :
    ∃ later, firstArriving arrivals = (.ok (arrivals.flatMap Arrival.contents).head?, later) ∧
      later.toList = arrivals.flatMap Arrival.contents ∧ Steady later.arrivals ∧
      (later.chunk = [] → later.toList = []) := by
  induction h with
  | nil => exact ⟨⟨[], []⟩, rfl, rfl, .nil, fun _ => rfl⟩
  | @chunk chunk later hchunk h ih =>
    obtain ⟨byte, rest, rfl⟩ := List.exists_cons_of_ne_nil hchunk
    exact ⟨⟨byte :: rest, later⟩, rfl, rfl, h, nofun⟩
  | @ended later hlast h ih =>
    refine ⟨⟨[], later⟩, ?_, rfl, h, fun _ => hlast⟩
    show (Except.ok none, _) = (Except.ok (List.head? (later.flatMap Arrival.contents)), _)
    rw [hlast]
    rfl
  | @interrupted error later herror h ih =>
    -- passed over without a trace
    rw [firstArriving, if_pos herror]
    exact ih

/-- A look at the next byte finds the first of the bytes held, and takes none of them. -/
theorem peek_of_holds {reader : ChunkedReader} {bytes : List UInt8} (h : reader.Holds bytes) :
    ∃ later, reader.peek = (.ok bytes.head?, later) ∧ later.Holds bytes ∧
      (later.chunk = [] → bytes = []) := by
  obtain ⟨rfl, hsteady⟩ := h
  obtain ⟨chunk, arrivals⟩ := reader
  cases chunk with
  | cons byte rest => exact ⟨_, rfl, ⟨rfl, hsteady⟩, nofun⟩
  | nil =>
    obtain ⟨later, hfirst, hlist, hlater, hempty⟩ := firstArriving_of_steady hsteady
    exact ⟨later, hfirst, ⟨hlist, hlater⟩, fun hchunk => hlist.symm.trans (hempty hchunk)⟩

theorem atEnd_eq (reader : ChunkedReader) :
    Input.atEnd reader = match reader.peek with
      | (.ok byte?, later) => (.ok byte?.isNone, later)
      | (.error error, later) => (.error error, later) := rfl

/-- Taking a byte from a chunk that holds one. -/
theorem consume_one {later : ChunkedReader} {byte : UInt8} {bytes : List UInt8}
    (h : later.Holds (byte :: bytes)) (hchunk : later.chunk ≠ []) :
    (later.consume 1).Holds bytes := by
  obtain ⟨hlist, hsteady⟩ := h
  obtain ⟨chunk, arrivals⟩ := later
  cases chunk with
  | nil => exact absurd rfl hchunk
  | cons first rest =>
    obtain ⟨-, hrest⟩ := List.cons.inj hlist
    exact ⟨hrest, hsteady⟩

end ChunkedReader

theorem supplies_reader : Supplies ChunkedReader.Holds where
  atEnd := by
    intro reader bytes h
    obtain ⟨later, hpeek, hlater, -⟩ := ChunkedReader.peek_of_holds h
    refine ⟨later, ?_, hlater⟩
    rw [ChunkedReader.atEnd_eq, hpeek]
    cases bytes <;> rfl
  next := by
    intro reader byte bytes h
    obtain ⟨later, hpeek, hlater, hempty⟩ := ChunkedReader.peek_of_holds h
    refine ⟨later.consume 1, ?_, ChunkedReader.consume_one hlater fun hchunk => ?_⟩
    · show reader.next = _
      unfold ChunkedReader.next
      rw [hpeek]
      rfl
    · exact absurd (hempty hchunk) (List.cons_ne_nil _ _)
  exhausted := by
    intro reader h
    obtain ⟨later, hpeek, hlater, -⟩ := ChunkedReader.peek_of_holds h
    refine ⟨later, ?_, hlater⟩
    show reader.next = _
    unfold ChunkedReader.next
    rw [hpeek]
    rfl

end TapeMachine
