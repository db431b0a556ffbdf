import TapeMachine.Proofs.Device.Supply

/-!
# TapeMachine.Proofs.Device.Conversation — no byte and no error gets lost on a reader

A reader is asked, in any order, whether its bytes have ended and for the next byte.  To answer it
looks at its chunk, which it fills again after each interruption: `Looks` is that loop, with the
interruptions it passed over and what the last fill showed.  A conversation is a sequence of
questions with the answers to them, each with its look.  Whatever arrives and whatever is asked,
the bytes taken and those still to come are the bytes there were in the beginning, and so are the
errors, interruptions apart (`conversation_conserves`).
-/

namespace TapeMachine

namespace ChunkedReader

/-- A fill of the chunk, made again after each interruption: the interruptions, what the last fill
showed, and the reader after it. -/
inductive Looks : ChunkedReader → List IoError → Except IoError (List UInt8) → ChunkedReader → Prop
  | shown {reader later : ChunkedReader} {chunk : List UInt8}
      (hfill : reader.fill = (.ok chunk, later)) : Looks reader [] (.ok chunk) later
  | failed {reader later : ChunkedReader} {error : IoError}
      (hfill : reader.fill = (.error error, later)) (hkind : error.isInterrupted = false) :
      Looks reader [] (.error error) later
  | interrupted {reader between later : ChunkedReader} {error : IoError}
      {interruptions : List IoError} {shown : Except IoError (List UInt8)}
      (hfill : reader.fill = (.error error, between)) (hkind : error.isInterrupted = true)
      (hrest : Looks between interruptions shown later) :
      Looks reader (error :: interruptions) shown later

/-- What a reader is asked. -/
inductive Question where
  | atEnd
  | next
  deriving DecidableEq, Repr, Inhabited

/-- The answer to a question. -/
inductive Reply where
  | atEnd (answer : Except IoError Bool)
  | next (answer : Except IoError UInt8)

/-- Answers a question. -/
def reply (reader : ChunkedReader) : Question → Reply × ChunkedReader
  | .atEnd => let (answer, later) := Input.atEnd reader; (.atEnd answer, later)
  | .next => let (answer, later) := Input.next reader; (.next answer, later)

/-- The byte that the asker has got, if it has got one. -/
def Reply.taken : Reply → List UInt8
  | next (.ok byte) => [byte]
  | next (.error _) | atEnd _ => []

/-- The error that the asker has got, if it has got one. -/
def Reply.error? : Reply → Option IoError
  | atEnd (.error error) | next (.error error) => some error
  | atEnd (.ok _) | next (.ok _) => none

/-- A question and its answer, with the look at the chunk in between. -/
structure Exchange where
  question : Question
  interruptions : List IoError
  shown : Except IoError (List UInt8)
  reply : Reply

/-- The error that a fill raises, if it raises one. -/
def raisedBy : Except IoError (List UInt8) → Option IoError
  | .ok _ => none
  | .error error => some error

/-- The error that the reader raised, interruptions apart. -/
def Exchange.raised (exchange : Exchange) : Option IoError := raisedBy exchange.shown

/-- The asker gets no interruption, but every other error that the reader raises.  The only error of
another origin is the answer to the question for a byte when the reader shows none. -/
structure Exchange.Honest (exchange : Exchange) : Prop where
  interruptions : ∀ error ∈ exchange.interruptions, error.isInterrupted = true
  raised : ∀ error, exchange.raised = some error → exchange.reply.error? = some error
  error : ∀ error, exchange.reply.error? = some error → error.isInterrupted = false ∧
    (exchange.raised = some error ∨
      exchange.shown = .ok [] ∧ exchange.question = .next ∧ error = .inputExhausted)

/-- Questions that a reader is asked one after the other. -/
inductive Converses : ChunkedReader → List Exchange → ChunkedReader → Prop
  | nil (reader : ChunkedReader) : Converses reader [] reader
  | cons {reader seen between later : ChunkedReader} {exchange : Exchange}
      {exchanges : List Exchange}
      (hlooks : Looks reader exchange.interruptions exchange.shown seen)
      (hreply : reader.reply exchange.question = (exchange.reply, between))
      (hrest : Converses between exchanges later) : Converses reader (exchange :: exchanges) later

/-- The errors among some arrivals, interruptions apart. -/
def errorsAmong (arrivals : List Arrival) : List IoError :=
  arrivals.filterMap fun
    | .bytes _ => none
    | .failure error => if error.isInterrupted then none else some error

/-- The answer to a question, by what the look before it showed. -/
inductive Answered (seen : ChunkedReader) :
    Question → Except IoError (List UInt8) → Reply → ChunkedReader → Prop
  | atEnd (chunk : List UInt8) :
      Answered seen .atEnd (.ok chunk) (.atEnd (.ok chunk.isEmpty)) seen
  | atEndFailed (error : IoError) :
      Answered seen .atEnd (.error error) (.atEnd (.error error)) seen
  | took (byte : UInt8) (rest : List UInt8) :
      Answered seen .next (.ok (byte :: rest)) (.next (.ok byte)) (seen.consume 1)
  | exhausted : Answered seen .next (.ok []) (.next (.error .inputExhausted)) seen
  | nextFailed (error : IoError) :
      Answered seen .next (.error error) (.next (.error error)) seen

/-- What can be said of the next question to a reader. -/
structure Ready (reader : ChunkedReader) : Prop where
  /-- To ask for the end takes no byte. -/
  keeps : (reader.reply .atEnd).2.toList = reader.toList
  /-- When the bytes have not ended, the next one is there to be taken, and they still have not
  ended when the question is asked again. -/
  holds : (reader.reply .atEnd).1 = .atEnd (.ok false) → ∃ byte rest, reader.toList = byte :: rest ∧
    ((reader.reply .atEnd).2.reply .next).1 = .next (.ok byte) ∧
    ((reader.reply .atEnd).2.reply .atEnd).1 = .atEnd (.ok false)
  /-- The answer comes after one fill for each interruption that is passed over, and one more. -/
  answers : ∀ question, ∃ interruptions shown seen, Looks reader interruptions shown seen ∧
    interruptions.length ≤ reader.arrivals.length ∧
    Answered seen question shown (reader.reply question).1 (reader.reply question).2

/-! ### The loop -/

/-- Every look comes to an end. -/
theorem exists_looks (reader : ChunkedReader) :
    ∃ interruptions shown seen, Looks reader interruptions shown seen := by
  obtain ⟨chunk, arrivals⟩ := reader
  cases chunk with
  | cons byte rest => exact ⟨[], _, _, .shown rfl⟩
  | nil =>
    induction arrivals with
    | nil => exact ⟨[], _, _, .shown rfl⟩
    | cons arrival arrivals ih =>
      cases arrival with
      | bytes chunk => exact ⟨[], _, _, .shown rfl⟩
      | failure error =>
        cases hkind : error.isInterrupted with
        | false => exact ⟨[], _, _, .failed rfl hkind⟩
        | true =>
          obtain ⟨interruptions, shown, seen, hrest⟩ := ih
          exact ⟨error :: interruptions, shown, seen, .interrupted rfl hkind hrest⟩

/-- A fill that shows bytes, or their end, has them in its chunk and passes over no error. -/
theorem fill_ok {reader later : ChunkedReader} {chunk : List UInt8}
    (h : reader.fill = (.ok chunk, later)) :
    later.chunk = chunk ∧ later.toList = reader.toList ∧
      errorsAmong later.arrivals = errorsAmong reader.arrivals := by
  obtain ⟨held, arrivals⟩ := reader
  cases held with
  | cons byte rest =>
    cases h
    exact ⟨rfl, rfl, rfl⟩
  | nil => rcases arrivals with _ | ⟨_ | _, arrivals⟩ <;> cases h <;> exact ⟨rfl, rfl, rfl⟩

/-- A fill that fails uses up the error, and nothing else. -/
theorem fill_error {reader later : ChunkedReader} {error : IoError}
    (h : reader.fill = (.error error, later)) :
    later.toList = reader.toList ∧ reader.arrivals = .failure error :: later.arrivals := by
  obtain ⟨held, arrivals⟩ := reader
  cases held with
  | cons byte rest => cases h
  | nil =>
    rcases arrivals with _ | ⟨_ | failure, arrivals⟩ <;> cases h
    exact ⟨rfl, rfl⟩

theorem errorsAmong_failure (error : IoError) (arrivals : List Arrival) :
    errorsAmong (.failure error :: arrivals) =
      if error.isInterrupted then errorsAmong arrivals else error :: errorsAmong arrivals := by
  cases h : error.isInterrupted <;> simp [errorsAmong, h]

namespace Looks

variable {reader seen : ChunkedReader} {interruptions : List IoError}
  {shown : Except IoError (List UInt8)}

/-- To look at the next byte is to go through the loop. -/
theorem peek_eq (h : Looks reader interruptions shown seen) :
    reader.peek = (shown.map List.head?, seen) := by
  induction h with
  | shown hfill =>
    rw [ChunkedReader.peek_eq, hfill]
    rfl
  | failed hfill hkind =>
    rw [ChunkedReader.peek_eq, hfill]
    simp [hkind, Except.map]
  | interrupted hfill hkind hrest ih =>
    rw [ChunkedReader.peek_eq, hfill]
    simp [hkind, ih]

theorem interrupted_of_mem (h : Looks reader interruptions shown seen) :
    ∀ error ∈ interruptions, error.isInterrupted = true := by
  induction h with
  | shown | failed => simp
  | interrupted hfill hkind hrest ih =>
    intro error hmem
    rcases List.mem_cons.mp hmem with rfl | hlater
    · exact hkind
    · exact ih error hlater

theorem not_interrupted (h : Looks reader interruptions shown seen) {error : IoError}
    (hshown : shown = .error error) : error.isInterrupted = false := by
  induction h with
  | shown => cases hshown
  | failed hfill hkind =>
    cases hshown
    exact hkind
  | interrupted hfill hkind hrest ih => exact ih hshown

/-- Each interruption is one of the arrivals. -/
theorem length_le (h : Looks reader interruptions shown seen) :
    interruptions.length ≤ reader.arrivals.length := by
  induction h with
  | shown | failed => simp
  | interrupted hfill hkind hrest ih =>
    rw [(fill_error hfill).2]
    simpa using ih

theorem toList_eq (h : Looks reader interruptions shown seen) : seen.toList = reader.toList := by
  induction h with
  | shown hfill => exact (fill_ok hfill).2.1
  | failed hfill hkind => exact (fill_error hfill).1
  | interrupted hfill hkind hrest ih => exact ih.trans (fill_error hfill).1

theorem chunk_eq {chunk : List UInt8} (h : Looks reader interruptions shown seen)
    (hshown : shown = .ok chunk) : seen.chunk = chunk := by
  induction h with
  | shown hfill =>
    cases hshown
    exact (fill_ok hfill).1
  | failed => cases hshown
  | interrupted hfill hkind hrest ih => exact ih hshown

/-- The look uses up the error that it ends with, and no other but interruptions. -/
theorem errors_eq (h : Looks reader interruptions shown seen) :
    errorsAmong reader.arrivals = (raisedBy shown).toList ++ errorsAmong seen.arrivals := by
  induction h with
  | shown hfill => exact (fill_ok hfill).2.2.symm
  | failed hfill hkind => simp [(fill_error hfill).2, errorsAmong_failure, hkind, raisedBy]
  | interrupted hfill hkind hrest ih =>
    simp [(fill_error hfill).2, errorsAmong_failure, hkind, ih]

/-! ### Answers -/

theorem answered (h : Looks reader interruptions shown seen) (question : Question) :
    Answered seen question shown (reader.reply question).1 (reader.reply question).2 := by
  cases question with
  | atEnd =>
    rw [reply, atEnd_eq, h.peek_eq]
    rcases shown with error | chunk
    · exact .atEndFailed error
    · cases chunk <;> exact .atEnd _
  | next =>
    have hnext : Input.next reader = reader.next := rfl
    rw [reply, hnext, ChunkedReader.next, h.peek_eq]
    rcases shown with error | chunk
    · exact .nextFailed error
    · cases chunk with
      | nil => exact .exhausted
      | cons byte rest => exact .took byte rest

end Looks

namespace Answered

variable {seen later : ChunkedReader} {question : Question} {shown : Except IoError (List UInt8)}
  {reply : Reply}

/-- Only the byte that is given away leaves the reader. -/
theorem toList_eq (h : Answered seen question shown reply later)
    (hchunk : ∀ chunk, shown = .ok chunk → seen.chunk = chunk) :
    reply.taken ++ later.toList = seen.toList := by
  cases h with
  | took byte rest =>
    have hheld : seen.chunk = byte :: rest := hchunk _ rfl
    simp [Reply.taken, toList, consume, hheld]
  | atEnd | atEndFailed | exhausted | nextFailed => rfl

theorem arrivals_eq (h : Answered seen question shown reply later) :
    later.arrivals = seen.arrivals := by
  cases h <;> rfl

theorem error?_of_raisedBy (h : Answered seen question shown reply later) {error : IoError}
    (hraised : raisedBy shown = some error) : reply.error? = some error := by
  cases h with
  | atEnd | took | exhausted => cases hraised
  | atEndFailed | nextFailed => exact hraised

theorem cases_of_error? (h : Answered seen question shown reply later) {error : IoError}
    (herror : reply.error? = some error) :
    shown = .error error ∨ shown = .ok [] ∧ question = .next ∧ error = .inputExhausted := by
  cases h with
  | atEnd | took => cases herror
  | exhausted => exact .inr ⟨rfl, rfl, (Option.some.inj herror).symm⟩
  | atEndFailed | nextFailed =>
    cases herror
    exact .inl rfl

/-- Bytes that have not ended are on the chunk. -/
theorem shown_of_not_ended (h : Answered seen question shown reply later)
    (hreply : reply = .atEnd (.ok false)) : later = seen ∧ ∃ byte rest, shown = .ok (byte :: rest) := by
  cases h with
  | atEnd chunk =>
    cases chunk with
    | nil => cases hreply
    | cons byte rest => exact ⟨rfl, byte, rest, rfl⟩
  | atEndFailed | took | exhausted | nextFailed => cases hreply

end Answered

/-! ### One question -/

section Exchange

variable {reader seen between : ChunkedReader} {exchange : Exchange}

theorem Exchange.honest (hlooks : Looks reader exchange.interruptions exchange.shown seen)
    (hreply : reader.reply exchange.question = (exchange.reply, between)) : exchange.Honest := by
  have hanswered := hlooks.answered exchange.question
  rw [hreply] at hanswered
  refine ⟨hlooks.interrupted_of_mem, fun error => hanswered.error?_of_raisedBy, ?_⟩
  intro error herror
  rcases hanswered.cases_of_error? herror with hshown | ⟨hshown, hquestion, rfl⟩
  · refine ⟨hlooks.not_interrupted hshown, .inl ?_⟩
    rw [Exchange.raised, hshown]
    rfl
  · exact ⟨rfl, .inr ⟨hshown, hquestion, rfl⟩⟩

/-- What the asker gets and what stays on the reader were there before. -/
theorem Exchange.conserves (hlooks : Looks reader exchange.interruptions exchange.shown seen)
    (hreply : reader.reply exchange.question = (exchange.reply, between)) :
    exchange.reply.taken ++ between.toList = reader.toList ∧
      exchange.raised.toList ++ errorsAmong between.arrivals = errorsAmong reader.arrivals := by
  have hanswered := hlooks.answered exchange.question
  rw [hreply] at hanswered
  refine ⟨?_, ?_⟩
  · rw [← hlooks.toList_eq]
    exact hanswered.toList_eq fun chunk => hlooks.chunk_eq
  · rw [hlooks.errors_eq, ← hanswered.arrivals_eq]
    rfl

theorem reply_of_chunk {byte : UInt8} {rest : List UInt8} (h : reader.chunk = byte :: rest) :
    (reader.reply .next).1 = .next (.ok byte) ∧
      (reader.reply .atEnd).1 = .atEnd (.ok false) := by
  obtain ⟨chunk, arrivals⟩ := reader
  cases h
  exact ⟨rfl, rfl⟩

theorem ready (reader : ChunkedReader) : Ready reader := by
  obtain ⟨interruptions, shown, seen, hlooks⟩ := reader.exists_looks
  have hanswered := hlooks.answered .atEnd
  have hlist := hanswered.toList_eq fun chunk => hlooks.chunk_eq
  rw [hlooks.toList_eq] at hlist
  refine ⟨hlist, fun hfalse => ?_, fun question =>
    ⟨interruptions, shown, seen, hlooks, hlooks.length_le, hlooks.answered question⟩⟩
  obtain ⟨hlater, byte, rest, hshown⟩ := hanswered.shown_of_not_ended hfalse
  have hchunk : seen.chunk = byte :: rest := hlooks.chunk_eq hshown
  rw [hlater]
  refine ⟨byte, rest ++ seen.arrivals.flatMap Arrival.contents, ?_, reply_of_chunk hchunk⟩
  rw [← hlooks.toList_eq, toList, hchunk]
  rfl

end Exchange

/-! ### Any number of questions -/

namespace Converses

variable {reader later : ChunkedReader} {exchanges : List Exchange}

theorem conserves (h : Converses reader exchanges later) :
    exchanges.flatMap (·.reply.taken) ++ later.toList = reader.toList ∧
      exchanges.filterMap Exchange.raised ++ errorsAmong later.arrivals =
        errorsAmong reader.arrivals := by
  induction h with
  | nil reader => exact ⟨rfl, rfl⟩
  | @cons reader seen between later exchange exchanges hlooks hreply hrest ih =>
    obtain ⟨hbytes, herrors⟩ := Exchange.conserves hlooks hreply
    obtain ⟨hbytes', herrors'⟩ := ih
    refine ⟨?_, ?_⟩
    · rw [List.flatMap_cons, List.append_assoc, hbytes', hbytes]
    · rw [← herrors, ← herrors']
      cases hraised : exchange.raised <;> simp [hraised]

theorem honest (h : Converses reader exchanges later) :
    ∀ exchange ∈ exchanges, exchange.Honest := by
  induction h with
  | nil => simp
  | cons hlooks hreply hrest ih =>
    intro exchange hmem
    rcases List.mem_cons.mp hmem with rfl | hlater
    · exact Exchange.honest hlooks hreply
    · exact ih exchange hlater

end Converses

theorem exists_converses (reader : ChunkedReader) (questions : List Question) :
    ∃ exchanges later, Converses reader exchanges later ∧
      exchanges.map Exchange.question = questions := by
  induction questions generalizing reader with
  | nil => exact ⟨[], reader, .nil reader, rfl⟩
  | cons question questions ih =>
    obtain ⟨interruptions, shown, seen, hlooks⟩ := reader.exists_looks
    rcases hreply : reader.reply question with ⟨reply, between⟩
    obtain ⟨exchanges, later, hrest, hquestions⟩ := ih between
    refine ⟨⟨question, interruptions, shown, reply⟩ :: exchanges, later, ?_, ?_⟩
    · exact .cons hlooks hreply hrest
    · rw [List.map_cons, hquestions]

/-- Whatever is to arrive at a reader and whatever it is asked, in any order, every question gets an
answer.  At any point the bytes given away and those still on the reader are those that were on it
in the beginning, in order.  Every error that it raised but an interruption is the answer to the
question that met it, and so is gone from what is still to arrive; no answer is an interruption.
And what is said by `Ready` holds of the question that comes next. -/
theorem conversation_conserves (reader : ChunkedReader) (questions : List Question) :
    ∃ exchanges later, Converses reader exchanges later ∧
      exchanges.map Exchange.question = questions ∧
      exchanges.flatMap (·.reply.taken) ++ later.toList = reader.toList ∧
      exchanges.filterMap Exchange.raised ++ errorsAmong later.arrivals =
        errorsAmong reader.arrivals ∧
      (∀ exchange ∈ exchanges, exchange.Honest) ∧ Ready later := by
  obtain ⟨exchanges, later, hconverses, hquestions⟩ := reader.exists_converses questions
  obtain ⟨hbytes, herrors⟩ := hconverses.conserves
  exact ⟨exchanges, later, hconverses, hquestions, hbytes, herrors, hconverses.honest, later.ready⟩

end ChunkedReader

end TapeMachine
