import TapeMachine.Device.Scripted

/-!
# TapeMachine.Proofs.Device.Writer — batches that are taken in pieces

A writer is offered bytes, and takes some of them from the front or fails.  To hand over a batch is
to offer what is left of it until nothing is left (`Writer.HandsOver`): an interrupted offer is made
again, an offer of which no byte is taken counts as a failure, and any other error ends the attempt.
Whatever the writer does, it takes a part from the front of the batch, the whole of it exactly when
the attempt succeeds.  A writer that interrupts every offer never lets an attempt end; at any time,
it has taken what a writer has that fails then.
-/

namespace TapeMachine

/-- A writer, by its answers to single offers and by the bytes that it has taken with them. -/
structure Writer (ω : Type) where
  /-- Answers an offer: how many of the bytes are taken, or an error. -/
  offer : ω → List UInt8 → Except IoError Nat × ω
  /-- All bytes taken so far, in order. -/
  taken : ω → List UInt8
  length_le : ∀ {w bytes count w'}, offer w bytes = (.ok count, w') → count ≤ bytes.length
  taken_ok : ∀ {w bytes count w'}, offer w bytes = (.ok count, w') →
    taken w' = taken w ++ bytes.take count
  taken_error : ∀ {w bytes error w'}, offer w bytes = (.error error, w') → taken w' = taken w

namespace Writer

variable {ω : Type}

/-- Handing over a whole batch: how it ends, and the writer after it. -/
inductive HandsOver (writer : Writer ω) : ω → List UInt8 → Except IoError Unit → ω → Prop
  | done {w : ω} : HandsOver writer w [] (.ok ()) w
  | took {w w₁ w₂ : ω} {bytes : List UInt8} {count : Nat} {result : Except IoError Unit}
      (hne : bytes ≠ []) (hoffer : writer.offer w bytes = (.ok count, w₁)) (hpos : 0 < count)
      (hrest : HandsOver writer w₁ (bytes.drop count) result w₂) :
      HandsOver writer w bytes result w₂
  | nothing {w w₁ : ω} {bytes : List UInt8} (hne : bytes ≠ [])
      (hoffer : writer.offer w bytes = (.ok 0, w₁)) :
      HandsOver writer w bytes (.error .nothingAccepted) w₁
  | interrupted {w w₁ w₂ : ω} {bytes : List UInt8} {error : IoError} {result : Except IoError Unit}
      (hne : bytes ≠ []) (hoffer : writer.offer w bytes = (.error error, w₁))
      (hkind : error.isInterrupted = true) (hrest : HandsOver writer w₁ bytes result w₂) :
      HandsOver writer w bytes result w₂
  | failed {w w₁ : ω} {bytes : List UInt8} {error : IoError} (hne : bytes ≠ [])
      (hoffer : writer.offer w bytes = (.error error, w₁)) (hkind : error.isInterrupted = false) :
      HandsOver writer w bytes (.error error) w₁

/-- Whether writing to the output is handing the batch over to the writer. -/
def Serves [Output ω] (writer : Writer ω) : Prop :=
  ∀ w batch, writer.HandsOver w batch (Output.write w batch).1 (Output.write w batch).2

/-- The writer is what the output hands its batches over to, and a flush offers it nothing. -/
structure Backs [Sink ω] (writer : Writer ω) : Prop where
  serves : writer.Serves
  flush : ∀ w, writer.taken (Sink.flush w).2 = writer.taken w

namespace HandsOver

variable {writer : Writer ω} {w w' : ω} {bytes : List UInt8} {result : Except IoError Unit}

/-- The writer has taken the batch, or a part of it that ends before its end. -/
theorem taken (h : writer.HandsOver w bytes result w') :
    ∃ part, writer.taken w' = writer.taken w ++ part ∧ part <+: bytes ∧
      (result = .ok () → part = bytes) ∧ (result ≠ .ok () → part.length < bytes.length) := by
  induction h with
  | @done w => exact ⟨[], by simp, List.prefix_refl _, fun _ => rfl, by simp⟩
  | @took w w₁ w₂ bytes count result hne hoffer hpos hrest ih =>
    obtain ⟨part, htaken, hpart, hall, hshort⟩ := ih
    have hle := writer.length_le hoffer
    have hsplit : bytes.take count ++ bytes.drop count = bytes := List.take_append_drop _ _
    refine ⟨bytes.take count ++ part, ?_, ?_, ?_, ?_⟩
    · rw [htaken, writer.taken_ok hoffer, List.append_assoc]
    · have happend := (List.prefix_append_right_inj (bytes.take count)).mpr hpart
      rwa [hsplit] at happend
    · intro hok
      rw [hall hok, hsplit]
    · intro hfail
      have hlt := hshort hfail
      rw [List.length_drop] at hlt
      rw [List.length_append, List.length_take]
      omega
  | @nothing w w₁ bytes hne hoffer =>
    refine ⟨[], ?_, List.nil_prefix, by simp, fun _ => List.length_pos_iff.mpr hne⟩
    rw [writer.taken_ok hoffer, List.take_zero]
  | @interrupted w w₁ w₂ bytes error result hne hoffer hkind hrest ih =>
    rw [writer.taken_error hoffer] at ih
    exact ih
  | @failed w w₁ bytes error hne hoffer hkind =>
    refine ⟨[], ?_, List.nil_prefix, by simp, fun _ => List.length_pos_iff.mpr hne⟩
    rw [writer.taken_error hoffer, List.append_nil]

end HandsOver

/-! ### Two writers -/

variable {ω' : Type} {writer : Writer ω} {writer' : Writer ω'} {R : ω → ω' → Prop}

/-- Writers in the relation answer every offer alike and stay in it. -/
def OffersAlike (writer : Writer ω) (writer' : Writer ω') (R : ω → ω' → Prop) : Prop :=
  ∀ {a b}, R a b → ∀ bytes,
    (writer.offer a bytes).1 = (writer'.offer b bytes).1 ∧
      R (writer.offer a bytes).2 (writer'.offer b bytes).2

theorem OffersAlike.of_offer (hR : OffersAlike writer writer' R) {a a₁ : ω} {b : ω'} (h : R a b)
    {bytes : List UInt8} {answer : Except IoError Nat} (ha : writer.offer a bytes = (answer, a₁)) :
    ∃ b₁, writer'.offer b bytes = (answer, b₁) ∧ R a₁ b₁ := by
  obtain ⟨hanswer, hnext⟩ := hR h bytes
  rw [ha] at hanswer hnext
  exact ⟨_, Prod.ext hanswer.symm rfl, hnext⟩

/-- The answer to the first offer decides how the attempt goes on. -/
theorem HandsOver.resumed {w w₁ w' : ω} {bytes : List UInt8} {result : Except IoError Unit}
    {answer : Except IoError Nat} (h : writer.HandsOver w bytes result w') (hne : bytes ≠ [])
    (hoffer : writer.offer w bytes = (answer, w₁)) :
    match answer with
    | .ok count =>
      if 0 < count then writer.HandsOver w₁ (bytes.drop count) result w'
      else result = .error .nothingAccepted ∧ w' = w₁
    | .error error =>
      if error.isInterrupted = true then writer.HandsOver w₁ bytes result w'
      else result = .error error ∧ w' = w₁ := by
  cases h with
  | done => exact absurd rfl hne
  | took _ hfirst hpos hrest =>
    cases hfirst.symm.trans hoffer
    exact (if_pos hpos).mpr hrest
  | nothing _ hfirst =>
    cases hfirst.symm.trans hoffer
    exact (if_neg (Nat.lt_irrefl 0)).mpr ⟨rfl, rfl⟩
  | interrupted _ hfirst hkind hrest =>
    cases hfirst.symm.trans hoffer
    exact (if_pos hkind).mpr hrest
  | failed _ hfirst hkind =>
    cases hfirst.symm.trans hoffer
    exact (if_neg (Bool.eq_false_iff.mp hkind)).mpr ⟨rfl, rfl⟩

/-- Such writers let a batch end in the same way. -/
theorem HandsOver.alike (hR : OffersAlike writer writer' R) {a a' : ω} {bytes : List UInt8}
    {result : Except IoError Unit} (h : writer.HandsOver a bytes result a') {b b' : ω'}
    {result' : Except IoError Unit} (h' : writer'.HandsOver b bytes result' b') (hab : R a b) :
    result = result' ∧ R a' b' := by
  induction h generalizing b with
  | done =>
    cases h' with
    | done => exact ⟨rfl, hab⟩
    | took hne | nothing hne | interrupted hne | failed hne => exact absurd rfl hne
  | took hne hoffer hpos hrest ih =>
    obtain ⟨b₁, hoffer', hnext⟩ := hR.of_offer hab hoffer
    have hrest' := (if_pos hpos).mp (h'.resumed hne hoffer')
    exact ih hrest' hnext
  | nothing hne hoffer =>
    obtain ⟨b₁, hoffer', hnext⟩ := hR.of_offer hab hoffer
    obtain ⟨rfl, rfl⟩ := (if_neg (Nat.lt_irrefl 0)).mp (h'.resumed hne hoffer')
    exact ⟨rfl, hnext⟩
  | interrupted hne hoffer hkind hrest ih =>
    obtain ⟨b₁, hoffer', hnext⟩ := hR.of_offer hab hoffer
    have hrest' := (if_pos hkind).mp (h'.resumed hne hoffer')
    exact ih hrest' hnext
  | failed hne hoffer hkind =>
    obtain ⟨b₁, hoffer', hnext⟩ := hR.of_offer hab hoffer
    obtain ⟨rfl, rfl⟩ := (if_neg (Bool.eq_false_iff.mp hkind)).mp (h'.resumed hne hoffer')
    exact ⟨rfl, hnext⟩

/-- Related writers that have taken the same bytes since they were these two. -/
def Abreast (writer : Writer ω) (writer' : Writer ω') (R : ω → ω' → Prop) (start : ω)
    (start' : ω') (a : ω) (b : ω') : Prop :=
  R a b ∧ ∃ bytes, writer.taken a = writer.taken start ++ bytes ∧
    writer'.taken b = writer'.taken start' ++ bytes

theorem abreast_start {start : ω} {start' : ω'} (h : R start start') :
    Abreast writer writer' R start start' start start' :=
  ⟨h, [], (List.append_nil _).symm, (List.append_nil _).symm⟩

theorem OffersAlike.abreast (hR : OffersAlike writer writer' R) (start : ω) (start' : ω') :
    OffersAlike writer writer' (Abreast writer writer' R start start') := by
  rintro a b ⟨hab, part, htaken, htaken'⟩ bytes
  rcases ha : writer.offer a bytes with ⟨error | count, a₁⟩ <;>
    obtain ⟨b₁, hb, hnext⟩ := hR.of_offer hab ha <;> rw [hb]
  · refine ⟨rfl, hnext, part, ?_, ?_⟩
    · rw [writer.taken_error ha, htaken]
    · rw [writer'.taken_error hb, htaken']
  · refine ⟨rfl, hnext, part ++ bytes.take count, ?_, ?_⟩
    · rw [writer.taken_ok ha, htaken, List.append_assoc]
    · rw [writer'.taken_ok hb, htaken', List.append_assoc]

end Writer

/-! ### The scripted writer -/

namespace ScriptedWriter

/-- Answers one offer as the script says. -/
def offer (writer : ScriptedWriter) (bytes : List UInt8) : Except IoError Nat × ScriptedWriter :=
  match writer.writes with
  | [] => (.ok bytes.length, { writer with recorded := bytes :: writer.recorded })
  | .failure error :: writes => (.error error, { writer with writes })
  | .upTo count :: writes =>
    (.ok (min count bytes.length),
      { writer with writes, recorded := bytes.take count :: writer.recorded })

/-- The bytes of all pieces, in order. -/
def taken (writer : ScriptedWriter) : List UInt8 := writer.pieces.flatten

theorem taken_recorded (writes : List Acceptance) (flushes : List (Option IoError))
    (piece : List UInt8) (recorded : List (List UInt8)) :
    taken ⟨writes, flushes, piece :: recorded⟩ = taken ⟨writes, flushes, recorded⟩ ++ piece := by
  simp [taken, pieces]

/-- The scripted writer as a writer. -/
def asWriter : Writer ScriptedWriter where
  offer := offer
  taken := taken
  length_le := by
    rintro ⟨_ | ⟨_ | _, writes⟩, flushes, recorded⟩ bytes count w' h <;> cases h
    · exact Nat.le_refl _
    · exact Nat.min_le_right _ _
  taken_ok := by
    rintro ⟨_ | ⟨_ | _, writes⟩, flushes, recorded⟩ bytes count w' h <;> cases h
    · rw [taken_recorded, List.take_length]
    · rw [taken_recorded, List.take_eq_take_min]
      rfl
  taken_error := by
    rintro ⟨_ | ⟨_ | _, writes⟩, flushes, recorded⟩ bytes error w' h <;> cases h
    rfl

theorem handsOver_writePieces (writes : List Acceptance) (flushes : List (Option IoError))
    (recorded : List (List UInt8)) (bytes : List UInt8) :
    asWriter.HandsOver ⟨writes, flushes, recorded⟩ bytes (writePieces writes recorded bytes).1
      ⟨(writePieces writes recorded bytes).2.1, flushes,
        (writePieces writes recorded bytes).2.2⟩ := by
  fun_induction writePieces writes recorded bytes with
  | case1 writes recorded => exact .done
  | case2 recorded bytes hne =>
    have hrest : asWriter.HandsOver ⟨[], flushes, bytes :: recorded⟩ (bytes.drop bytes.length)
        (.ok ()) ⟨[], flushes, bytes :: recorded⟩ := by
      rw [List.drop_length]
      exact .done
    exact .took hne rfl (List.length_pos_iff.mpr hne) hrest
  | case3 error writes recorded bytes hne hkind ih => exact .interrupted hne rfl hkind ih
  | case4 error writes recorded bytes hne hkind =>
    exact .failed hne rfl (Bool.eq_false_iff.mpr hkind)
  | case5 writes recorded bytes hne =>
    have hoffer : asWriter.offer ⟨.upTo 0 :: writes, flushes, recorded⟩ bytes =
        (.ok 0, ⟨writes, flushes, [] :: recorded⟩) := by
      show (Except.ok (min 0 bytes.length), _) = _
      rw [Nat.zero_min]
      rfl
    exact .nothing hne hoffer
  | case6 count writes recorded bytes hne ih =>
    have hpos : 0 < bytes.length := List.length_pos_iff.mpr hne
    refine .took hne rfl (by omega) ?_
    rw [← List.drop_eq_drop_min]
    exact ih

/-- Writing a batch to the scripted writer is handing it over piece by piece. -/
theorem serves_asWriter : asWriter.Serves := fun w batch =>
  handsOver_writePieces w.writes w.flushes w.recorded batch

/-- Flushes of the scripted writer change the script of flushes only. -/
theorem backs_asWriter : asWriter.Backs where
  serves := serves_asWriter
  flush := by rintro ⟨writes, _ | ⟨_ | _, flushes⟩, recorded⟩ <;> rfl

/-- Scripted writers answer offers alike if their scripts of writes are the same. -/
theorem offersAlike_asWriter :
    Writer.OffersAlike asWriter asWriter fun a b => a.writes = b.writes := by
  rintro ⟨_ | ⟨_ | _, writes⟩, flushes, recorded⟩ ⟨_, flushes', recorded'⟩ ⟨⟩ bytes <;>
    exact ⟨rfl, rfl⟩

end ScriptedWriter

end TapeMachine
