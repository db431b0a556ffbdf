import TapeMachine.Device.Scripted

/-!
# TapeMachine.Proofs.Device.Transient — devices that fail now and then

A failure is transient when the call that fails has no other effect than to use the failure up: no
byte is taken, no batch is recorded.  A relation `R n a b` says that `a` is the device `b`, but for
transient failures, of which at most `n` are still to come; `b` itself does not fail.  In this way a
scripted device is the device of the script without its failures.
-/

namespace TapeMachine

/-- Inputs that differ by transient failures.  A machine asks whether the input has ended before it
takes a byte, and after a failure of either call it begins with the question again. -/
structure TransientInput {ι κ : Type} [Input ι] [Input κ] (R : Nat → ι → κ → Prop) : Prop where
  atEnd_error : ∀ {n a b error a'}, R n a b → Input.atEnd a = (.error error, a') →
    ∃ n' < n, R n' a' b
  next_error : ∀ {n a b a₁ error a₂}, R n a b → Input.atEnd a = (.ok false, a₁) →
    Input.next a₁ = (.error error, a₂) → ∃ n' < n, R n' a₂ b
  ended : ∀ {n a b a'}, R n a b → Input.atEnd a = (.ok true, a') →
    ∃ b', Input.atEnd b = (.ok true, b') ∧ R n a' b'
  took : ∀ {n a b a₁ byte a₂}, R n a b → Input.atEnd a = (.ok false, a₁) →
    Input.next a₁ = (.ok byte, a₂) →
      ∃ b₁ b₂, Input.atEnd b = (.ok false, b₁) ∧ Input.next b₁ = (.ok byte, b₂) ∧ R n a₂ b₂

/-- Outputs that differ by transient failures. -/
structure TransientOutput {ω ψ : Type} [Output ω] [Output ψ] (S : Nat → ω → ψ → Prop) : Prop where
  error : ∀ {n a b batch error a'}, S n a b → Output.write a batch = (.error error, a') →
    ∃ n' < n, S n' a' b
  took : ∀ {n a b batch a'}, S n a b → Output.write a batch = (.ok (), a') →
    ∃ b', Output.write b batch = (.ok (), b') ∧ S n a' b'

/-! ### Scripted devices -/

/-- Whether the event is a failure. -/
def InputEvent.isFailure : InputEvent → Bool
  | .byteFailure _ | .atEndFailure _ => true
  | .byte _ | .atEnd => false

namespace ScriptedInput

/-- The number of failures in the script. -/
def failures (input : ScriptedInput) : Nat := input.events.countP (·.isFailure)

/-- The script with the failures removed. -/
def withoutFailures (input : ScriptedInput) : ScriptedInput :=
  ⟨input.events.filter (! ·.isFailure)⟩

/-- The second input is the first one without its failures, of which there are this many. -/
def Without (count : Nat) (a b : ScriptedInput) : Prop := a.failures = count ∧ b = a.withoutFailures

theorem transient : TransientInput Without where
  atEnd_error := by
    rintro n ⟨events⟩ b error a' ⟨rfl, rfl⟩ h
    rcases events with _ | ⟨_ | _ | _ | _, events⟩ <;> cases h
    exact ⟨_, by simp [failures, InputEvent.isFailure], rfl, rfl⟩
  next_error := by
    rintro n ⟨events⟩ b a₁ error a₂ ⟨rfl, rfl⟩ h h'
    rcases events with _ | ⟨_ | _ | _ | _, events⟩ <;> cases h <;> cases h'
    exact ⟨_, by simp [failures, InputEvent.isFailure], rfl, rfl⟩
  ended := by
    rintro n ⟨events⟩ b a' ⟨rfl, rfl⟩ h
    rcases events with _ | ⟨_ | _ | _ | _, events⟩ <;> cases h
    · exact ⟨_, rfl, rfl, rfl⟩
    · exact ⟨_, rfl, rfl, rfl⟩
  took := by
    rintro n ⟨events⟩ b a₁ byte a₂ ⟨rfl, rfl⟩ h h'
    rcases events with _ | ⟨_ | _ | _ | _, events⟩ <;> cases h <;> cases h'
    exact ⟨_, _, rfl, rfl, rfl, rfl⟩

end ScriptedInput

namespace BatchRecorder

/-- The number of failures in the script. -/
def failures (recorder : BatchRecorder) : Nat := recorder.script.countP (·.isSome)

/-- The recorder with the failures removed from its script. -/
def withoutFailures (recorder : BatchRecorder) : BatchRecorder :=
  { recorder with script := recorder.script.filter (·.isNone) }

/-- The second recorder is the first one without its failures, of which there are this many. -/
def Without (count : Nat) (a b : BatchRecorder) : Prop := a.failures = count ∧ b = a.withoutFailures

theorem transient : TransientOutput Without where
  error := by
    rintro n ⟨script, recorded⟩ b batch error a' ⟨rfl, rfl⟩ h
    rcases script with _ | ⟨_ | _, script⟩ <;> cases h
    exact ⟨_, by simp [failures], rfl, rfl⟩
  took := by
    rintro n ⟨script, recorded⟩ b batch a' ⟨rfl, rfl⟩ h
    rcases script with _ | ⟨_ | _, script⟩ <;> cases h
    · exact ⟨_, rfl, rfl, rfl⟩
    · exact ⟨_, rfl, rfl, rfl⟩

end BatchRecorder

end TapeMachine
