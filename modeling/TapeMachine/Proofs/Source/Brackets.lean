import TapeMachine.Source.Command

/-!
# TapeMachine.Proofs.Source.Brackets — which loop ends belong to which loop starts

Brackets are counted.  The loop ends of a token sequence are matched when no part of it from the
front has more loop ends than loop starts, and the sequence is balanced when moreover there are as
many of one as of the other.  A loop start has its loop end where the tokens after it first have
more loop ends than loop starts.
-/

namespace TapeMachine

/-- The number of loop starts. -/
def opened (tokens : List Token) : Nat := tokens.countP (·.command = .loopStart)

/-- The number of loop ends. -/
def closed (tokens : List Token) : Nat := tokens.countP (·.command = .loopEnd)

/-- Every loop end has its loop start before it: no part from the front has more loop ends than loop
starts. -/
def EndsMatched (tokens : List Token) : Prop :=
  ∀ front, front <+: tokens → closed front ≤ opened front

/-- Every loop end has its loop start before it, and every loop start its loop end after it. -/
structure Balanced (tokens : List Token) : Prop where
  ends : EndsMatched tokens
  level : opened tokens = closed tokens

/-- A loop start with these tokens after it has no loop end among them. -/
structure Unclosed (token : Token) (after : List Token) : Prop where
  start : token.command = .loopStart
  ends : EndsMatched after

variable {front back tokens inner inner' text text' : List Token} {token start stop stop' : Token}

/-! ### Counts -/

@[simp] theorem opened_append (front back : List Token) :
    opened (front ++ back) = opened front + opened back := List.countP_append

@[simp] theorem closed_append (front back : List Token) :
    closed (front ++ back) = closed front + closed back := List.countP_append

@[simp] theorem opened_nil : opened [] = 0 := rfl

@[simp] theorem closed_nil : closed [] = 0 := rfl

theorem opened_start (h : token.command = .loopStart) (tokens : List Token) :
    opened (token :: tokens) = opened tokens + 1 := List.countP_cons_of_pos (by simp [h])

theorem closed_start (h : token.command = .loopStart) (tokens : List Token) :
    closed (token :: tokens) = closed tokens := List.countP_cons_of_neg (by simp [h])

theorem opened_end (h : token.command = .loopEnd) (tokens : List Token) :
    opened (token :: tokens) = opened tokens := List.countP_cons_of_neg (by simp [h])

theorem closed_end (h : token.command = .loopEnd) (tokens : List Token) :
    closed (token :: tokens) = closed tokens + 1 := List.countP_cons_of_pos (by simp [h])

/-! ### Matched loop ends -/

theorem endsMatched_nil : EndsMatched [] := by
  intro front hfront
  rw [List.prefix_nil.mp hfront]
  exact Nat.le_refl 0

theorem EndsMatched.of_prefix (h : EndsMatched tokens) (hfront : front <+: tokens) :
    EndsMatched front :=
  fun part hpart => h part (hpart.trans hfront)

theorem EndsMatched.closed_le (h : EndsMatched tokens) : closed tokens ≤ opened tokens :=
  h tokens (List.prefix_refl tokens)

theorem EndsMatched.append (hf : EndsMatched front) (hb : EndsMatched back) :
    EndsMatched (front ++ back) := by
  intro part hpart
  obtain hpart' | ⟨rest, rfl⟩ :=
    List.prefix_or_prefix_of_prefix hpart (List.prefix_append front back)
  · exact hf part hpart'
  · have hrest := hb rest ((List.prefix_append_right_inj front).mp hpart)
    have hfront := hf.closed_le
    rw [opened_append, closed_append]
    omega

/-- With one more token the loop ends stay matched, unless it is a loop end too many. -/
theorem endsMatched_append_singleton : EndsMatched (tokens ++ [token]) ↔
    EndsMatched tokens ∧ closed (tokens ++ [token]) ≤ opened (tokens ++ [token]) := by
  constructor
  · intro h
    exact ⟨h.of_prefix (List.prefix_append _ _), h.closed_le⟩
  · rintro ⟨h, hwhole⟩ part hpart
    rcases List.prefix_concat_iff.mp hpart with rfl | hpart
    · exact hwhole
    · exact h part hpart

theorem Unclosed.endsMatched_cons (h : Unclosed token tokens) : EndsMatched (token :: tokens) := by
  have hcount : closed [token] ≤ opened [token] := by
    rw [closed_start h.start]
    exact Nat.zero_le _
  have htoken : EndsMatched [token] := endsMatched_append_singleton.mpr ⟨endsMatched_nil, hcount⟩
  exact htoken.append h.ends

/-! ### Balanced sequences -/

theorem balanced_nil : Balanced [] := ⟨endsMatched_nil, rfl⟩

theorem Balanced.append (hf : Balanced front) (hb : Balanced back) : Balanced (front ++ back) := by
  refine ⟨hf.ends.append hb.ends, ?_⟩
  rw [opened_append, closed_append, hf.level, hb.level]

/-- Nothing is to be matched in a sequence without brackets. -/
theorem balanced_of_bracketless
    (h : ∀ token ∈ tokens, token.command ≠ .loopStart ∧ token.command ≠ .loopEnd) :
    Balanced tokens := by
  have hclosed : ∀ front, front <+: tokens → closed front = 0 := by
    intro front hfront
    refine List.countP_eq_zero.mpr fun token hmem => ?_
    simpa using (h token (hfront.subset hmem)).2
  have hopened : opened tokens = 0 := by
    refine List.countP_eq_zero.mpr fun token hmem => ?_
    simpa using (h token hmem).1
  refine ⟨fun front hfront => ?_, ?_⟩
  · rw [hclosed front hfront]
    exact Nat.zero_le _
  · rw [hopened, hclosed tokens (List.prefix_refl _)]

theorem Balanced.loop (h : Balanced inner) (hstart : start.command = .loopStart)
    (hstop : stop.command = .loopEnd) : Balanced (start :: (inner ++ [stop])) := by
  have hlevel : opened (start :: (inner ++ [stop])) = closed (start :: (inner ++ [stop])) := by
    rw [opened_start hstart, closed_start hstart, opened_append, closed_append, opened_end hstop,
      closed_end hstop, h.level, opened_nil, closed_nil]
  refine ⟨?_, hlevel⟩
  rw [← List.cons_append, endsMatched_append_singleton]
  exact ⟨Unclosed.endsMatched_cons ⟨hstart, h.ends⟩, Nat.le_of_eq hlevel.symm⟩

/-- A balanced sequence leaves no loop start unclosed. -/
theorem Balanced.not_unclosed (h : Balanced (front ++ token :: back)) : ¬ Unclosed token back := by
  rintro ⟨hstart, hends⟩
  have hfront := h.ends front (List.prefix_append _ _)
  have hback := hends.closed_le
  have hlevel := h.level
  rw [opened_append, closed_append, opened_start hstart, closed_start hstart] at hlevel
  omega

/-- The loop end behind a balanced sequence cannot be part of another one. -/
theorem Balanced.not_prefix (h : Balanced inner) (h' : Balanced inner')
    (hstop : stop.command = .loopEnd) : ¬ inner ++ [stop] <+: inner' := by
  intro hprefix
  have hle := h'.ends _ hprefix
  have hlevel := h.level
  rw [opened_append, closed_append, opened_end hstop, closed_end hstop, opened_nil,
    closed_nil] at hle
  omega

/-- The loop end that belongs to a loop start is found in one way only. -/
theorem Balanced.inner_eq (h : Balanced inner) (h' : Balanced inner')
    (hstop : stop.command = .loopEnd) (hstop' : stop'.command = .loopEnd)
    (heq : inner ++ stop :: text = inner' ++ stop' :: text') :
    inner = inner' ∧ stop = stop' ∧ text = text' := by
  rcases List.append_eq_append_iff.mp heq with ⟨extra, rfl, hextra⟩ | ⟨extra, rfl, hextra⟩
  · rcases extra with _ | ⟨first, extra⟩
    · rw [List.append_nil]
      exact ⟨rfl, List.cons.inj hextra⟩
    · obtain ⟨rfl, -⟩ := List.cons.inj hextra
      exact absurd (by simp) (h.not_prefix h' hstop)
  · rcases extra with _ | ⟨first, extra⟩
    · obtain ⟨rfl, rfl⟩ := List.cons.inj hextra
      rw [List.append_nil]
      exact ⟨rfl, rfl, rfl⟩
    · obtain ⟨rfl, -⟩ := List.cons.inj hextra
      exact absurd (by simp) (h'.not_prefix h hstop')

end TapeMachine
