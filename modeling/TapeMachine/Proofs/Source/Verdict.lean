import TapeMachine.Proofs.Bytecode.Layout
import TapeMachine.Proofs.Machine.Words
import TapeMachine.Proofs.Source.Transcript

/-!
# TapeMachine.Proofs.Source.Verdict — which token sequences have a forest

A scan counts brackets with its stack of open loops: what it has read is balanced from the
innermost open bracket on, and balanced as a whole when no loop is open.  So it stops at the first
loop end too many, and at its end it blames the last loop start that has no loop end.  Below
`2 ^ 31` tokens no run overflows, and no jump either, so nothing but brackets decides
(`brackets_decide`).
-/

namespace TapeMachine

namespace Forest.Scan

variable {seen tokens : List Token} {body : Forest} {enclosing : List (Nat × Forest)} {scan : Scan}
  {token : Token} {error : SourceError}

theorem Follows.ends (h : Follows seen body enclosing) : EndsMatched seen := by
  induction enclosing generalizing seen body with
  | nil => exact (Recorded.balanced h).ends
  | cons loop outer ih =>
    obtain ⟨before, bracket, inner, rfl, hstart, -, hinner, hbefore⟩ := h
    exact (ih hbefore).append (Unclosed.endsMatched_cons ⟨hstart, hinner.balanced.ends⟩)

/-- The newest leaf of a scan has a net effect no larger than the number of tokens read. -/
theorem Follows.toInt_bounds {action : Action} {total : Int32} {older : Forest}
    (h : Follows seen (.leaf action total :: older) enclosing) :
    -seen.length ≤ total.toInt ∧ total.toInt ≤ seen.length := by
  obtain ⟨before, inner, rfl, hinner⟩ := h.inner
  obtain ⟨front, run, rfl, -, hrun⟩ := hinner.split_leaf
  have hbounds := hrun.toInt_bounds
  rw [List.length_map] at hbounds
  rw [List.length_append, List.length_append]
  omega

/-- A token that cannot be read is a loop end where no loop is open. -/
theorem HasRead.read_eq_error (h : HasRead seen scan) (hlength : seen.length + 1 < 2 ^ 31)
    (hread : scan.read token = .error error) :
    token.command = .loopEnd ∧ scan.enclosing = [] ∧ error = .unmatchedClose token.offset := by
  have hstep := h.consistent.step token
  rw [hread] at hstep
  cases hstep with
  | excess hend henclosing => exact ⟨hend, henclosing, rfl⟩
  | @overflow action change error hc hbody =>
    have hchange := (toInt_change hc).2
    have hfollows := h.follows
    generalize scan.body = body at hbody hfollows
    cases hbody with
    | @overflow total older hword =>
      have hbounds := hfollows.toInt_bounds
      have hfits : int32OfInt? (total.toInt + change) = some (.ofInt (total.toInt + change)) :=
        int32OfInt?_eq_some_iff.mpr (Int32.toInt_ofInt_of_le (by omega) (by omega))
      rw [hword] at hfits
      cases hfits

/-- A scan that fails has read the tokens before the one that it fails at. -/
theorem foldlM_eq_error (h : tokens.foldlM Scan.read scan = .error error) :
    ∃ before token after scan', tokens = before ++ token :: after ∧
      before.foldlM Scan.read scan = .ok scan' ∧ scan'.read token = .error error := by
  induction tokens generalizing scan with
  | nil => cases h
  | cons token tokens ih =>
    rw [List.foldlM_cons] at h
    cases hone : scan.read token with
    | error error' =>
      rw [hone] at h
      cases h
      exact ⟨[], token, tokens, scan, rfl, rfl, hone⟩
    | ok next =>
      rw [hone] at h
      obtain ⟨before, token', after, scan', rfl, hbefore, hread⟩ := ih h
      refine ⟨token :: before, token', after, scan', rfl, ?_, hread⟩
      rw [List.foldlM_cons, hone]
      exact hbefore

end Forest.Scan

/-- What is said of a token sequence, and the brackets that it is said for. -/
inductive Verdict (tokens : List Token) : Except SourceError Forest → Prop
  | accepted {forest : Forest} (h : Balanced tokens) : Verdict tokens (.ok forest)
  /-- The last loop start without a loop end. -/
  | unmatchedOpen {before after : List Token} {token : Token} (hends : EndsMatched tokens)
      (hlt : closed tokens < opened tokens) (htokens : tokens = before ++ token :: after)
      (hopen : Unclosed token after)
      (hlast : ∀ front later back, after = front ++ later :: back → ¬ Unclosed later back) :
      Verdict tokens (.error (.unmatchedOpen token.offset))
  /-- The first loop end without a loop start. -/
  | unmatchedClose {before after : List Token} {token : Token} (hends : ¬ EndsMatched tokens)
      (htokens : tokens = before ++ token :: after) (hbefore : EndsMatched before)
      (hexcess : opened (before ++ [token]) < closed (before ++ [token])) :
      Verdict tokens (.error (.unmatchedClose token.offset))

theorem verdict_of_excess {before after : List Token} {token : Token} (hbefore : Balanced before)
    (hend : token.command = .loopEnd) :
    Verdict (before ++ token :: after) (.error (.unmatchedClose token.offset)) := by
  have hexcess : opened (before ++ [token]) < closed (before ++ [token]) := by
    rw [opened_append, closed_append, opened_end hend, closed_end hend, hbefore.level, opened_nil,
      closed_nil]
    omega
  refine .unmatchedClose (fun hends => ?_) rfl hbefore.ends hexcess
  exact Nat.not_le_of_lt hexcess (hends _ (by simp))

theorem verdict_of_unclosed {before after : List Token} {token : Token}
    (hbefore : EndsMatched before) (hstart : token.command = .loopStart)
    (hafter : Balanced after) :
    Verdict (before ++ token :: after) (.error (.unmatchedOpen token.offset)) := by
  have hopen : Unclosed token after := ⟨hstart, hafter.ends⟩
  refine .unmatchedOpen (hbefore.append hopen.endsMatched_cons) ?_ rfl hopen ?_
  · have hle := hbefore.closed_le
    have hlevel := hafter.level
    rw [opened_append, closed_append, opened_start hstart, closed_start hstart]
    omega
  · rintro front later back rfl
    exact hafter.not_unclosed

theorem verdict {tokens : List Token} (hlength : tokens.length < 2 ^ 31) :
    Verdict tokens (Forest.ofTokens tokens) := by
  unfold Forest.ofTokens
  cases hread : tokens.foldlM Forest.Scan.read .start with
  | error error =>
    obtain ⟨before, token, after, scan, rfl, hbefore, hfail⟩ := Forest.Scan.foldlM_eq_error hread
    have hscan := Forest.Scan.hasRead_of_foldlM hbefore
    rw [List.length_append, List.length_cons] at hlength
    obtain ⟨hend, henclosing, rfl⟩ := hscan.read_eq_error (by omega) hfail
    have hfollows := hscan.follows
    rw [henclosing] at hfollows
    exact verdict_of_excess hfollows.balanced hend
  | ok scan =>
    have hfollows := (Forest.Scan.hasRead_of_foldlM hread).follows
    obtain ⟨body, _ | ⟨⟨start, around⟩, outer⟩, last⟩ := scan
    · exact .accepted hfollows.balanced
    · obtain ⟨before, bracket, inner, rfl, hstart, rfl, hinner, hbefore⟩ := hfollows
      exact verdict_of_unclosed hbefore.ends hstart hinner.balanced

/-- Below `2 ^ 31` tokens, a sequence has a forest exactly if its brackets are balanced. -/
theorem exists_ofTokens_iff {tokens : List Token} (hlength : tokens.length < 2 ^ 31) :
    (∃ forest, Forest.ofTokens tokens = .ok forest) ↔ Balanced tokens := by
  constructor
  · rintro ⟨forest, h⟩
    exact (recorded_tokens h).balanced
  · intro h
    have hverdict := verdict hlength
    generalize Forest.ofTokens tokens = result at hverdict ⊢
    cases hverdict with
    | accepted => exact ⟨_, rfl⟩
    | unmatchedOpen hends hlt => exact absurd h.level (Nat.ne_of_gt hlt)
    | unmatchedClose hends => exact absurd h.ends hends

/-- The jumps of a short source text fit, for they are no longer than the text. -/
theorem exists_compile {source : List UInt8} (hlength : (commands source).length < 2 ^ 31)
    {forest : Forest} (h : Forest.ofSource source = .ok forest) :
    ∃ program, compile source = .ok program := by
  have hmax : Int32.maxValue.toInt.toNat = 2 ^ 31 - 1 := rfl
  have hsize := (spells_source h).size_le
  have hfits : Forest.Fits forest := Forest.fits_of_size_le (by omega)
  unfold compile
  rw [h]
  dsimp only [bind, Except.bind]
  rw [Forest.flatten_of_fits hfits]
  exact ⟨_, rfl⟩

/-- Below `2 ^ 31` tokens, brackets alone decide.  If there is a loop end too many, the first one is
blamed, whatever else is wrong; else, if a loop start has no loop end, the last one is blamed; and
else there is a forest.  A source text of fewer than `2 ^ 31` commands can be compiled exactly if
its brackets are balanced. -/
theorem brackets_decide :
    (∀ tokens : List Token, tokens.length < 2 ^ 31 →
      (¬ EndsMatched tokens → ∃ before token after, tokens = before ++ token :: after ∧
        EndsMatched before ∧ opened (before ++ [token]) < closed (before ++ [token]) ∧
        Forest.ofTokens tokens = .error (.unmatchedClose token.offset)) ∧
      (EndsMatched tokens → closed tokens < opened tokens → ∃ before token after,
        tokens = before ++ token :: after ∧ Unclosed token after ∧
        (∀ front later back, after = front ++ later :: back → ¬ Unclosed later back) ∧
        Forest.ofTokens tokens = .error (.unmatchedOpen token.offset)) ∧
      (EndsMatched tokens → opened tokens ≤ closed tokens →
        ∃ forest, Forest.ofTokens tokens = .ok forest) ∧
      ∀ offset, Forest.ofTokens tokens ≠ .error (.overflow offset)) ∧
    ∀ source : List UInt8, (commands source).length < 2 ^ 31 →
      ((∃ program, compile source = .ok program) ↔ Balanced (tokens source)) := by
  refine ⟨fun tokens hlength => ?_, fun source hlength => ?_⟩
  · have hforest : EndsMatched tokens → opened tokens ≤ closed tokens →
        ∃ forest, Forest.ofTokens tokens = .ok forest := fun hends hle =>
      (exists_ofTokens_iff hlength).mpr ⟨hends, Nat.le_antisymm hle hends.closed_le⟩
    have hverdict := verdict hlength
    generalize Forest.ofTokens tokens = result at hverdict hforest ⊢
    cases hverdict with
    | accepted hbalanced =>
      exact ⟨absurd hbalanced.ends, fun _ hlt => absurd hbalanced.level (Nat.ne_of_gt hlt),
        hforest, nofun⟩
    | @unmatchedOpen before after token hends hlt htokens hopen hlast =>
      exact ⟨absurd hends, fun _ _ => ⟨before, token, after, htokens, hopen, hlast, rfl⟩, hforest,
        nofun⟩
    | @unmatchedClose before after token hends htokens hbefore hexcess =>
      exact ⟨fun _ => ⟨before, token, after, htokens, hbefore, hexcess, rfl⟩,
        fun h => absurd h hends, hforest, nofun⟩
  · have htokens : (tokens source).length < 2 ^ 31 := by
      rwa [← List.length_map, map_command_tokens]
    rw [← exists_ofTokens_iff htokens]
    constructor
    · rintro ⟨program, hcompile⟩
      obtain ⟨forest, -, hforest, -, -⟩ := compile_eq_ok hcompile
      exact ⟨forest, hforest⟩
    · rintro ⟨forest, hforest⟩
      exact exists_compile hlength hforest

/-- A loop start that is not closed, and before it a loop end too many. -/
theorem brackets_decide_close_first :
    let tokens : List Token := [⟨.loopStart, 4⟩, ⟨.loopEnd, 1⟩, ⟨.loopEnd, 9⟩, ⟨.loopStart, 2⟩]
    ¬ EndsMatched tokens ∧ Forest.ofTokens tokens = .error (.unmatchedClose 9) ∧
      ∃ before token after, tokens = before ++ token :: after ∧ EndsMatched before ∧
        Forest.ofTokens tokens = .error (.unmatchedClose token.offset) := by
  intro tokens
  have hexcess : ¬ EndsMatched tokens := fun hends =>
    absurd (hends (tokens.take 3) (List.take_prefix 3 tokens)) (by decide)
  obtain ⟨hclose, -, -, -⟩ := brackets_decide.1 tokens (by decide)
  obtain ⟨before, token, after, htokens, hbefore, -, hresult⟩ := hclose hexcess
  exact ⟨hexcess, rfl, before, token, after, htokens, hbefore, hresult⟩

end TapeMachine
