import TapeMachine.Proofs.Bytecode.Flattening
import TapeMachine.Proofs.Source.Folding
import TapeMachine.Proofs.Source.Transcript

/-!
# TapeMachine.Proofs.Compilation — compiling preserves what a source text means

A source text means what the naive interpreter does with it.  Folding and flattening each keep step
with what they start from, so the machine follows the interpreter from the first command on
(`follows_compiled`), and ends as it ends: `compile_preserves`.  The bounds of `2 ^ 62` say that the
tape of the run can be addressed at all; a vector of 32-bit words has fewer of them.
-/

namespace TapeMachine

open Machine

/-- A program has no more instructions than its source text has bytes. -/
theorem length_compile_le {source : List UInt8} {program : Program}
    (h : compile source = .ok program) : program.length ≤ source.length := by
  obtain ⟨forest, code, hforest, hcode, rfl⟩ := compile_eq_ok h
  have hsize := (spells_source hforest).size_le
  have hfilter : (commands source).length ≤ source.length := List.length_filterMap_le _ _
  rw [Program.length_ofList, (Forest.flatten_code hcode).1, Forest.length_code]
  omega

section Compiled

variable {source : List UInt8} {program : Program} {config : Config} {input : List UInt8}

/-- A new machine with a program and an input. -/
def loaded (program : Program) (config : Config) (input : List UInt8) :
    Machine ByteBlock ByteBuffer :=
  (Machine.new config (.ofList input) .empty).load program

/-- The interpreter follows the machine as long as the cursor stays below `2 ^ 62`. -/
theorem follows_compiled (h : compile source = .ok program) (hlen : source.length < 2 ^ 64)
    (limit : Nat)
    (hnear : ∀ earlier, earlier < limit →
      ((loaded program config input).run earlier).2.cursor.toNat < 2 ^ 62) :
    Follows (commands source) config.eof limit (.start input)
      ((loaded program config input).run limit).1 ((loaded program config input).run limit).2 := by
  have hshort := Nat.lt_of_le_of_lt (length_compile_le h) hlen
  obtain ⟨forest, code, hforest, hcode, rfl⟩ := compile_eq_ok h
  have hspells := spells_source hforest
  have hstep := fun limit => @flatten_lockstep _ _ code _ _ (loaded (.ofList code) config input) 0 _
    (ready_flatten hcode) rfl (covered_load _ _) hshort limit
  have hread : Reading (commands source) 0 (Forest.placed 0 forest ++ []) :=
    Reading.placed hspells (List.prefix_refl _) (by rw [Nat.zero_add]; exact .done)
  rw [List.append_nil] at hread
  have hmatch : Matches config.eof (loaded (.ofList code) config input) (.start input) :=
    ⟨rfl, rfl, cell_load _ _, rfl, rfl⟩
  have hfollows := follows_run hread hmatch limit fun earlier hlt => by
    obtain ⟨-, -, next, hmachine, -⟩ := hstep earlier
    have hcursor := congrArg (·.cursor.toNat) hmachine
    exact Nat.lt_of_le_of_lt (Nat.le_of_eq hcursor.symm) (hnear earlier hlt)
  obtain ⟨hend, -, next, hmachine, -⟩ := hstep limit
  have hstart : (loaded (.ofList code) config input).goto 0 = loaded (.ofList code) config input :=
    rfl
  rw [hstart] at hend hmachine
  rw [hend, hmachine]
  exact hfollows.elsewhere next

theorem near_of_tape (program : Program) (config : Config) (input : List UInt8) {limit : Nat}
    (hshort : ((loaded program config input).run limit).2.tape.length < 2 ^ 62) (earlier : Nat)
    (hlt : earlier < limit) :
    ((loaded program config input).run earlier).2.cursor.toNat < 2 ^ 62 := by
  have hcov : Covered (loaded program config input) := covered_load _ _
  have hle := length_run_mono hcov (Nat.le_of_lt hlt)
  obtain ⟨count, hcount⟩ := run_eq_after (loaded program config input) earlier
  have hlast := (kept_after hcov count).1
  rw [← hcount] at hlast
  exact Nat.lt_trans hlast (Nat.lt_of_le_of_lt hle hshort)

/-- While the interpreter stays below `2 ^ 62` and does not fault, so does the machine. -/
theorem near_of_naive (h : compile source = .ok program) (hlen : source.length < 2 ^ 64)
    (hfaults : ¬ Naive.Faults (commands source) config.eof (.start input))
    (hnear : ∀ count,
      (Naive.run (commands source) config.eof count (.start input)).2.cursor < 2 ^ 62)
    (limit : Nat) : ((loaded program config input).run limit).2.cursor.toNat < 2 ^ 62 := by
  -- the machine follows the interpreter up to here by the bound for all shorter runs
  induction limit using Nat.strongRecOn with
  | ind limit ih =>
    rcases follows_compiled h hlen limit ih with hfault | ⟨count, s', hm, hend⟩
    · exact absurd hfault hfaults
    · have hrun : (Naive.run (commands source) config.eof count (.start input)).2 = s' := by
        rcases hend with ⟨-, hrun⟩ | ⟨-, -, hrun⟩ <;> rw [hrun]
      rw [hm.cursor, ← hrun]
      exact hnear count

/-- Compiling preserves meaning.  When the interpreter halts, the machine halts with the same
output, the same unread input, the same cursor and the same cells; when the machine faults, so does
the interpreter; and when the interpreter runs forever, the machine never stops by itself. -/
theorem compile_preserves (h : compile source = .ok program) (hlen : source.length < 2 ^ 64)
    (config : Config) (input : List UInt8) :
    let m := loaded program config input
    let naive := fun count => Naive.run (commands source) config.eof count (.start input)
    (∀ count s, naive count = (.halted, s) →
      (∀ earlier, earlier ≤ count → (naive earlier).2.cursor < 2 ^ 62) →
      ∃ limit m', m.run limit = (.halted, m') ∧ m'.output.toList = s.written ∧
        m'.input.toList = s.unread ∧ m'.cursor.toNat = s.cursor ∧
        ∀ index, m'.cell index = s.cells index) ∧
      (∀ limit fault, (m.run limit).1 = .faulted fault → (m.run limit).2.tape.length < 2 ^ 62 →
        ∃ count, (naive count).1 = .faulted) ∧
      ((∀ count, (naive count).1 = .stopped) → ∀ limit, (m.run limit).2.tape.length < 2 ^ 62 →
        (m.run limit).1 = .stopped) := by
  intro m naive
  refine ⟨fun count s hhalted hnear => ?_, fun limit fault hfault hshort => ?_,
    fun hforever limit hshort => ?_⟩
  · have hfaults := Naive.not_faults_of_halted hhalted
    have hends : (naive count).1 ≠ .stopped := by
      rw [hhalted]
      exact nofun
    have hall := near_of_naive h hlen hfaults fun earlier => by
      by_cases hle : earlier ≤ count
      · exact hnear earlier hle
      · have hmore := Naive.run_of_ended hends (earlier - count)
        rw [Nat.add_sub_cancel' (by omega)] at hmore
        rw [hmore]
        exact hnear count (Nat.le_refl count)
    -- a machine that had not halted by then would need more commands than the interpreter took
    rcases follows_compiled h hlen (count + 1) fun earlier _ => hall earlier with
      hfault | ⟨count', s', hm, ⟨hend, hrun⟩ | ⟨-, hle, hrun⟩⟩
    · exact absurd hfault hfaults
    · have hsame : naive count = naive count' :=
        Naive.run_eq_run hends (by rw [hrun]; exact nofun)
      have hstate : (Naive.Ending.halted, s) = (.halted, s') :=
        hhalted.symm.trans (hsame.trans hrun)
      cases hstate
      exact ⟨count + 1, _, Prod.ext hend rfl, hm.output, hm.input, hm.cursor, hm.cell⟩
    · have hmore := Naive.run_of_ended hends (count' - count)
      rw [Nat.add_sub_cancel' (by omega), hrun] at hmore
      rw [show naive count = (.stopped, s') from hmore.symm] at hends
      exact absurd rfl hends
  · rcases follows_compiled h hlen limit (near_of_tape program config input hshort) with
      hnaive | ⟨count, s', -, ⟨hend, -⟩ | ⟨hend, -, -⟩⟩
    · exact hnaive
    · exact absurd (hend.symm.trans hfault) nofun
    · exact absurd (hend.symm.trans hfault) nofun
  · rcases follows_compiled h hlen limit (near_of_tape program config input hshort) with
      ⟨count, hfault⟩ | ⟨count, s', -, ⟨-, hrun⟩ | ⟨hend, -, -⟩⟩
    · exact absurd ((hforever count).symm.trans hfault) nofun
    · exact absurd ((hforever count).symm.trans (congrArg Prod.fst hrun)) nofun
    · exact hend

/-- The text `,+[->+<]>.` reads a byte, adds one and writes the sum from the next cell. -/
theorem compile_preserves_sum :
    let source : List UInt8 := [44, 43, 91, 45, 62, 43, 60, 93, 62, 46]
    let program : Program := .ofList [.ofOpcode .readByte 1, .ofOpcode .addValue 1,
      .ofOpcode .jumpIfZero 6, .ofOpcode .addValue (-1), .ofOpcode .movePointer 1,
      .ofOpcode .addValue 1, .ofOpcode .movePointer (-1), .ofOpcode .jumpIfNonzero (-4),
      .ofOpcode .movePointer 1, .ofOpcode .writeByte 1]
    compile source = .ok program ∧ source.length < 2 ^ 64 ∧
      ∃ limit m', (loaded program { tapeLength := 1 } [1, 7]).run limit = (.halted, m') ∧
        m'.output.toList = [2] ∧ m'.input.toList = [7] ∧ m'.cursor.toNat = 1 := by
  intro source program
  have h : compile source = .ok program := by rfl
  have hlen : source.length < 2 ^ 64 := by decide
  have hnaive := (compile_preserves h hlen { tapeLength := 1 } [1, 7]).1 17
  obtain ⟨limit, m', hrun, houtput, hinput, hcursor, -⟩ := hnaive _ rfl (by decide)
  exact ⟨h, hlen, limit, m', hrun, houtput, hinput, hcursor⟩

end Compiled

end TapeMachine
