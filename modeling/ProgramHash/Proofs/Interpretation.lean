import ProgramHash.Proofs.StaticTarget

namespace ProgramHash

theorem foretold_error {program : List Instruction} {file : RegisterFile} {fault : Fault} :
    foretold program file = .error fault ↔ fault = .branchTakenWithoutTarget ∧
      ∃ b, takenBranch? program file = some b ∧ latestTarget? program b = none := by
  unfold foretold
  split
  · rename_i missing
    simp [missing]
  · rename_i b found
    split
    · rename_i missing
      simp [found, missing, eq_comm]
    · rename_i t latest
      simp [found, latest]

theorem foretold_steps {program : List Instruction} {file : RegisterFile} {v : Values} {n : Nat}
    (ended : foretold program file = .ok (v, n)) : program.length ≤ n ∧ n ≤ 2 * program.length := by
  unfold foretold at ended
  split at ended
  · cases ended
    omega
  · rename_i b found
    have inside := (takenBranch_some found).1
    split at ended
    · cases ended
    · rename_i t latest
      have back := latestTarget_lt latest
      cases ended
      omega

namespace Program

theorem toArray_toList (p : Program) : p.toList.toArray = p.instructions := rfl

theorem interpret_foretold (p : Program) (file : RegisterFile) :
    p.interpret file = (foretold p.toList file).map fun r => r.1.file := by
  rw [← Execution.run_foretold, toArray_toList]
  unfold interpret
  cases Execution.run p.instructions (.start file) <;> rfl

theorem interpret_ok {p : Program} (targeted : EveryBranchHasTarget p.toList)
    (file : RegisterFile) : ∃ result, p.interpret file = .ok result := by
  rw [interpret_foretold]
  cases ended : foretold p.toList file with
  | ok r => exact ⟨_, rfl⟩
  | error fault =>
      obtain ⟨_, b, found, missing⟩ := foretold_error.mp ended
      obtain ⟨mask, here, _⟩ := meetsZero_branch (takenBranch_some found).2.1
      exact absurd missing (targeted b mask here)

theorem executed {p : Program} (targeted : EveryBranchHasTarget p.toList) (file : RegisterFile) :
    ∃ last, Execution.run p.toList.toArray (.start file) = .ok last ∧
      p.interpret file = .ok last.values.file := by
  obtain ⟨result, interpreted⟩ := interpret_ok targeted file
  obtain ⟨last, ended, rfl⟩ := map_ok.mp interpreted
  exact ⟨last, ended, interpreted⟩

-- A run is the program in order with at most one part of it done twice, and the
-- target it goes back to is the one the compilers settled beforehand.
theorem interpretation_replays_once (p : Program) (file : RegisterFile) :
    ((Execution.run p.instructions (.start file)).map Execution.observed = foretold p.toList file ∧
      ∀ v n, foretold p.toList file = .ok (v, n) → p.size ≤ n ∧ n ≤ 2 * p.size) ∧
    (∀ fault, p.interpret file = .error fault ↔ fault = .branchTakenWithoutTarget ∧
      ∃ b, takenBranch? p.toList file = some b ∧ latestTarget? p.toList b = none) ∧
    (∀ e, Execution.Reached p.toList (.start file) e → e.Taking p.toList →
      e.target = latestTarget? p.toList e.position) ∧
    (∀ k s, ScalarCode.emitted? p.toList k = .ok s →
      (s.target = none ↔ latestTarget? p.toList k = none) ∧
      ∀ t, latestTarget? p.toList k = some t →
        ∃ m, ScalarCode.emitted? p.toList t = .ok m ∧ s.target = some m.assembly.offset) ∧
    (∀ k s, VectorCode.emitted? p.toList k = .ok s → s.target = latestTarget? p.toList k) ∧
    (ScalarCode.compile p ≠ .error .branchWithoutTarget ∨
      VectorCode.compile p ≠ .error .branchWithoutTarget →
        ∃ result, p.interpret file = .ok result) := by
  refine ⟨⟨Execution.run_foretold p.toList file, ?_⟩, ?_, ?_, ?_, ?_, ?_⟩
  · intro v n ended
    exact foretold_steps ended
  · intro fault
    rw [interpret_foretold, ← foretold_error]
    cases foretold p.toList file <;> simp [Except.map]
  · rintro e reached ⟨_, _, may, _⟩
    exact congrArg Execution.target (Execution.reached_unbranched reached may).2
  · intro k s done
    refine ⟨ScalarCode.notes_targets.none_iff done, fun t found => ?_⟩
    obtain ⟨m, before⟩ := stateAfter_ok_of_le (Nat.le_of_lt (latestTarget_lt found)) done
    exact ⟨m, before, ScalarCode.notes_targets.latest done found before⟩
  · intro k s done
    have notes := VectorCode.notes_targets p.toList.toArray
    cases found : latestTarget? p.toList k with
    | none => exact (notes.none_iff done).mpr found
    | some t =>
        obtain ⟨m, before⟩ := stateAfter_ok_of_le (Nat.le_of_lt (latestTarget_lt found)) done
        exact notes.latest done found before
  · intro compiled
    refine interpret_ok (Classical.byContradiction fun missing => ?_) file
    rcases compiled with scalar | vector
    · exact scalar ((ScalarCode.compile_missing_target p).mpr missing)
    · exact vector ((VectorCode.compile_missing_target p).mpr missing)

end Program

end ProgramHash
