import ProgramHash.Backend
import ProgramHash.Proofs.Interpretation
import ProgramHash.Proofs.Scalar.Simulation

namespace ProgramHash.ScalarCode

open Machine

-- A program of a size that is met in practice leaves every distance within reach.
def sizeLimit : Nat := 0x1000000

theorem emitBranch_near {a : Assembly} {mask : UInt32} {target : Nat} (back : target ≤ a.offset)
    (near : a.offset + 18 < Assembly.reach) : ∃ b, emitBranch a mask target = .ok b := by
  unfold emitBranch
  have size := branch_offset a mask 0
  refine Assembly.bindTo_near ⟨?_, by omega⟩
  change (a.putAll (branchPieces mask 0)).offset - 4 + 4 < _
  omega

theorem compile_laid {p : Program} (compilable : Compilable p.toList) {code : Array UInt8}
    (done : compile p = .ok code) : ∃ pool ≤ code.size, Laid p.toList code pool := by
  rw [compile_emitted] at done
  obtain ⟨pool, room, laid⟩ := (closes compilable).laidOut done
  exact ⟨pool, room, laid, compilable⟩

theorem size_near {n : Nat} (small : n ≤ sizeLimit) :
    (11 + 8 * 1) * (14 + 5 * n + epiloguePieces.length + 2) < Assembly.reach := by
  have room : 19 * (14 + 5 * sizeLimit + 14) < Assembly.reach := by decide
  rw [show epiloguePieces.length = 12 from rfl]
  omega

theorem compile_succeeds {p : Program} (targeted : EveryBranchHasTarget p.toList)
    (compilable : Compilable p.toList) (small : p.size ≤ sizeLimit) :
    ∃ code, compile p = .ok code := by
  have puts := closes compilable
  have room := size_near (show p.toList.length ≤ sizeLimit from small)
  obtain ⟨s, emitted⟩ := notes_targets.compiles targeted fun k mask s here early => by
    have inside := (List.getElem?_eq_some_iff.mp here).1
    have code := (puts.smallAfter early).code
    cases found : latestTarget? p.toList k with
    | none => exact absurd found (targeted k mask here)
    | some t =>
        obtain ⟨m, before⟩ := stateAfter_ok_of_le (Nat.le_of_lt (latestTarget_lt found)) early
        have noted := notes_targets.latest early found before
        have back := (puts.extends (Nat.le_of_lt (latestTarget_lt found)) before early).size
        obtain ⟨b, branched⟩ := @emitBranch_near s.assembly mask m.assembly.offset back (by omega)
        simp [emit, noted, branched, Except.map]
  obtain ⟨code, done⟩ := puts.finishes emitted room
  exact ⟨code, by rw [compile_emitted, emitted?, emitted]; exact done⟩

-- Compiled code does to a file what the interpreter does, from any state in which
-- its argument points at the file. It comes to its return within its bound of
-- steps; on the way it fetches from the code alone and reads of the image the
-- constants alone.
theorem code_agrees (p : Program) (targeted : EveryBranchHasTarget p.toList)
    (compilable : Compilable p.toList) :
    (p.size ≤ sizeLimit → ∃ code, compile p = .ok code) ∧
    ∀ code, compile p = .ok code → ∃ pool ≤ code.size, ∀ values,
      ∃ result, p.interpret values = .ok result ∧ run code values = .ok result ∧
        ∀ entry, Entered values entry →
          (∃ q, Processor.run code (stepBound code) entry = .returned q ∧ Restored result entry q) ∧
          ∀ r, Processor.Visits code entry r → Processor.Within code pool 1 r := by
  refine ⟨compile_succeeds targeted compilable, fun code done => ?_⟩
  obtain ⟨pool, room, laid⟩ := compile_laid compilable done
  refine ⟨pool, room, fun values => ?_⟩
  obtain ⟨last, ended, interpreted⟩ := Program.executed targeted values
  have returns {entry : Processor} (entered : Entered values entry) := laid.returns entered ended
  refine ⟨last.values.file, interpreted, ?_, fun entry from_ => ?_⟩
  · obtain ⟨q, returned, restored, _⟩ := returns (entered values)
    exact runCode_returned returned restored.memory
  · obtain ⟨q, returned, restored, within⟩ := returns from_
    exact ⟨⟨q, returned, restored⟩, within⟩

def shortReplay : Program :=
  .ofList [.umulh 0 1, .target, .addShift 0 1 3, .addConst 2 (-5), .smulh 3 3, .branch 1, .rotate 4 7]

theorem shortReplay_agrees :
    EveryBranchHasTarget shortReplay.toList ∧ Compilable shortReplay.toList ∧
      ∃ code, compile shortReplay = .ok code ∧ ∀ values, Entered values (Processor.enter values.toArray) ∧
        ∃ result, shortReplay.interpret values = .ok result ∧ run code values = .ok result := by
  have targeted : EveryBranchHasTarget shortReplay.toList := by
    intro b mask here
    have inside : b < 7 := (List.getElem?_eq_some_iff.mp here).1
    match b, inside with
    | 5, _ => decide
    | 0, _ | 1, _ | 2, _ | 3, _ | 4, _ | 6, _ => cases here
  have compilable : Compilable shortReplay.toList := by
    simp [Compilable, shortReplay, Program.ofList, Program.toList, Encodable]
  obtain ⟨succeeds, agrees⟩ := code_agrees shortReplay targeted compilable
  obtain ⟨code, done⟩ := succeeds (by decide)
  obtain ⟨_, _, same⟩ := agrees code done
  refine ⟨targeted, compilable, code, done, fun values => ⟨entered values, ?_⟩⟩
  obtain ⟨result, interpreted, returned, _⟩ := same values
  exact ⟨result, interpreted, returned⟩

end ProgramHash.ScalarCode
