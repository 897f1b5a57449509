import ProgramHash.Backend
import ProgramHash.Proofs.Interpretation
import ProgramHash.Proofs.LaneFile
import ProgramHash.Proofs.Vector.Simulation

namespace ProgramHash

namespace VectorCode

open Machine

-- The code of a body counts for every branch after a target, so that it can grow
-- with the square of the program.
def sizeLimit : Nat := 0x400

theorem emitBranch_near {a : Assembly} {m : Nat} (small : a.Small m) (mask : UInt32)
    {body : List Instruction} (near : 11 * (m + 25 * body.length + 4) < Assembly.reach) :
    ∃ b, emitBranch a mask body = .ok b := by
  have guard : (guarded a mask).Small (m + 3) := (small.putAll (testPieces mask)).emit (.jumpIfZero 0)
  have few := takePieces_few body
  have code := (guard.putAll (takePieces body)).code
  have front := (guarded a mask).putAll_offset (takePieces body)
  have size : (guarded a mask).offset = (a.putAll (testPieces mask)).offset + 6 := Assembly.emit_offset _
  have field : (guarded a mask).field = (guarded a mask).offset - 4 := rfl
  rw [emitBranch_bind]
  exact Assembly.bindTo_near ⟨by omega, by omega⟩

theorem compile_laid {p : Program} (compilable : Compilable p.toList) {code : Array UInt8}
    (done : compile p = .ok code) : ∃ pool ≤ code.size, Laid p.toList code pool := by
  rw [compile_emitted] at done
  obtain ⟨pool, room, laid⟩ := (closes p.toList).laidOut done
  exact ⟨pool, room, laid, compilable⟩

theorem size_near {n : Nat} (small : n ≤ sizeLimit) :
    (11 + 8 * 8) * (11 + (25 * n + 4) * n + epiloguePieces.length + 2) < Assembly.reach := by
  have square : (25 * n + 4) * n ≤ (25 * sizeLimit + 4) * sizeLimit := Nat.mul_le_mul (by omega) small
  have room : 75 * (11 + (25 * sizeLimit + 4) * sizeLimit + 11) < Assembly.reach := by decide
  rw [show epiloguePieces.length = 9 from rfl]
  omega

theorem compile_succeeds {p : Program} (targeted : EveryBranchHasTarget p.toList)
    (small : p.size ≤ sizeLimit) : ∃ code, compile p = .ok code := by
  have puts := closes p.toList
  have length : p.toList.length ≤ sizeLimit := small
  have square : (25 * p.toList.length + 4) * p.toList.length ≤ (25 * sizeLimit + 4) * sizeLimit :=
    Nat.mul_le_mul (by omega) length
  have body : 11 * ((25 * sizeLimit + 4) * sizeLimit + 25 * sizeLimit + 15) < Assembly.reach := by decide
  obtain ⟨s, emitted⟩ := (notes_targets p.toList.toArray).compiles targeted fun k mask s here early => by
    have inside := (List.getElem?_eq_some_iff.mp here).1
    have before := Nat.mul_le_mul_left (25 * p.toList.length + 4) (Nat.le_of_lt inside)
    intro failed
    simp only [emit] at failed
    split at failed
    · rename_i target noted
      have short : ((p.toList.toArray.extract (target + 1) k).toList).length ≤ p.toList.length := by
        rw [Array.length_toList, Array.size_extract, List.size_toArray]
        omega
      obtain ⟨b, done⟩ := @emitBranch_near _ _ (puts.smallAfter early) mask
        (p.toList.toArray.extract (target + 1) k).toList (by omega)
      rw [done] at failed
      cases failed
    · cases failed
  obtain ⟨code, done⟩ := puts.finishes emitted (size_near length)
  exact ⟨code, by rw [compile_emitted, emitted?, emitted]; exact done⟩

theorem interpret_laneAfter {p : Program} (targeted : EveryBranchHasTarget p.toList)
    (file : RegisterFile) :
    p.interpret file = .ok (laneAfter p.toList file p.toList.length).2.file := by
  obtain ⟨result, interpreted⟩ := Program.interpret_ok targeted file
  rw [Program.interpret_foretold] at interpreted ⊢
  obtain ⟨r, ended, _⟩ := map_ok.mp interpreted
  rw [ended, laneAfter_foretold ended]
  rfl

-- Compiled code does to every lane what the interpreter does to the file in it,
-- whatever stands in the other lanes and whichever of them take which branch.
theorem lanes_agree (p : Program) (targeted : EveryBranchHasTarget p.toList)
    (compilable : Compilable p.toList) :
    (p.size ≤ sizeLimit → ∃ code, compile p = .ok code) ∧
    ∀ code, compile p = .ok code → ∃ pool ≤ code.size, ∀ files : Bank RegisterFile 8,
      ∃ result : LaneFile, (∀ l : Fin 8, p.interpret files[l] = .ok (result.lane l)) ∧
        run code (LaneFile.ofLanes files) = .ok result ∧
        ∀ entry, Entered (LaneFile.ofLanes files) entry →
          (∃ q, Processor.run code (stepBound code) entry = .returned q ∧ Restored result entry q) ∧
          ∀ r, Processor.Visits code entry r → Processor.Within code pool 8 r := by
  refine ⟨compile_succeeds targeted, ?_⟩
  intro code done
  obtain ⟨pool, room, laid⟩ := compile_laid compilable done
  refine ⟨pool, room, ?_⟩
  intro files
  obtain ⟨q, result, returned, restored, lanes, _⟩ := laid.returns (entered (LaneFile.ofLanes files))
  refine ⟨result, ?_, runCode_returned returned restored.memory, ?_⟩
  · intro l
    rw [lanes l, LaneFile.lane_ofLanes]
    exact interpret_laneAfter targeted files[l]
  · intro entry from_
    obtain ⟨q', result', returned', restored', lanes', within⟩ := laid.returns from_
    have same : result' = result := LaneFile.ext_lanes fun l => (lanes' l).trans (lanes l).symm
    rw [same] at restored'
    exact ⟨⟨q', returned', restored'⟩, within⟩

def twoBranches : Program :=
  .ofList [.umulh 0 1, .target, .addShift 5 1 63, .branch 1, .smulh 2 2, .xorConst 3 7, .branch 0,
    .rotate 4 7]

theorem twoBranches_agree :
    EveryBranchHasTarget twoBranches.toList ∧ Compilable twoBranches.toList ∧
      ∃ code, compile twoBranches = .ok code ∧ ∀ files : Bank RegisterFile 8,
        Entered (LaneFile.ofLanes files) (Processor.enter (LaneFile.ofLanes files).toArray) ∧
        ∃ result : LaneFile, run code (LaneFile.ofLanes files) = .ok result ∧
          ∀ l : Fin 8, twoBranches.interpret files[l] = .ok (result.lane l) := by
  have targeted : EveryBranchHasTarget twoBranches.toList := by
    intro b mask here
    have inside : b < 8 := (List.getElem?_eq_some_iff.mp here).1
    match b, inside with
    | 3, _ | 6, _ => decide
    | 0, _ | 1, _ | 2, _ | 4, _ | 5, _ | 7, _ => cases here
  have compilable : Compilable twoBranches.toList := by
    simp [Compilable, twoBranches, Program.ofList, Program.toList, Encodable]
  obtain ⟨succeeds, agree⟩ := lanes_agree twoBranches targeted compilable
  obtain ⟨code, done⟩ := succeeds (by decide)
  obtain ⟨_, _, same⟩ := agree code done
  refine ⟨targeted, compilable, code, done, fun files => ⟨entered _, ?_⟩⟩
  obtain ⟨result, interpreted, returned, _⟩ := same files
  exact ⟨result, returned, interpreted⟩

end VectorCode

end ProgramHash
