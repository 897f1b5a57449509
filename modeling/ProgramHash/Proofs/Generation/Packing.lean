import ProgramHash.Proofs.Generation.History

-- What a finished schedule looks like: each of the 192 cycles has given away all
-- of its units, p1 to the one multiply that issues in it.
namespace ProgramHash

namespace MicroOps

theorem place_avoids {ops : MicroOps} {busy taken : UnitSet} (placed : ops.place busy = some taken)
    (multiplied : busy.p1 = true) : taken.p1 = false := by
  refine Bool.eq_false_iff.mpr fun takes => ?_
  have free : busy.has .p1 = false := (place_assigned placed).free (p := .p1) takes
  exact absurd (free.symm.trans multiplied) (by decide)

theorem place_multiply {op : Opcode} {busy taken : UnitSet} (multiply : op.isMultiplication = true)
    (placed : op.microOps.place busy = some taken) : taken.p1 = true := by
  have only {p : ExecutionUnit} (allowed : UnitSet.has ⟨false, true, false⟩ p = true) : p = .p1 := by
    cases p with
    | p1 => rfl
    | p0 | p5 => cases allowed
  cases op with
  | mul =>
      cases place_assigned placed with
      | single fits _ => rw [only fits]; rfl
  | umulh | smulh =>
      cases place_assigned placed with
      | dual fits _ _ _ _ => rw [only fits]; rfl
  | _ => cases multiply

end MicroOps

namespace Pattern

theorem Settled.isMultiplication_iff {cursor : Nat} {op : Opcode} (settled : Settled cursor op) :
    op.isMultiplication = true ↔ cursor % 3 = 0 := by
  cases settled with
  | multiply start _ is => subst is; simpa [Opcode.isMultiplication] using start
  | wideMultiply start is =>
      rcases is with rfl | rfl <;> simp only [Opcode.isMultiplication, true_iff] <;> omega
  | target here is =>
      subst is; simp only [Opcode.isMultiplication, Bool.false_eq_true, false_iff]; omega
  | branch here is =>
      subst is; simp only [Opcode.isMultiplication, Bool.false_eq_true, false_iff]; omega
  | other inside plain is =>
      simp only [(other_plain op is).single, Bool.false_eq_true, false_iff]
      exact inside

end Pattern

namespace Generator

variable {σ : Type} {g h : Generator σ} {issue : Issue}

theorem Issued.isMultiplication_iff (issued : Issued g issue h) :
    issue.instruction.opcode.isMultiplication = true ↔ g.schedule.cursor % 3 = 0 :=
  (Pattern.settled issued.drawn).isMultiplication_iff

theorem Issued.holds_p1 (onTime : OnTime g) (issued : Issued g issue h) :
    issue.slot.units.p1 = issue.instruction.opcode.isMultiplication := by
  obtain ⟨busy, here, placed⟩ := Schedule.searchSlot_some issued.planned
  cases multiply : issue.instruction.opcode.isMultiplication with
  | true => exact MicroOps.place_multiply multiply placed
  | false =>
      refine MicroOps.place_avoids placed ?_
      obtain ⟨present, now, units⟩ := onTime.present
      rw [issued.slot_cycle onTime, now, Option.some.injEq] at here
      subst here
      have inside : g.schedule.cursor % 3 ≠ 0 := fun start => by
        rw [issued.isMultiplication_iff.mpr start] at multiply
        cases multiply
      rcases (show g.schedule.cursor % 3 = 1 ∨ g.schedule.cursor % 3 = 2 by omega) with second | third
      · rw [units.multiplied second]
      · rcases units.oneLeft third with rfl | ⟨rfl, _⟩ <;> rfl

variable [Draw σ] {draws : σ} {limit : Nat}

theorem draft_units (ended : ((fresh draws).draft limit).ending ≠ .unended) :
    (∀ cycle < 192, ((fresh draws).draft limit).generator.schedule.busy[cycle]? = some .all) ∧
      ∀ cycle, 192 ≤ cycle → cycle < 196 →
        ((fresh draws).draft limit).generator.schedule.busy[cycle]? = some .none := by
  obtain ⟨_, last, h, made, _, _, _, onTime, issued, stopped⟩ := draft_completed ended
  obtain ⟨_, blocked, same⟩ := (commit_moves stopped).resolve_left (by simp)
  have room := Schedule.pass_none blocked
  have cursor : made.schedule.cursor = h.schedule.cursor := by rw [issued.schedule]; rfl
  rw [cursor] at room
  -- The pass ended because the last instruction filled the last cycle to its end.
  have atEnd : 576 = h.schedule.cursor + last.instruction.opcode.microOps.subCycles := by
    have before := h.schedule.cursor_lt
    have moved := (issued.step onTime).cycle
    omega
  obtain ⟨past, ⟨busy, next, units⟩, future⟩ := issued.units onTime atEnd (Nat.le_refl 576)
  rw [same]
  refine ⟨past, fun cycle after inside => ?_⟩
  by_cases first : cycle = 192
  · rw [first, next, units.start rfl]
  · exact future cycle (by omega) inside

theorem draft_multiply (ended : ((fresh draws).draft limit).ending ≠ .unended) {cycle : Nat}
    (inside : cycle < 192) :
    ∃ issue, ((fresh draws).draft limit).issues[Pattern.index (3 * cycle)]? = some issue ∧
      issue.slot.cycle = cycle ∧ issue.instruction.opcode.isMultiplication = true := by
  have aligned : Pattern.Aligned (3 * cycle) := by unfold Pattern.Aligned; omega
  have room : Pattern.index (3 * cycle) < ((fresh draws).draft limit).issues.length := by
    rw [draft_length ended]
    exact Pattern.index_lt (by omega)
  have here := List.getElem?_eq_getElem room
  obtain ⟨h, made, _, _, onTime, issued, place⟩ := draft_issued here
  have cursor := Pattern.index_inj onTime.aligned aligned place
  refine ⟨_, here, ?_, issued.isMultiplication_iff.mpr (by omega)⟩
  rw [issued.slot_cycle onTime, Schedule.cycle, cursor]
  exact Nat.mul_div_cancel_left cycle (by decide)

theorem draft_multiply_unique {n : Nat} {issue : Issue}
    (here : ((fresh draws).draft limit).issues[n]? = some issue) :
    (issue.instruction.opcode.isMultiplication = true ↔ n = Pattern.index (3 * issue.slot.cycle)) ∧
      issue.slot.units.p1 = issue.instruction.opcode.isMultiplication := by
  obtain ⟨h, made, _, _, onTime, issued, rfl⟩ := draft_issued here
  refine ⟨?_, issued.holds_p1 onTime⟩
  rw [issued.isMultiplication_iff, issued.slot_cycle onTime, Schedule.cycle, Schedule.subCyclesPerCycle]
  constructor
  · intro start
    rw [Nat.mul_div_cancel' (Nat.dvd_of_mod_eq_zero start)]
  · intro same
    have aligned : Pattern.Aligned (3 * (h.schedule.cursor / 3)) := by unfold Pattern.Aligned; omega
    have cursor := Pattern.index_inj onTime.aligned aligned same
    omega

end Generator

-- Nothing is ever put off: an instruction issues in the cycle at which the cursor
-- stands. At the end the cycles of the pattern are full, those behind them are
-- untouched, and each of the former holds one multiply, on p1.
theorem schedule_perfectly_packed (σ : Type) [Draw σ] (draws : σ) (limit : Nat) :
    let d := (Generator.fresh draws).draft limit
    (∀ n issue, d.issues[n]? = some issue → ∃ h made,
      Generator.Reached limit (Generator.fresh draws) (d.issues.take n) h ∧
        h.next limit = .made issue made ∧ made.schedule.cursor = h.schedule.cursor ∧
        h.schedule.plan? issue.instruction.opcode = some issue.slot ∧
        issue.slot.cycle = h.schedule.cursor / 3) ∧
    (d.ending ≠ .unended →
      (∀ cycle < 192, d.generator.schedule.busy[cycle]? = some ⟨true, true, true⟩) ∧
      (∀ cycle, 192 ≤ cycle → cycle < 196 →
        d.generator.schedule.busy[cycle]? = some ⟨false, false, false⟩) ∧
      ∀ cycle < 192, ∃ (n : Nat) (issue : Issue), d.issues[n]? = some issue ∧
        issue.slot.cycle = cycle ∧ issue.instruction.opcode.isMultiplication = true ∧
        issue.slot.units.has .p1 = true ∧
        ∀ (m : Nat) (other : Issue), d.issues[m]? = some other → other.slot.cycle = cycle →
          (other.instruction.opcode.isMultiplication = true ↔ m = n) ∧
            (other.slot.units.has .p1 = true ↔ m = n)) := by
  refine ⟨fun n issue here => ?_, fun ended => ?_⟩
  · obtain ⟨h, made, reached, next, onTime, issued, _⟩ := Generator.draft_issued here
    exact ⟨h, made, reached, next, by rw [issued.schedule]; rfl, issued.planned,
      issued.slot_cycle onTime⟩
  · obtain ⟨full, untouched⟩ := Generator.draft_units ended
    refine ⟨full, untouched, fun cycle inside => ?_⟩
    obtain ⟨issue, here, when_, multiply⟩ := Generator.draft_multiply ended inside
    have held := (Generator.draft_multiply_unique here).2
    refine ⟨_, issue, here, when_, multiply, held.trans multiply, ?_⟩
    intro m other there same
    obtain ⟨alone, taken⟩ := Generator.draft_multiply_unique there
    rw [same] at alone
    exact ⟨alone, by rw [show other.slot.units.has .p1 = other.slot.units.p1 from rfl, taken, alone]⟩

theorem sweep_perfectly_packed :
    ((Generator.fresh (⟨0⟩ : Sweep)).draft 4).ending ≠ .unended ∧ ∀ cycle < 192,
      ((Generator.fresh (⟨0⟩ : Sweep)).draft 4).generator.schedule.busy[cycle]? =
        some ⟨true, true, true⟩ :=
  ⟨Sweep.draft_ends, ((schedule_perfectly_packed Sweep ⟨0⟩ 4).2 Sweep.draft_ends).1⟩

end ProgramHash
