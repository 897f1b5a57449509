import ProgramHash.Proofs.Generation.Rewriting
import ProgramHash.Proofs.Generation.Stalls

-- The rule on opcodes in a row is kept against the opcode drawn last, which is not
-- always one that was issued: a refused pass leaves its own. As long as nothing
-- stalls, only a retry meets such an opcode, and a retry draws from the operations
-- with a constant alone.
namespace ProgramHash

theorem Opcode.sums_apart : ∀ x ∈ [Opcode.addShift, .sub], ∀ y ∈ [Opcode.addShift, .sub],
    y.mayFollow (some x) = false := by decide

theorem Pattern.retry_breaks {cursor : Nat} {op last : Opcode}
    (drawn : op ∈ (OpcodeClass.ofCursor cursor .retry).opcodes)
    (breaks : op.mayFollow (some last) = false) :
    last = op ∧ op ∈ [Opcode.addConst, .xorConst, .rotate] := by
  cases kind cursor with
  | multiply _ _ class_ =>
      rw [class_] at drawn
      cases List.mem_singleton.mp drawn
      cases breaks
  | wideMultiply _ class_ =>
      have wide : op = .smulh ∨ op = .umulh := by
        simpa [class_, OpcodeClass.opcodes, OpcodeClass.wideOpcodes] using drawn
      rcases wide with rfl | rfl <;> cases breaks
  | target _ class_ =>
      rw [class_] at drawn
      cases List.mem_singleton.mp drawn
      cases breaks
  | branch _ class_ =>
      rw [class_] at drawn
      cases List.mem_singleton.mp drawn
      cases breaks
  | other _ _ _ retried =>
      rw [retried] at drawn
      revert op
      cases last <;> decide

namespace Generator

variable {σ : Type} [Draw σ] {draws : σ} {limit : Nat} {g h k : Generator σ} {issue : Issue}

theorem Reached.lastDrawn {issues : List Issue} (reached : Reached limit g issues h) {a : Issue}
    (last : issues.getLast? = some a) : h.lastDrawn = some a.instruction.opcode := by
  cases reached with
  | start => cases last
  | step _ made passed =>
      rw [List.getLast?_concat, Option.some.injEq] at last
      obtain ⟨_, _, _, lastDrawn, _⟩ := commit_notes passed
      obtain ⟨_, _, _, _, _, found⟩ := next_made made
      obtain ⟨_, _, _, _, _, rfl⟩ := attempt_made found
      rw [lastDrawn, last]

theorem OnTime.finds (onTime : OnTime g) (made : g.next limit = .made issue h) :
    Finds limit g issue h := by
  obtain ⟨cycles, k, stalled, found⟩ := next_finds made
  exact onTime.not_stalled stalled ▸ found

def Retried (g : Generator σ) (limit room n : Nat) : Prop :=
  ∃ issue h k made, (g.run limit room).issues[n]? = some issue ∧
    Reached limit g ((g.run limit room).issues.take n) h ∧
    h.attempt limit .first = .refused k ∧ k.attempt limit .retry = .made issue made

theorem run_breaks {room n : Nat} {a b : Issue}
    (first : ((fresh draws).run limit room).issues[n]? = some a)
    (second : ((fresh draws).run limit room).issues[n + 1]? = some b)
    (breaks : b.instruction.opcode.mayFollow (some a.instruction.opcode) = false) :
    a.instruction.opcode = b.instruction.opcode ∧
      b.instruction.opcode ∈ [Opcode.addConst, .xorConst, .rotate] ∧
      Retried (fresh draws) limit room (n + 1) := by
  obtain ⟨h, made, reached, next⟩ := run_issued second
  have lastDrawn := reached.lastDrawn (a := a) (by simp [List.getLast?_take, first])
  rcases ((reached.onTime (onTime_fresh draws)).1).finds next with usual | ⟨k, refused, retried⟩
  · obtain ⟨⟨_, follows⟩, _⟩ := attempt_made usual
    rw [lastDrawn, breaks] at follows
    cases follows
  · obtain ⟨⟨drawn, _⟩, _⟩ := attempt_made retried
    obtain ⟨same, constant⟩ := Pattern.retry_breaks drawn breaks
    exact ⟨same, constant, b, h, k, made, second, reached, refused, retried⟩

end Generator

structure KeepsPairRule (program : List Instruction) (retried : Nat → Prop) : Prop where
  sums : ∀ n x y, program[n]? = some x → program[n + 1]? = some y →
    ¬ (x.opcode ∈ [Opcode.addShift, .sub] ∧ y.opcode ∈ [Opcode.addShift, .sub])
  xors : ∀ n x y, program[n]? = some x → program[n + 1]? = some y →
    ¬ (x.opcode = .xor ∧ y.opcode = .xor)
  exceptions : ∀ n x y, program[n]? = some x → program[n + 1]? = some y →
    y.opcode.mayFollow (some x.opcode) = false →
      x.opcode = y.opcode ∧ y.opcode ∈ [Opcode.addConst, .xorConst, .rotate] ∧ retried (n + 1)

theorem Generator.run_keepsPairRule {σ : Type} [Draw σ] (draws : σ) (limit room : Nat) :
    KeepsPairRule ((fresh draws).run limit room).program (Retried (fresh draws) limit room) := by
  have exceptions : ∀ n x y, ((fresh draws).run limit room).program[n]? = some x →
      ((fresh draws).run limit room).program[n + 1]? = some y →
      y.opcode.mayFollow (some x.opcode) = false →
        x.opcode = y.opcode ∧ y.opcode ∈ [Opcode.addConst, .xorConst, .rotate] ∧
          Retried (fresh draws) limit room (n + 1) := by
    intro n x y first second breaks
    obtain ⟨a, one, rfl, _⟩ := Draft.getElem_program first
    obtain ⟨b, two, rfl, _⟩ := Draft.getElem_program second
    exact run_breaks one two breaks
  refine ⟨?_, ?_, exceptions⟩
  · rintro n x y first second ⟨one, two⟩
    have constant := (exceptions n x y first second (Opcode.sums_apart _ one _ two)).2.1
    have apart : ∀ op ∈ [Opcode.addShift, .sub], op ∉ [Opcode.addConst, .xorConst, .rotate] := by
      decide
    exact apart _ two constant
  · rintro n x y first second ⟨one, two⟩
    have constant := (exceptions n x y first second (by rw [one, two]; rfl)).2.1
    rw [two] at constant
    exact absurd constant (by decide)

-- In a generated program no two sums with a source follow one another and no two
-- exclusive ors; elsewhere the rule is broken by a retry alone, which repeats an
-- operation with a constant.
theorem generated_programs_keep_pair_rule :
    (∀ (σ : Type) [Draw σ] (draws : σ) (limit room : Nat),
      KeepsPairRule ((Generator.fresh draws).run limit room).program
        ((Generator.fresh draws).Retried limit room)) ∧
    ∀ (key : SipState) (limit attempts salt : Nat) (p : Program),
      (Program.generateFrom key limit attempts salt).2 = .ok p →
        KeepsPairRule p.toList
          ((Generator.fresh (CounterStream.ofSalt key (UInt32.ofNat salt))).Retried limit
            Ledger.programSize) := by
  refine ⟨fun σ _ draws limit room => Generator.run_keepsPairRule draws limit room, ?_⟩
  intro key limit attempts salt p generated
  obtain ⟨_, rfl⟩ := Program.generateFrom_ok generated
  exact Generator.run_keepsPairRule _ limit _

theorem crowded_program_keeps_pair_rule :
    ((Generator.fresh Script.crowded).run 4 16).program[14]? = some (.addConst 2 1) ∧
      ((Generator.fresh Script.crowded).run 4 16).program[15]? = some (.addConst 4 1) ∧
      Opcode.addConst.mayFollow (some .addConst) = false ∧
      (Generator.fresh Script.crowded).Retried 4 16 15 := by
  have first : ((Generator.fresh Script.crowded).run 4 16).program[14]? = some (.addConst 2 1) := by
    rw [Script.crowded_program]
    rfl
  have second : ((Generator.fresh Script.crowded).run 4 16).program[15]? = some (.addConst 4 1) := by
    rw [Script.crowded_program]
    rfl
  obtain ⟨_, _, exceptions⟩ := generated_programs_keep_pair_rule.1 Script Script.crowded 4 16
  exact ⟨first, second, rfl, (exceptions 14 _ _ first second rfl).2.2⟩

end ProgramHash
