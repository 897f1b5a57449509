import ProgramHash.Proofs.Generation.History
import ProgramHash.Proofs.Interpretation

-- The order of the opcodes in a generated program is the same for all of them: the
-- pattern repeats after 32 instructions, and no stall ever shifts it.
namespace ProgramHash

namespace Pattern

-- The places of the plain multiplies among 32 instructions, and what stands where
-- neither a multiply nor a target or a branch does.
def multiplyPlaces : List Nat := [0, 2, 5, 8, 13, 16, 18, 23, 26, 29]

def otherOpcodes : List Opcode := [.rotate, .xorConst, .addConst, .sub, .xor, .addShift]

structure Placed (n : Nat) (op : Opcode) : Prop where
  target : op = .target ↔ n % 32 = 1
  branch : op = .branch ↔ n % 32 = 17
  wide : op = .umulh ∨ op = .smulh ↔ n % 32 = 11 ∨ n % 32 = 21
  multiply : op = .mul ↔ n % 32 ∈ multiplyPlaces
  other : op ∈ otherOpcodes ↔
    n % 32 ≠ 1 ∧ n % 32 ≠ 17 ∧ n % 32 ≠ 11 ∧ n % 32 ≠ 21 ∧ n % 32 ∉ multiplyPlaces

theorem Settled.opcode_iff {cursor : Nat} {op : Opcode} (settled : Settled cursor op) :
    (op = .target ↔ cursor % 36 = 1) ∧ (op = .branch ↔ cursor % 36 = 19) ∧
      (op = .umulh ∨ op = .smulh ↔ cursor % 36 = 12 ∨ cursor % 36 = 24) ∧
      (op = .mul ↔ cursor % 3 = 0 ∧ cursor % 36 ≠ 12 ∧ cursor % 36 ≠ 24) := by
  cases settled with
  | multiply start plain is => subst is; simp; omega
  | wideMultiply start is => rcases is with rfl | rfl <;> simp <;> omega
  | target here is => subst is; simp; omega
  | branch here is => subst is; simp; omega
  | other inside plain is =>
      have apart : op ≠ .target ∧ op ≠ .branch ∧ op ≠ .umulh ∧ op ≠ .smulh ∧ op ≠ .mul := by
        revert op; decide
      simp only [apart, false_iff, or_self]
      omega

theorem mem_otherOpcodes : ∀ op, op ∈ otherOpcodes ↔
    op ≠ .target ∧ op ≠ .branch ∧ ¬ (op = .umulh ∨ op = .smulh) ∧ op ≠ .mul := by
  intro op
  cases op <;> decide

theorem cursorOf_place (n : Nat) :
    (cursorOf n % 36 = 1 ↔ n % 32 = 1) ∧ (cursorOf n % 36 = 19 ↔ n % 32 = 17) ∧
      (cursorOf n % 36 = 12 ∨ cursorOf n % 36 = 24 ↔ n % 32 = 11 ∨ n % 32 = 21) ∧
      (cursorOf n % 3 = 0 ∧ cursorOf n % 36 ≠ 12 ∧ cursorOf n % 36 ≠ 24 ↔
        n % 32 ∈ multiplyPlaces) := by
  simp only [multiplyPlaces, List.mem_cons, List.not_mem_nil, or_false]
  unfold cursorOf
  repeat' split
  all_goals omega

theorem Settled.placed {cursor : Nat} {op : Opcode} (aligned : Aligned cursor)
    (settled : Settled cursor op) : Placed (index cursor) op := by
  obtain ⟨target, branch, wide, multiply⟩ := settled.opcode_iff
  obtain ⟨one, two, three, four⟩ := cursorOf_place (index cursor)
  rw [cursorOf_index aligned] at one two three four
  have target := target.trans one
  have branch := branch.trans two
  have wide := wide.trans three
  have multiply := multiply.trans four
  refine ⟨target, branch, wide, multiply, ?_⟩
  rw [mem_otherOpcodes, ← multiply, Ne, Ne, Ne, target, branch, wide, not_or, and_assoc]

end Pattern

theorem latestTarget_eq {program : List Instruction} {n t : Nat} (before : t < n)
    (target : program[t]? = some .target)
    (none : ∀ k, t < k → k < n → program[k]? ≠ some .target) : latestTarget? program n = some t := by
  induction n with
  | zero => cases before
  | succ n ih =>
      unfold latestTarget?
      by_cases last : t = n
      · rw [← last, if_pos target]
      · rw [if_neg (none n (by omega) (Nat.lt_succ_self n))]
        exact ih (by omega) fun k after inside => none k after (by omega)

def Opcode.isControl : Opcode → Bool
  | .target | .branch => true
  | _ => false

structure Patterned (program : List Instruction) : Prop where
  length : program.length = 512
  placed : ∀ n i, program[n]? = some i → Pattern.Placed n i.opcode

namespace Patterned

variable {program : List Instruction}

theorem at_place (patterned : Patterned program) {n : Nat} (inside : n < 512) :
    ∃ i, program[n]? = some i ∧ Pattern.Placed n i.opcode := by
  rw [← patterned.length] at inside
  exact ⟨program[n], List.getElem?_eq_getElem inside,
    patterned.placed n _ (List.getElem?_eq_getElem inside)⟩

theorem map_settled {α : Type} (patterned : Patterned program) {f : Opcode → α} {g : Nat → α}
    (settled : ∀ n op, Pattern.Placed n op → f op = g n) :
    program.map (fun i => f i.opcode) = (List.range 512).map g := by
  refine List.ext_getElem (by simp [patterned.length]) fun n inside _ => ?_
  rw [List.length_map] at inside
  simpa using settled n _ (patterned.placed n _ (List.getElem?_eq_getElem inside))

theorem alternating (patterned : Patterned program) :
    (program.map Instruction.opcode).filter Opcode.isControl =
      (List.replicate 16 [Opcode.target, .branch]).flatten := by
  have settled := patterned.map_settled
    (f := Option.guard Opcode.isControl)
    (g := fun n => if n % 32 = 1 then some .target else if n % 32 = 17 then some .branch else none) <| by
      intro n op placed
      by_cases target : op = .target
      · rw [if_pos (placed.target.mp target), target]
        rfl
      · rw [if_neg fun place => target (placed.target.mpr place)]
        by_cases branch : op = .branch
        · rw [if_pos (placed.branch.mp branch), branch]
          rfl
        · rw [if_neg fun place => branch (placed.branch.mpr place)]
          cases op with
          | target => exact absurd rfl target
          | branch => exact absurd rfl branch
          | _ => rfl
  calc (program.map Instruction.opcode).filter Opcode.isControl
      = (program.map fun i => Option.guard Opcode.isControl i.opcode).filterMap id := by
        rw [← List.filterMap_eq_filter, List.filterMap_map, List.filterMap_map]
        rfl
    _ = _ := by
        rw [settled]
        decide +kernel

theorem count_control (patterned : Patterned program) {op : Opcode} (control : op.isControl = true) :
    program.countP (fun i => i.opcode = op) = 16 := by
  have counted : program.countP (fun i => i.opcode = op) = (program.map Instruction.opcode).count op := by
    rw [List.count_eq_countP, List.countP_map]
    exact List.countP_congr fun i _ => by simp
  rw [counted, ← List.count_filter control, patterned.alternating]
  cases op with
  | target | branch => decide
  | _ => cases control

-- From a branch back to its target there is one wide multiply and nothing else
-- that decides what the branch does.
theorem block (patterned : Patterned program) {b : Nat} {mask : UInt32}
    (here : program[b]? = some (.branch mask)) :
    ∃ t, b = t + 16 ∧ latestTarget? program b = some t ∧
      ∀ k i, t < k → k < b → program[k]? = some i → i.opcode ≠ .target ∧ i.opcode ≠ .branch ∧
        (i.opcode = .umulh ∨ i.opcode = .smulh ↔ k = t + 10) := by
  have place : b % 32 = 17 := (patterned.placed b _ here).branch.mp rfl
  have inside : b < program.length := (List.getElem?_eq_some_iff.mp here).1
  rw [patterned.length] at inside
  obtain ⟨t, rfl⟩ : ∃ t, b = t + 16 := ⟨b - 16, by omega⟩
  have between : ∀ k i, t < k → k < t + 16 → program[k]? = some i → i.opcode ≠ .target ∧
      i.opcode ≠ .branch ∧ (i.opcode = .umulh ∨ i.opcode = .smulh ↔ k = t + 10) := by
    intro k i after before there
    have placed := patterned.placed k i there
    exact ⟨fun target => by have := placed.target.mp target; omega,
      fun branch => by have := placed.branch.mp branch; omega,
      placed.wide.trans (by omega)⟩
  obtain ⟨i, there, placed⟩ := patterned.at_place (n := t) (by omega)
  have target : i.opcode = .target := placed.target.mpr (by omega)
  refine ⟨t, rfl, latestTarget_eq (by omega) ?_ ?_, between⟩
  · rw [there, Instruction.eq_target target]
  · intro k after before another
    exact (between k _ after before another).1 rfl

theorem targeted (patterned : Patterned program) : EveryBranchHasTarget program := by
  intro b mask here missing
  obtain ⟨t, _, latest, _⟩ := patterned.block here
  rw [missing] at latest
  cases latest

theorem steps (patterned : Patterned program) (file : RegisterFile) :
    ∃ e, Execution.run program.toArray (.start file) = .ok e ∧ (e.steps = 512 ∨ e.steps = 529) := by
  have run := Execution.run_foretold program file
  obtain ⟨v, n, ended, total⟩ : ∃ v n, foretold program file = .ok (v, n) ∧ (n = 512 ∨ n = 529) := by
    unfold foretold
    cases found : takenBranch? program file with
    | none => exact ⟨_, _, rfl, .inl patterned.length⟩
    | some b =>
        obtain ⟨mask, here, _⟩ := meetsZero_branch (takenBranch_some found).2.1
        obtain ⟨t, rfl, latest, _⟩ := patterned.block here
        simp only [latest]
        exact ⟨_, _, rfl, .inr (by rw [patterned.length]; omega)⟩
  rw [ended] at run
  obtain ⟨e, executed, same⟩ := map_ok.mp run
  exact ⟨e, executed, by rwa [← show e.steps = n from congrArg Prod.snd same] at total⟩

end Patterned

namespace Generator

variable {σ : Type} [Draw σ] {draws : σ} {limit : Nat}

theorem draft_patterned (accepted : ((fresh draws).draft limit).verdict = .accepted) :
    Patterned ((fresh draws).draft limit).program where
  length := (List.length_map _).trans (draft_length (Draft.verdict_accepted.mp accepted))
  placed := by
    intro n i here
    rw [Draft.program, List.getElem?_map] at here
    obtain ⟨issue, there, rfl⟩ := Option.map_eq_some_iff.mp here
    obtain ⟨h, made, _, _, onTime, issued, rfl⟩ := draft_issued there
    exact (Pattern.settled issued.drawn).placed onTime.aligned

end Generator

structure FixedShape (program : List Instruction) : Prop extends Patterned program where
  alternating : (program.map Instruction.opcode).filter Opcode.isControl =
    (List.replicate 16 [Opcode.target, .branch]).flatten
  targets : (Program.ofList program).opcodeCount .target = 16
  branches : (Program.ofList program).opcodeCount .branch = 16
  block : ∀ b mask, program[b]? = some (.branch mask) →
    ∃ t, b = t + 16 ∧ latestTarget? program b = some t ∧
      ∀ k i, t < k → k < b → program[k]? = some i → i.opcode ≠ .target ∧ i.opcode ≠ .branch ∧
        (i.opcode = .umulh ∨ i.opcode = .smulh ↔ k = t + 10)
  run : ∀ file, ∃ e, Execution.run program.toArray (.start file) = .ok e ∧
    (e.steps = 512 ∨ e.steps = 529) ∧
    (Program.ofList program).interpret file = .ok e.values.file

theorem Patterned.fixedShape {program : List Instruction} (patterned : Patterned program) :
    FixedShape program where
  toPatterned := patterned
  alternating := patterned.alternating
  targets := patterned.count_control rfl
  branches := patterned.count_control rfl
  block := fun _ _ here => patterned.block here
  run := fun file => by
    obtain ⟨e, executed, total⟩ := patterned.steps file
    refine ⟨e, executed, total, ?_⟩
    rw [Program.interpret, Program.ofList, executed]
    rfl

-- Whatever the draws are, and so for every key and salt, what is generated has
-- the one fixed shape.
theorem generated_programs_have_fixed_shape :
    (∀ (σ : Type) [Draw σ] (draws : σ) (limit : Nat),
      ((Generator.fresh draws).draft limit).verdict = .accepted →
        FixedShape ((Generator.fresh draws).draft limit).program) ∧
    ∀ (key : SipState) (limit attempts salt : Nat) (p : Program),
      (Program.generateFrom key limit attempts salt).2 = .ok p → FixedShape p.toList := by
  constructor
  · intro σ _ draws limit accepted
    exact (Generator.draft_patterned accepted).fixedShape
  · intro key limit attempts salt p generated
    obtain ⟨accepted, rfl⟩ := Program.generateFrom_ok generated
    exact (Generator.draft_patterned accepted).fixedShape

theorem sweep_program_has_fixed_shape :
    ((Generator.fresh (⟨0⟩ : Sweep)).draft 4).verdict = .accepted ∧
      FixedShape ((Generator.fresh (⟨0⟩ : Sweep)).draft 4).program :=
  have accepted := Draft.verdict_accepted.mpr Sweep.draft_ends
  ⟨accepted, generated_programs_have_fixed_shape.1 Sweep ⟨0⟩ 4 accepted⟩

end ProgramHash
