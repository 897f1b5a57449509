import ProgramHash.Proofs.Generation.History

-- What generation promises of the operands of an instruction, whatever state the
-- generator is in: encoding them asks for no more.
namespace ProgramHash

def Instruction.Sound : Instruction → Prop
  | .branch mask => weight mask = 4
  | .addShift dst src shift => shift < 4 ∧ dst ≠ src ∧ dst ≠ 5
  | .mul dst src | .sub dst src | .xor dst src => dst ≠ src
  | .rotate _ amount => 1 ≤ amount ∧ amount ≤ 63
  | .addConst _ immediate | .xorConst _ immediate => immediate ≠ 0
  | .umulh .. | .smulh .. | .target => True

section Masks

theorem testBit_or_bit (mask k : UInt32) {i : Nat} (other : i ≠ (k % 32).toNat) :
    (mask ||| (1 <<< (k % 32))).toNat.testBit i = mask.toNat.testBit i := by
  have absent : (1 <<< (k % 32).toNat : Nat).testBit i = false := by
    rw [Nat.testBit_shiftLeft]
    by_cases above : (k % 32).toNat ≤ i
    · have away : (1 : Nat).testBit (i - (k % 32).toNat) = false :=
        Bool.eq_false_iff.mpr fun lit =>
          absurd (Nat.testBit_one_eq_true_iff_self_eq_zero.mp lit) (by omega)
      rw [away, Bool.and_false]
    · rw [decide_eq_false above, Bool.false_and]
  have small : (k % 32).toNat % 32 = (k % 32).toNat := by
    rw [UInt32.toNat_mod]
    exact Nat.mod_mod _ _
  rw [UInt32.toNat_or, Nat.testBit_or, UInt32.toNat_shiftLeft, UInt32.toNat_one, small,
    Nat.testBit_mod_two_pow, absent, Bool.and_false, Bool.or_false]

theorem weight_or_bit_le (mask k : UInt32) : weight (mask ||| (1 <<< (k % 32))) ≤ weight mask + 1 :=
  countP_le_succ_of_off List.nodup_range fun _ _ other => testBit_or_bit mask k other

-- The loop stops at the first mask that is heavy enough, and none is too heavy
-- before.
theorem branchMask_weight {σ : Type} [Draw σ] {limit : Nat} {mask result : UInt32} {s rest : σ}
    (light : weight mask ≤ branchWeight) (ended : branchMask limit mask s = some (result, rest)) :
    weight result = branchWeight := by
  induction limit generalizing mask s with
  | zero =>
      unfold branchMask at ended
      split at ended
      · rename_i enough
        cases ended
        exact Nat.le_antisymm light enough
      · cases ended
  | succ limit ih =>
      unfold branchMask at ended
      split at ended
      · rename_i enough
        cases ended
        exact Nat.le_antisymm light enough
      · rename_i few
        refine ih ?_ ended
        exact Nat.le_trans (weight_or_bit_le _ _) (Nat.succ_le_of_lt (Nat.lt_of_not_le few))

end Masks

section Operands

variable {σ : Type} [Draw σ] {limit : Nat}

theorem Draw.nonzero_some {mask value : UInt32} {s rest : σ}
    (ended : Draw.nonzero limit mask s = some (value, rest)) :
    value ≠ 0 ∧ ∃ drawn, value = drawn &&& mask := by
  obtain ⟨t, accepted, _⟩ := Draw.repeatUntil_some ended
  split at accepted
  · cases accepted
  · rename_i some
    cases accepted
    exact ⟨some, _, rfl⟩

namespace Opening

variable {o : Opening} {i : Instruction} {w : Writer} {d r : Register}

theorem Accepts.apart (accepted : o.Accepts i w) (destination : i.destination? = some d)
    (source : i.source? = some r) (kept : i.opcode.allowsSourceAsDestination = false) : d ≠ r := by
  obtain ⟨_, allowed⟩ := accepted.allowed d destination
  rintro rfl
  rw [← accepted.opcode] at allowed
  simp [Ledger.destinationAllowed, source, kept] at allowed

theorem Accepts.shifted (accepted : o.Accepts i w) (destination : i.destination? = some d)
    (sum : i.opcode = .addShift) : d ≠ 5 := by
  obtain ⟨_, allowed⟩ := accepted.allowed d destination
  rintro rfl
  rw [← accepted.opcode] at allowed
  simp [Ledger.destinationAllowed, Ledger.shiftedSumExcluded, sum] at allowed

theorem constantOperands_constant {group : WriterGroup} {mask k : UInt32} {s rest : σ}
    (made : o.constantOperands limit group mask s = .made (d, k, w) rest) :
    k ≠ 0 ∧ ∃ drawn, k = drawn &&& mask := by
  obtain ⟨constant, t, drawn, made⟩ := Choice.andThen_made made
  obtain ⟨dst, u, _, made⟩ := Choice.andThen_made made
  cases made
  exact Draw.nonzero_some (Choice.ofLoop_made drawn)

theorem toInt32_ne_zero {k : UInt32} (some : k ≠ 0) : k.toInt32 ≠ 0 := fun zero =>
  some (by rw [← UInt32.toUInt32_toInt32 k, zero]; rfl)

theorem amount_bounds {k drawn : UInt32} (some : k ≠ 0) (masked : k = drawn &&& 63) :
    1 ≤ k.toUInt8 ∧ k.toUInt8 ≤ 63 := by
  have small : k.toNat ≤ 63 := by
    rw [masked, UInt32.toNat_and]
    exact Nat.and_le_right
  have positive : k.toNat ≠ 0 := fun zero => some (UInt32.toNat_inj.mp zero)
  have same : k.toUInt8.toNat = k.toNat := by
    rw [UInt32.toNat_toUInt8]
    exact Nat.mod_eq_of_lt (by omega)
  rw [UInt8.le_iff_toNat_le, UInt8.le_iff_toNat_le, same]
  exact ⟨Nat.pos_of_ne_zero positive, small⟩

theorem shift_small (h : UInt32) : (h &&& 3).toUInt8 < 4 := by
  have small : (h &&& 3).toNat ≤ 3 := by
    rw [UInt32.toNat_and]
    exact Nat.and_le_right
  rw [UInt8.lt_iff_toNat_lt, UInt32.toNat_toUInt8, Nat.mod_eq_of_lt (by omega)]
  exact Nat.lt_succ_of_le small

theorem instruction_sound {s rest : σ} (made : o.instruction limit s = .made (i, w) rest) :
    i.Sound := by
  have accepted := instruction_made made
  unfold instruction at made
  split at made
  case h_1 =>
    cases made
    trivial
  case h_2 =>
    obtain ⟨mask, t, drawn, made⟩ := Choice.andThen_made made
    cases made
    exact branchMask_weight (by decide) (Choice.ofLoop_made drawn)
  case h_3 | h_4 =>
    obtain ⟨⟨d, r, v⟩, t, _, made⟩ := Choice.andThen_made made
    cases made
    trivial
  case h_5 | h_6 | h_7 =>
    obtain ⟨⟨d, r, v⟩, t, _, made⟩ := Choice.andThen_made made
    cases made
    exact accepted.apart rfl rfl rfl
  case h_8 =>
    obtain ⟨⟨d, r, v⟩, t, _, made⟩ := Choice.andThen_made made
    cases made
    exact ⟨shift_small _, accepted.apart rfl rfl rfl, accepted.shifted rfl rfl⟩
  case h_9 | h_10 =>
    obtain ⟨⟨d, k, v⟩, t, chosen, made⟩ := Choice.andThen_made made
    cases made
    exact toInt32_ne_zero (constantOperands_constant chosen).1
  case h_11 =>
    obtain ⟨⟨d, k, v⟩, t, chosen, made⟩ := Choice.andThen_made made
    cases made
    obtain ⟨some, drawn, masked⟩ := constantOperands_constant chosen
    exact amount_bounds some masked

end Opening

namespace Generator

variable {g h : Generator σ} {issue : Issue}

theorem attempt_sound {pass : Pass} (made : g.attempt limit pass = .made issue h) :
    issue.instruction.Sound := by
  unfold attempt at made
  split at made
  · cases made
  · split at made
    · cases made
    · split at made
      · cases made
      · cases made
      · rename_i chosen
        cases made
        exact Opening.instruction_sound chosen

theorem next_sound (made : g.next limit = .made issue h) : issue.instruction.Sound := by
  obtain ⟨k, _, _, _, _, found⟩ := next_made made
  exact attempt_sound found

theorem run_sound {room : Nat} : ∀ i ∈ (g.run limit room).program, i.Sound := by
  intro i member
  obtain ⟨issue, inside, rfl⟩ := List.mem_map.mp member
  obtain ⟨n, here⟩ := List.getElem?_of_mem inside
  obtain ⟨h, made, _, next⟩ := run_issued here
  exact next_sound next

end Generator

end Operands

end ProgramHash
