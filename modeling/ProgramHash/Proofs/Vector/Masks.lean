import ProgramHash.Machine.Processor

namespace ProgramHash.Machine

-- The first lanes of a mask that is put together lane by lane.
def firstBits (f : Fin 8 → Bool) (k : Nat) : Nat :=
  ((List.finRange 8).take k).foldl (fun n i => if f i then n + 1 <<< i.val else n) 0

theorem firstBits_succ (f : Fin 8 → Bool) {k : Nat} (inside : k < 8) :
    firstBits f (k + 1) = if f ⟨k, inside⟩ then firstBits f k + 1 <<< k else firstBits f k := by
  have here : (List.finRange 8)[k]? = some ⟨k, inside⟩ := by simp [inside]
  rw [firstBits, List.take_add_one, here, Option.toList_some, List.foldl_append]
  rfl

theorem firstBits_spec (f : Fin 8 → Bool) {k : Nat} (few : k ≤ 8) :
    firstBits f k < 1 <<< k ∧ ∀ l : Fin 8, (firstBits f k).testBit l.val = (decide (l.val < k) && f l) := by
  induction k with
  | zero => exact ⟨Nat.zero_lt_one, by simp [firstBits]⟩
  | succ k ih =>
      obtain ⟨small, bits⟩ := ih (by omega)
      have double : 2 ^ (k + 1) = 2 ^ k + 2 ^ k := by rw [Nat.pow_succ, Nat.mul_two]
      rw [firstBits_succ f few]
      simp only [Nat.one_shiftLeft] at small ⊢
      split
      · rename_i set
        refine ⟨by omega, ?_⟩
        intro l
        rw [Nat.add_comm]
        rcases Nat.lt_trichotomy l.val k with before | last | after
        · rw [Nat.testBit_two_pow_add_gt before, bits]
          simp [before, Nat.lt_succ_of_lt before]
        · subst last
          rw [Nat.testBit_two_pow_add_eq, Nat.testBit_lt_two_pow small]
          simp [set]
        · have beyond := Nat.pow_le_pow_right (n := 2) (by decide) after
          rw [Nat.testBit_lt_two_pow (by omega)]
          simp [Nat.not_lt.mpr after]
      · rename_i clear
        refine ⟨by omega, ?_⟩
        intro l
        rw [bits]
        by_cases last : l.val = k
        · subst last
          simp [clear]
        · have same : l.val < k + 1 ↔ l.val < k := by omega
          simp [same]

theorem maskOf_toNat (f : Fin 8 → Bool) : (Processor.maskOf f).toNat = firstBits f 8 := by
  have bound := (firstBits_spec f (Nat.le_refl 8)).1
  rw [Processor.maskOf, UInt16.toNat_ofNat']
  exact Nat.mod_eq_of_lt (Nat.lt_trans bound (by decide))

theorem maskBit_maskOf (f : Fin 8 → Bool) (l : Fin 8) : maskBit (Processor.maskOf f) l = f l := by
  rw [maskBit, maskOf_toNat, (firstBits_spec f (Nat.le_refl 8)).2]
  simp

theorem maskOf_eq_zero (f : Fin 8 → Bool) : Processor.maskOf f = 0 ↔ ∀ l, f l = false := by
  constructor
  · intro zero l
    rw [← maskBit_maskOf f, zero]
    exact Nat.zero_testBit _
  · intro clear
    rw [show f = fun _ => false from funext clear]
    rfl

theorem maskBit_not (m : UInt16) (l : Fin 8) : maskBit (~~~m) l = !maskBit m l := by
  change (~~~m).toBitVec.getLsbD l.val = !m.toBitVec.getLsbD l.val
  have inside : l.val < 16 := by omega
  rw [UInt16.toBitVec_not, BitVec.getLsbD_not, decide_eq_true inside, Bool.true_and]

theorem maskBit_and (m n : UInt16) (l : Fin 8) : maskBit (m &&& n) l = (maskBit m l && maskBit n l) := by
  change (m &&& n).toBitVec.getLsbD l.val = _
  rw [UInt16.toBitVec_and, BitVec.getLsbD_and]
  rfl

end ProgramHash.Machine
