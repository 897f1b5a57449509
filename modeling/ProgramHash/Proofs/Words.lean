import ProgramHash.Word

-- The bits of a word: where a rotation takes them, and which of them change when the
-- word grows by a power of two or has one bit flipped.
namespace ProgramHash.Word

def bit (w : Word) (j : Nat) : Bool := w.toBitVec.getLsbD j

theorem eq_iff_bits {v w : Word} : v = w ↔ ∀ j < 64, v.bit j = w.bit j := by
  constructor
  · rintro rfl j _
    rfl
  · intro same
    exact UInt64.toBitVec_inj.mp (BitVec.eq_of_getLsbD_eq same)

theorem bit_xor (v w : Word) (j : Nat) : bit (v ^^^ w) j = (v.bit j ^^ w.bit j) :=
  BitVec.getLsbD_xor

theorem bit_not (w : Word) {j : Nat} (below : j < 64) : bit (~~~w) j = !w.bit j := by
  simp [bit, below]

section Rotation

variable {amount : Word} (moves : 0 < amount.toNat) (inside : amount.toNat < 64)
include moves inside

theorem toBitVec_rotateLeft (w : Word) :
    (rotateLeft w amount).toBitVec = w.toBitVec.rotateLeft amount.toNat := by
  have back : (18446744073709551616 - amount.toNat) % 64 = 64 - amount.toNat := by omega
  simp [rotateLeft, BitVec.rotateLeft_def, back, Nat.mod_eq_of_lt inside]

theorem bit_rotateLeft (w : Word) {j : Nat} (below : j < 64) :
    (rotateLeft w amount).bit j = w.bit ((j + (64 - amount.toNat)) % 64) := by
  rw [bit, toBitVec_rotateLeft moves inside, BitVec.getLsbD_rotateLeft, Nat.mod_eq_of_lt inside]
  by_cases wraps : j < amount.toNat
  · have source : (j + (64 - amount.toNat)) % 64 = 64 - amount.toNat + j := by omega
    simp [wraps, bit, source]
  · have source : (j + (64 - amount.toNat)) % 64 = j - amount.toNat := by omega
    simp [wraps, below, bit, source]

theorem rotateLeft_inj {v w : Word} : rotateLeft v amount = rotateLeft w amount ↔ v = w := by
  refine ⟨fun same => eq_iff_bits.mpr fun j below => ?_, fun same => by rw [same]⟩
  have image : (j + amount.toNat) % 64 < 64 := Nat.mod_lt _ (by decide)
  have source : ((j + amount.toNat) % 64 + (64 - amount.toNat)) % 64 = j := by omega
  have read := eq_iff_bits.mp same _ image
  rwa [bit_rotateLeft moves inside v image, bit_rotateLeft moves inside w image, source] at read

theorem bit_rotateRight (w : Word) {j : Nat} (below : j < 64) :
    (rotateRight w amount).bit j = w.bit ((j + amount.toNat) % 64) := by
  have back : (64 - amount).toNat = 64 - amount.toNat :=
    UInt64.toNat_sub_of_le _ _ (UInt64.le_iff_toNat_le.mpr (Nat.le_of_lt inside))
  have turned : rotateRight w amount = rotateLeft w (64 - amount) := by
    have left : 64 - (64 - amount) = amount := by
      rw [UInt64.sub_eq_iff_eq_add, UInt64.add_comm, UInt64.sub_add_cancel]
    rw [rotateRight, rotateLeft, left, UInt64.or_comm]
  rw [turned, bit_rotateLeft (by omega) (by omega) w below, back,
    show 64 - (64 - amount.toNat) = amount.toNat by omega]

theorem rotateRight_rotateLeft (w : Word) : rotateRight (rotateLeft w amount) amount = w := by
  refine eq_iff_bits.mpr fun j below => ?_
  rw [bit_rotateRight moves inside _ below, bit_rotateLeft moves inside w (Nat.mod_lt _ (by decide)),
    show ((j + amount.toNat) % 64 + (64 - amount.toNat)) % 64 = j by omega]

theorem rotateLeft_rotateRight (w : Word) : rotateLeft (rotateRight w amount) amount = w := by
  refine eq_iff_bits.mpr fun j below => ?_
  rw [bit_rotateLeft moves inside _ below, bit_rotateRight moves inside w (Nat.mod_lt _ (by decide)),
    show ((j + (64 - amount.toNat)) % 64 + amount.toNat) % 64 = j by omega]

end Rotation

def place (i : Fin 64) : Word := 1 <<< UInt64.ofNat i.val

theorem toBitVec_place (i : Fin 64) : (place i).toBitVec = BitVec.twoPow 64 i.val := by
  simp [place, BitVec.twoPow, Nat.mod_eq_of_lt i.isLt]

theorem bit_place (i : Fin 64) (j : Nat) : (place i).bit j = decide (j = i.val) := by
  rw [bit, toBitVec_place, BitVec.getLsbD_twoPow]
  simp [eq_comm]

-- The carry that the sum of a word and a power of two brings to a bit.
def carry (a : Word) (i : Fin 64) (j : Nat) : Bool :=
  BitVec.carry j a.toBitVec (place i).toBitVec false

theorem bit_add_place (a : Word) (i : Fin 64) {j : Nat} (below : j < 64) :
    (a + place i).bit j = (a.bit j ^^ (decide (j = i.val) ^^ carry a i j)) := by
  rw [← bit_place]
  exact BitVec.getLsbD_add below _ _

theorem carry_succ (a : Word) (i : Fin 64) (j : Nat) :
    carry a i (j + 1) = Bool.atLeastTwo (a.bit j) (decide (j = i.val)) (carry a i j) := by
  rw [← bit_place]
  exact BitVec.carry_succ j _ _ _

theorem carry_before (a : Word) (i : Fin 64) {j : Nat} (early : j ≤ i.val) : carry a i j = false := by
  induction j with
  | zero => exact BitVec.carry_zero
  | succ j ih =>
      have apart : j ≠ i.val := by omega
      simp [carry_succ, ih (by omega), apart]

def Turns (a : Word) (i : Fin 64) (j : Nat) : Prop := (a + place i).bit j ≠ a.bit j

theorem turns_iff (a : Word) (i : Fin 64) {j : Nat} (below : j < 64) :
    Turns a i j ↔ decide (j = i.val) ≠ carry a i j := by
  rw [Turns, bit_add_place a i below]
  cases a.bit j <;> cases decide (j = i.val) <;> cases carry a i j <;> decide

theorem turns_here (a : Word) (i : Fin 64) : Turns a i i.val := by
  simp [turns_iff a i i.isLt, carry_before a i (Nat.le_refl _)]

theorem turns_place_le {a : Word} {i : Fin 64} {j : Nat} (below : j < 64) (turns : Turns a i j) :
    i.val ≤ j := by
  refine Nat.le_of_not_lt fun early => (turns_iff a i below).mp turns ?_
  rw [carry_before a i (Nat.le_of_lt early), decide_eq_false (Nat.ne_of_lt early)]

-- What turns is a run without gaps, since a carry dies at the first bit that is not set.
theorem turns_pred {a : Word} {i : Fin 64} {j : Nat} (past : i.val ≤ j) (below : j + 1 < 64)
    (turns : Turns a i (j + 1)) : Turns a i j := by
  have carried : carry a i (j + 1) = true := by
    have apart : j + 1 ≠ i.val := by omega
    simpa [turns_iff a i below, apart] using turns
  rcases Nat.eq_or_lt_of_le past with rfl | later
  · exact turns_here a i
  · have apart : j ≠ i.val := Nat.ne_of_gt later
    rw [carry_succ] at carried
    have arrived : carry a i j = true := by
      revert carried
      simp only [apart, decide_false]
      cases a.bit j <;> cases carry a i j <;> decide
    simp [turns_iff a i (Nat.lt_of_succ_lt below), apart, arrived]

theorem turns_between {a : Word} {i : Fin 64} {j k : Nat} (past : i.val ≤ k) (early : k ≤ j)
    (below : j < 64) (turns : Turns a i j) : Turns a i k := by
  induction j with
  | zero => rwa [Nat.le_zero.mp early]
  | succ j ih =>
      rcases Nat.le_succ_iff.mp early with earlier | rfl
      · exact ih earlier (by omega) (turns_pred (Nat.le_trans past earlier) below turns)
      · exact turns

structure Run (i : Nat) (turned : Nat → Prop) : Prop where
  starts : turned i
  later : ∀ {j}, j < 64 → turned j → i ≤ j
  unbroken : ∀ {j k}, i ≤ k → k ≤ j → j < 64 → turned j → turned k

theorem turns_run (a : Word) (i : Fin 64) : Run i.val (Turns a i) :=
  ⟨turns_here a i, turns_place_le, turns_between⟩

def Polar (w : Word) : Prop := w = 0 ∨ w = 0x8000000000000000

instance (w : Word) : Decidable (Polar w) := inferInstanceAs (Decidable (_ ∨ _))

theorem polar_iff (w : Word) : Polar w ↔ w + w = 0 := by
  have inside := w.toNat_lt
  simp only [Polar, ← UInt64.toNat_inj, UInt64.toNat_add]
  simp
  omega

theorem polar_add {v w : Word} (polar : Polar w) : Polar (v + w) ↔ Polar v := by
  rw [polar_iff] at polar ⊢
  rw [polar_iff, show v + w + (v + w) = v + v + (w + w) by ac_rfl, polar, UInt64.add_zero]

theorem turns_all_iff (a : Word) : (∀ j < 64, Turns a 0 j) ↔ Polar (a + 1) := by
  have inverted : (∀ j < 64, Turns a 0 j) ↔ a + 1 = ~~~a := by
    rw [eq_iff_bits]
    refine forall₂_congr fun j below => ?_
    rw [bit_not a below]
    exact Bool.eq_not.symm
  have inside := a.toNat_lt
  rw [inverted]
  simp only [Polar, ← UInt64.toNat_inj, UInt64.toNat_add, UInt64.toNat_not, UInt64.size,
    UInt64.toNat_ofNat]
  omega

def flip (w : Word) (i : Fin 64) : Word := w ^^^ place i

theorem bit_flip (w : Word) (i : Fin 64) (j : Nat) :
    (w.flip i).bit j = (w.bit j ^^ decide (j = i.val)) := by
  rw [flip, bit_xor, bit_place]

theorem flip_flip (w : Word) (i : Fin 64) : (w.flip i).flip i = w := by
  rw [flip, flip, UInt64.xor_assoc, UInt64.xor_self, UInt64.xor_zero]

theorem bit_or_place (w : Word) (i : Fin 64) (j : Nat) :
    (w ||| place i).bit j = (w.bit j || decide (j = i.val)) := by
  rw [← bit_place]
  exact BitVec.getLsbD_or

theorem or_place_set {w : Word} {i : Fin 64} (set : w.bit i.val = true) : w ||| place i = w := by
  refine eq_iff_bits.mpr fun j _ => ?_
  rw [bit_or_place]
  by_cases here : j = i.val
  · simp [here, set]
  · simp [here]

theorem or_place_clear {w : Word} {i : Fin 64} (clear : w.bit i.val = false) :
    w ||| place i = w.flip i := by
  refine eq_iff_bits.mpr fun j _ => ?_
  rw [bit_or_place, bit_flip]
  by_cases here : j = i.val
  · simp [here, clear]
  · simp [here]

theorem add_place_clear {w : Word} {i : Fin 64} (clear : w.bit i.val = false) :
    w + place i = w ||| place i := by
  refine UInt64.toBitVec_inj.mp (BitVec.add_eq_or_of_and_eq_zero _ _ ?_)
  refine BitVec.eq_of_getLsbD_eq fun j _ => ?_
  rw [BitVec.getLsbD_and, BitVec.getLsbD_zero]
  change (w.bit j && (place i).bit j) = false
  rw [bit_place]
  by_cases here : j = i.val
  · simp [here, clear]
  · simp [here]

-- A word and its flip are a power of two apart, and the larger is the one with the bit.
theorem flip_apart (w : Word) (i : Fin 64) : ∃ low : Word, low + place i = w ||| place i ∧
    ((w = low ∧ w.flip i = low + place i) ∨ (w.flip i = low ∧ w = low + place i)) := by
  cases held : w.bit i.val with
  | false =>
      exact ⟨w, add_place_clear held, .inl ⟨rfl, by rw [add_place_clear held, or_place_clear held]⟩⟩
  | true =>
      have clear : (w.flip i).bit i.val = false := by simp [bit_flip, held]
      have back : w.flip i + place i = w := by
        rw [add_place_clear clear, or_place_clear clear, flip_flip]
      exact ⟨w.flip i, by rw [back, or_place_set held], .inr ⟨rfl, back.symm⟩⟩

end ProgramHash.Word
