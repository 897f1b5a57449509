import ProgramHash.Proofs.Vector.Lanes

namespace ProgramHash.VectorCode

open Machine

-- The upper half of a product, as it is put together from products of halves.
section Halves

def upperHalf (x : Word) : Word := LaneShift.right.apply x 32

def crossed (x y : Word) : Word := LaneOp.halfProduct.apply x y

def fromHalves (a b : Word) : Word :=
  let low := crossed a b
  let left := crossed a (upperHalf b)
  let right := crossed (upperHalf a) b
  crossed (upperHalf a) (upperHalf b) + upperHalf left + upperHalf right +
    upperHalf (upperHalf low + (left &&& 0xffffffff) + (right &&& 0xffffffff))

@[simp] theorem toNat_upperHalf (x : Word) : (upperHalf x).toNat = x.toNat / 0x100000000 := by
  change (x >>> 32).toNat = _
  rw [UInt64.toNat_shiftRight, Nat.shiftRight_eq_div_pow]
  rfl

@[simp] theorem toNat_lowerHalf (x : Word) : (x &&& 0xffffffff).toNat = x.toNat % 0x100000000 := by
  rw [UInt64.toNat_and]
  exact Nat.and_two_pow_sub_one_eq_mod x.toNat 32

theorem halves_bound (m n : Nat) :
    m % 0x100000000 * (n % 0x100000000) ≤ (0x100000000 - 1) * (0x100000000 - 1) :=
  Nat.mul_le_mul (by omega) (by omega)

@[simp] theorem toNat_crossed (x y : Word) :
    (crossed x y).toNat = x.toNat % 0x100000000 * (y.toNat % 0x100000000) := by
  have bound := halves_bound x.toNat y.toNat
  change (x.toUInt32.toUInt64 * y.toUInt32.toUInt64).toNat = _
  rw [UInt64.toNat_mul, Nat.mod_eq_of_lt]
  · simp
  · simp only [UInt32.toNat_toUInt64, UInt64.toNat_toUInt32]
    exact Nat.lt_of_le_of_lt bound (by decide)

theorem product_split (m n : Nat) :
    m * n = 0x10000000000000000 * (m / 0x100000000 * (n / 0x100000000)) +
      0x100000000 * (m % 0x100000000 * (n / 0x100000000) + m / 0x100000000 * (n % 0x100000000)) +
        m % 0x100000000 * (n % 0x100000000) := by
  have first := Nat.div_add_mod m 0x100000000
  have second := Nat.div_add_mod n 0x100000000
  generalize m / 0x100000000 = m1 at *
  generalize m % 0x100000000 = m0 at *
  generalize n / 0x100000000 = n1 at *
  generalize n % 0x100000000 = n0 at *
  subst first
  subst second
  grind

theorem fromHalves_exact (a b : Word) : fromHalves a b = Word.highProduct a b := by
  have small (x : Word) : x.toNat / 0x100000000 % 0x100000000 = x.toNat / 0x100000000 :=
    Nat.mod_eq_of_lt (by have := x.toNat_lt; omega)
  have whole := product_split a.toNat b.toNat
  have p00 := halves_bound a.toNat b.toNat
  have p01 := halves_bound a.toNat (b.toNat / 0x100000000)
  have p10 := halves_bound (a.toNat / 0x100000000) b.toNat
  have p11 := halves_bound (a.toNat / 0x100000000) (b.toNat / 0x100000000)
  simp only [small] at p01 p10 p11
  apply UInt64.toNat_inj.mp
  simp only [fromHalves, Word.highProduct, UInt64.toNat_add, toNat_upperHalf, toNat_crossed,
    toNat_lowerHalf, UInt64.toNat_ofNat', small]
  rw [whole]
  generalize a.toNat % 0x100000000 * (b.toNat % 0x100000000) = x00 at *
  generalize a.toNat % 0x100000000 * (b.toNat / 0x100000000) = x01 at *
  generalize a.toNat / 0x100000000 * (b.toNat % 0x100000000) = x10 at *
  generalize a.toNat / 0x100000000 * (b.toNat / 0x100000000) = x11 at *
  omega

end Halves

section Signs

def signMask (x : Word) : Word := LaneShift.signedRight.apply x 63

theorem signed_value (x : Word) :
    x.toInt64.toInt = x.toNat - (if 0x8000000000000000 ≤ x.toNat then 0x10000000000000000 else 0 : Int) := by
  change x.toBitVec.toInt = _
  rw [BitVec.toInt_eq_toNat_cond]
  change (if 2 * x.toNat < 0x10000000000000000 then (x.toNat : Int) else (x.toNat : Int) - (0x10000000000000000 : Nat)) = _
  split <;> split <;> omega

theorem signMask_and (x y : Word) : signMask x &&& y = if 0x8000000000000000 ≤ x.toNat then y else 0 := by
  have mask : signMask x = if 0x8000000000000000 ≤ x.toNat then -1 else 0 := by
    apply UInt64.toBitVec_inj.mp
    change (x.toInt64 >>> 63).toBitVec = _
    rw [Int64.toBitVec_shiftRight]
    change x.toBitVec.sshiftRight 63 = _
    apply BitVec.eq_of_toInt_eq
    rw [BitVec.toInt_sshiftRight, Int.shiftRight_eq_div_pow]
    change x.toInt64.toInt / _ = _
    rw [signed_value]
    have bound := x.toNat_lt
    split
    · change _ = (-1 : Int)
      omega
    · change _ = (0 : Int)
      omega
  rw [mask]
  split
  · exact UInt64.neg_one_and
  · exact UInt64.zero_and

theorem ofInt_natCast (n : Nat) : UInt64.ofInt n = UInt64.ofNat n := by
  apply UInt64.toNat_inj.mp
  unfold UInt64.ofInt
  rw [UInt64.toNat_ofNat', UInt64.toNat_ofNat']
  omega

-- A negative factor is read as too large by 2⁶⁴, which puts the other factor into
-- the upper half once too often.
theorem corrected_exact (a b : Word) :
    Word.highProduct a b - (signMask a &&& b) - (signMask b &&& a) = Word.signedHighProduct a b := by
  have high : Word.highProduct a b = UInt64.ofInt ((a.toNat : Int) * b.toNat / 0x10000000000000000) :=
    (ofInt_natCast _).symm
  have same (x : Word) : UInt64.ofInt x.toNat = x := by
    rw [ofInt_natCast]
    exact UInt64.ofNat_toNat
  have taken (x y : Int) : (x + y * 0x10000000000000000) / 0x10000000000000000 = x / 0x10000000000000000 + y :=
    Int.add_mul_ediv_right x y (by decide)
  have whole : UInt64.ofInt 0x10000000000000000 = 0 := rfl
  rw [high, signMask_and, signMask_and, Word.signedHighProduct, signed_value, signed_value]
  split <;> split
  · have product : ((a.toNat : Int) - 0x10000000000000000) * (b.toNat - 0x10000000000000000) =
        a.toNat * b.toNat + (0x10000000000000000 + -(b.toNat : Int) + -(a.toNat : Int)) * 0x10000000000000000 := by grind
    rw [product, taken, UInt64.ofInt_add, UInt64.ofInt_add, UInt64.ofInt_add, UInt64.ofInt_neg,
      UInt64.ofInt_neg, same, same, whole]
    grind
  · have product : ((a.toNat : Int) - 0x10000000000000000) * (b.toNat - 0) =
        a.toNat * b.toNat + -(b.toNat : Int) * 0x10000000000000000 := by grind
    rw [product, taken, UInt64.ofInt_add, UInt64.ofInt_neg, same]
    grind
  · have product : ((a.toNat : Int) - 0) * (b.toNat - 0x10000000000000000) =
        a.toNat * b.toNat + -(a.toNat : Int) * 0x10000000000000000 := by grind
    rw [product, taken, UInt64.ofInt_add, UInt64.ofInt_neg, same]
    grind
  · rw [Int.sub_zero, Int.sub_zero]
    grind

end Signs

section OnLane

variable {chosen : Bool} {w : Zmm → Word}

theorem onLane_plain (op : LaneOp) (dst a b r : Zmm) :
    onLane chosen (plain op dst a b) w r = if r = dst then op.apply (w a) (w b) else w r := by
  simp [onLane, plain, assign]

theorem onLane_shifted (op : LaneShift) (dst src r : Zmm) (amount : UInt8) :
    onLane chosen (shifted op dst src amount) w r = if r = dst then op.apply (w src) amount else w r := by
  simp [onLane, shifted, assign]

def scratches : List Zmm := [9, 10, 11, 12, 13]

theorem unsigned_on_lane {a b : Zmm} (left : a ∉ scratches) (right : b ∉ scratches)
    (halves : w lowerHalves = 0xffffffff) :
    allOnLane chosen (unsignedProduct a b) w 10 = Word.highProduct (w a) (w b) ∧
      ∀ r, r ∉ scratches → allOnLane chosen (unsignedProduct a b) w r = w r := by
  simp only [scratches, List.mem_cons, List.not_mem_nil, or_false, not_or] at left right ⊢
  constructor
  · have halves : w 14 = 0xffffffff := halves
    rw [← fromHalves_exact]
    simp [allOnLane, unsignedProduct, onLane_plain, onLane_shifted, left, right, halves, lowerHalves]
    rfl
  · intro r other
    simp [allOnLane, unsignedProduct, onLane_plain, onLane_shifted, other]

theorem correction_on_lane {a b : Zmm} (right : b ∉ scratches) :
    allOnLane chosen (signCorrection a b) w 10 = w 10 - (signMask (w a) &&& w b) ∧
      ∀ r, r ∉ scratches → allOnLane chosen (signCorrection a b) w r = w r := by
  simp only [scratches, List.mem_cons, List.not_mem_nil, or_false, not_or] at right ⊢
  constructor
  · simp [allOnLane, signCorrection, onLane_plain, onLane_shifted, right]
    rfl
  · intro r other
    simp [allOnLane, signCorrection, onLane_plain, onLane_shifted, other]

theorem allOnLane_nil : allOnLane chosen [] w = w := rfl

theorem allOnLane_append (first second : List Operation) :
    allOnLane chosen (first ++ second) w = allOnLane chosen second (allOnLane chosen first w) :=
  List.foldl_append

def upper (signed : Bool) (x y : Word) : Word :=
  if signed then Word.signedHighProduct x y else Word.highProduct x y

theorem upper_on_lane {a b : Zmm} (left : a ∉ scratches) (right : b ∉ scratches)
    (halves : w lowerHalves = 0xffffffff) (signed : Bool) (mask : Option Opmask) :
    ∀ r, r ∉ scratches → allOnLane chosen (upperProduct a b signed mask) w r =
      if (r = a ∨ r = product) ∧ (mask.isNone || chosen) = true then upper signed (w a) (w b)
      else w r := by
  obtain ⟨value, kept⟩ := @unsigned_on_lane chosen w a b left right halves
  have tenth : (10 : Zmm) ∈ scratches := by decide
  have corrected : ∃ w', allOnLane chosen (unsignedProduct a b ++
      (if signed then signCorrection a b ++ signCorrection b a else [])) w = w' ∧
      w' 10 = upper signed (w a) (w b) ∧ ∀ r, r ∉ scratches → w' r = w r := by
    refine ⟨_, rfl, ?_⟩
    rw [allOnLane_append]
    cases signed with
    | false =>
        rw [if_neg Bool.false_ne_true, allOnLane_nil]
        exact ⟨value, kept⟩
    | true =>
        generalize allOnLane chosen (unsignedProduct a b) w = u at *
        obtain ⟨first, kept'⟩ := @correction_on_lane chosen u a b right
        rw [if_pos rfl, allOnLane_append]
        generalize allOnLane chosen (signCorrection a b) u = u' at *
        obtain ⟨second, kept''⟩ := @correction_on_lane chosen u' b a left
        constructor
        · rw [second, first, value, kept' a left, kept' b right, kept a left, kept b right,
            corrected_exact, upper, if_pos rfl]
        · intro r other
          rw [kept'' r other, kept' r other, kept r other]
  obtain ⟨w', whole, ten, others⟩ := corrected
  intro r other
  have apart : (10 : Zmm) ≠ a := by
    rintro rfl
    exact left tenth
  rw [upperProduct, allOnLane_append, whole]
  simp only [allOnLane, List.foldl_cons, List.foldl_nil, onLane, assign, apart, false_and, if_false,
    ten, others r other]
  by_cases written : (mask.isNone || chosen) = true
  · by_cases last : r = product <;> simp [last, written]
  · simp [written]

end OnLane

end ProgramHash.VectorCode
