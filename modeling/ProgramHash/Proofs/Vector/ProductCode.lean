import ProgramHash.Proofs.Machine.Disassembly
import ProgramHash.Proofs.Vector.Blocks

-- The code of an upper product by itself: under any mask, and wherever its bytes stand
-- in an image, it leaves the upper half in the lanes that the mask selects, and none of
-- its sums is too large for a word.
namespace ProgramHash.VectorCode

open Machine

-- A sum that an operation forms in a lane fits in a word.
def KeepsCarry (w : Zmm → Word) : Operation → Prop
  | .lanes .add _ a (.register b) _ => (w a).toNat + (w b).toNat < 0x10000000000000000
  | _ => True

def AllKeepCarry (chosen : Bool) : List Operation → (Zmm → Word) → Prop
  | [], _ => True
  | op :: ops, w => KeepsCarry w op ∧ AllKeepCarry chosen ops (onLane chosen op w)

theorem allKeepCarry_append {chosen : Bool} {first second : List Operation} {w : Zmm → Word} :
    AllKeepCarry chosen (first ++ second) w ↔
      AllKeepCarry chosen first w ∧ AllKeepCarry chosen second (allOnLane chosen first w) := by
  induction first generalizing w with
  | nil => simp [AllKeepCarry, allOnLane]
  | cons op first ih =>
      simp only [List.cons_append, AllKeepCarry, ih, and_assoc]
      rfl

theorem keepsCarry_plain {w : Zmm → Word} {op : LaneOp} {dst a b : Zmm} :
    KeepsCarry w (plain op dst a b) ↔
      (op = .add → (w a).toNat + (w b).toNat < 0x10000000000000000) := by
  cases op <;> simp [KeepsCarry, plain]

theorem keepsCarry_shifted {w : Zmm → Word} {op : LaneShift} {dst src : Zmm} {amount : UInt8} :
    KeepsCarry w (shifted op dst src amount) := trivial

section Sums

theorem halves_keep_carry (a b : Word) :
    let low := crossed a b
    let left := crossed a (upperHalf b)
    let right := crossed (upperHalf a) b
    let high := crossed (upperHalf a) (upperHalf b)
    (upperHalf low).toNat + (left &&& 0xffffffff).toNat < 0x10000000000000000 ∧
      (upperHalf low + (left &&& 0xffffffff)).toNat + (right &&& 0xffffffff).toNat < 0x10000000000000000 ∧
      high.toNat + (upperHalf left).toNat < 0x10000000000000000 ∧
      (high + upperHalf left).toNat + (upperHalf right).toNat < 0x10000000000000000 ∧
      (high + upperHalf left + upperHalf right).toNat +
        (upperHalf (upperHalf low + (left &&& 0xffffffff) + (right &&& 0xffffffff))).toNat <
          0x10000000000000000 := by
  have small (x : Word) : x.toNat / 0x100000000 % 0x100000000 = x.toNat / 0x100000000 :=
    Nat.mod_eq_of_lt (by have := x.toNat_lt; omega)
  have p00 := halves_bound a.toNat b.toNat
  have p01 := halves_bound a.toNat (b.toNat / 0x100000000)
  have p10 := halves_bound (a.toNat / 0x100000000) b.toNat
  have p11 := halves_bound (a.toNat / 0x100000000) (b.toNat / 0x100000000)
  simp only [small] at p01 p10 p11
  simp only [UInt64.toNat_add, toNat_upperHalf, toNat_crossed, toNat_lowerHalf, small]
  generalize a.toNat % 0x100000000 * (b.toNat % 0x100000000) = x00 at *
  generalize a.toNat % 0x100000000 * (b.toNat / 0x100000000) = x01 at *
  generalize a.toNat / 0x100000000 * (b.toNat % 0x100000000) = x10 at *
  generalize a.toNat / 0x100000000 * (b.toNat / 0x100000000) = x11 at *
  omega

variable {chosen : Bool} {w : Zmm → Word}

theorem unsignedProduct_keeps_carry {a b : Zmm} (left : a ∉ scratches) (right : b ∉ scratches)
    (halves : w lowerHalves = 0xffffffff) : AllKeepCarry chosen (unsignedProduct a b) w := by
  simp only [scratches, List.mem_cons, List.not_mem_nil, or_false, not_or] at left right
  have halves : w 14 = 0xffffffff := halves
  have sums := halves_keep_carry (w a) (w b)
  simp [AllKeepCarry, unsignedProduct, keepsCarry_plain, keepsCarry_shifted, onLane_plain,
    onLane_shifted, left, right, halves, lowerHalves]
  exact sums

theorem signCorrection_keeps_carry (a b : Zmm) : AllKeepCarry chosen (signCorrection a b) w := by
  simp [AllKeepCarry, signCorrection, keepsCarry_plain, keepsCarry_shifted]

theorem upperProduct_keeps_carry {a b : Zmm} (left : a ∉ scratches) (right : b ∉ scratches)
    (halves : w lowerHalves = 0xffffffff) (signed : Bool) (mask : Option Opmask) :
    AllKeepCarry chosen (upperProduct a b signed mask) w := by
  rw [upperProduct, allKeepCarry_append, allKeepCarry_append]
  refine ⟨⟨unsignedProduct_keeps_carry left right halves, ?_⟩, trivial, trivial, trivial⟩
  cases signed with
  | false => exact trivial
  | true =>
      rw [if_pos rfl, allKeepCarry_append]
      exact ⟨signCorrection_keeps_carry a b, signCorrection_keeps_carry b a⟩

end Sums

section Code

def StandsAt (image : Array UInt8) (position : Nat) (bytes : List UInt8) : Prop :=
  ∀ j < bytes.length, image[position + j]? = bytes[j]?

theorem StandsAt.append {image : Array UInt8} {position : Nat} {first second : List UInt8}
    (stands : StandsAt image position (first ++ second)) :
    StandsAt image position first ∧ StandsAt image (position + first.length) second := by
  constructor
  · intro j inside
    rw [stands j (by rw [List.length_append]; omega), List.getElem?_append_left inside]
  · intro j inside
    rw [Nat.add_assoc, stands (first.length + j) (by rw [List.length_append]; omega),
      List.getElem?_append_right (Nat.le_add_right _ _), Nat.add_sub_cancel_left]

def CarriesKept (image : Array UInt8) (p : Processor) : Prop :=
  ∀ op next, Processor.fetch? image p.position = some (op, next) → ∀ l, KeepsCarry (lane p l) op

theorem selected_still {p q : Processor} (still : Still p q) (mask : Option Opmask) (l : Fin 8) :
    q.selected mask l = p.selected mask l := by
  cases mask with
  | none => rfl
  | some k => rw [Processor.selected, Processor.selected, still.masks]

theorem operations_run {image : Array UInt8} {p : Processor} {mask : Option Opmask}
    (named : mask ≠ some 0) {ops : List Operation} (between : ∀ op ∈ ops, BetweenUnder mask op)
    (stands : StandsAt image p.position (encodeAll ops))
    (keep : ∀ l, AllKeepCarry (p.selected mask l) ops (lane p l)) :
    ∃ q, Processor.Runs image (CarriesKept image) ops.length p q ∧
      q.position = p.position + (encodeAll ops).length ∧ Still p q ∧
      ∀ l, lane q l = allOnLane (p.selected mask l) ops (lane p l) := by
  induction ops generalizing p with
  | nil => exact ⟨p, .refl, rfl, .refl p, fun _ => rfl⟩
  | cons op ops ih =>
      obtain ⟨admitted, other, _⟩ := fits_of_under named (between op List.mem_cons_self)
      obtain ⟨here, behind⟩ := StandsAt.append stands
      have fetched := Processor.fetch_held admitted here
      obtain ⟨m, does, moved, still, result⟩ :=
        @operation_does_under image 0 p mask op (between op List.mem_cons_self)
      have kept : CarriesKept image p := by
        intro again next there l
        rw [fetched, Option.some.injEq, Prod.mk.injEq] at there
        rw [← there.1]
        exact (keep l).1
      rw [← moved] at behind
      obtain ⟨q, runs, last, later, results⟩ := @ih m
        (fun other member => between other (List.mem_cons_of_mem _ member)) behind
        (fun l => by rw [selected_still still, result]; exact (keep l).2)
      refine ⟨q, .step kept (Processor.step_fetched other fetched does) runs, ?_, still.trans later, ?_⟩
      · rw [last, moved, encodeAll_cons, List.length_append, Nat.add_assoc]
      · intro l
        rw [results, result, selected_still still]
        rfl

theorem emitAll_eq (a : Assembly) (ops : List Operation) : a.emitAll ops = a.emit (encodeAll ops) := by
  have joined (a : Assembly) (first second : List UInt8) :
      (a.emit first).emit second = a.emit (first ++ second) := by
    simp [Assembly.emit, Assembly.append_list, Array.append_assoc]
  induction ops generalizing a with
  | nil => simp [Assembly.emitAll, Assembly.emit, Assembly.append_list, encodeAll]
  | cons op ops ih =>
      have rest := ih (a.emit op.encode)
      rw [joined] at rest
      exact rest

theorem exists_mask_of_code (mask : Option Opmask) : ∃ own : Option Opmask, own ≠ some 0 ∧
    (∀ (p : Processor) l, p.selected own l = p.selected mask l) ∧
    ∀ a b signed,
      encodeAll (upperProduct a b signed own) = encodeAll (upperProduct a b signed mask) ∧
      (upperProduct a b signed own).length = (upperProduct a b signed mask).length := by
  by_cases named : mask = some 0
  · subst named
    refine ⟨none, nofun, fun p l => rfl, fun a b signed => ?_⟩
    cases signed <;> exact ⟨rfl, rfl⟩
  · exact ⟨mask, named, fun _ _ => rfl, fun _ _ _ => ⟨rfl, rfl⟩⟩

theorem upperProduct_run {image : Array UInt8} {p : Processor} {d s : Register} {signed : Bool}
    {mask : Option Opmask}
    (stands : StandsAt image p.position (encodeAll (upperProduct (home d) (home s) signed mask)))
    (halves : ∀ l, lane p l lowerHalves = 0xffffffff) :
    ∃ q, Processor.Runs image (CarriesKept image)
        (upperProduct (home d) (home s) signed mask).length p q ∧
      q.position = p.position + (encodeAll (upperProduct (home d) (home s) signed mask)).length ∧
      Still p q ∧ ∀ l r, r ∉ scratches → lane q l r =
        if (r = home d ∨ r = product) ∧ p.selected mask l = true then
          upper signed (lane p l (home d)) (lane p l (home s))
        else lane p l r := by
  have left := (home_not_scratch d).1
  have right := (home_not_scratch s).1
  obtain ⟨own, named, selects, same⟩ := exists_mask_of_code mask
  obtain ⟨written, long⟩ := same (home d) (home s) signed
  rw [← written] at stands ⊢
  rw [← long]
  obtain ⟨q, runs, last, still, result⟩ := operations_run named
    (upperProduct_between (home d) (home s) signed (.inr rfl)) stands
    fun l => upperProduct_keeps_carry left right (halves l) signed own
  refine ⟨q, runs, last, still, fun l r other => ?_⟩
  have chosen : (own.isNone || p.selected own l) = p.selected own l := by cases own <;> rfl
  rw [result, upper_on_lane left right (halves l) signed own r other, chosen, selects]

end Code

-- The code of an upper product, from wherever its bytes stand and with zmm14 as the
-- prologue leaves it: in every lane that the mask selects both the destination and zmm8
-- come to hold the exact upper half, also when both factors are one register; in the
-- other lanes they are as they were, as is every register but the scratches in every
-- lane. No sum on the way loses a carry.
theorem upper_products_exact (d s : Register) (signed : Bool) (mask : Option Opmask) :
    (∀ a, emitInstruction a (if signed then .smulh d s else .umulh d s) mask =
      a.emit (encodeAll (upperProduct (home d) (home s) signed mask))) ∧
    ∀ image p, StandsAt image p.position (encodeAll (upperProduct (home d) (home s) signed mask)) →
      (∀ l, lane p l lowerHalves = 0xffffffff) →
      ∃ q, Processor.Runs image (CarriesKept image)
          (upperProduct (home d) (home s) signed mask).length p q ∧
        q.position = p.position + (encodeAll (upperProduct (home d) (home s) signed mask)).length ∧
        Still p q ∧
        ∀ l, (∀ r, r = home d ∨ r = product → lane q l r =
            if p.selected mask l = true then
              if signed then Word.signedHighProduct (lane p l (home d)) (lane p l (home s))
              else Word.highProduct (lane p l (home d)) (lane p l (home s))
            else lane p l r) ∧
          ∀ r, r ∉ scratches → r ≠ home d → r ≠ product → lane q l r = lane p l r := by
  refine ⟨fun a => ?_, fun image p stands halves => ?_⟩
  · cases signed <;> exact emitAll_eq _ _
  · obtain ⟨q, runs, last, still, result⟩ := upperProduct_run stands halves
    refine ⟨q, runs, last, still, fun l => ⟨fun r written => ?_, fun r other apart apart' => ?_⟩⟩
    · have outside : r ∉ scratches := by
        rcases written with rfl | rfl
        · exact (home_not_scratch d).1
        · decide
      rw [result l r outside]
      simp only [written, true_and, upper]
    · rw [result l r other, if_neg]
      rintro ⟨rfl | rfl, _⟩
      · exact apart rfl
      · exact apart' rfl

def squaring : Processor :=
  { Processor.enter #[] with
    zmms := ((Bank.filled (.filled 0)).set lowerHalves (.filled 0xffffffff)).set 0
      (.filled 0x8000000000000000)
    masks := (Bank.filled 0).set taking 1 }

def squaringCode : List UInt8 := encodeAll (upperProduct (home 0) (home 0) true (some taking))

theorem square_exact_in_its_lane :
    StandsAt squaringCode.toArray squaring.position squaringCode ∧
      (∀ l, lane squaring l lowerHalves = 0xffffffff) ∧
      ∃ q, Processor.Runs squaringCode.toArray (CarriesKept squaringCode.toArray) 25 squaring q ∧
        lane q 0 (home 0) = 0x4000000000000000 ∧ lane q 0 product = 0x4000000000000000 ∧
        lane q 1 (home 0) = 0x8000000000000000 ∧ lane q 1 product = 0 ∧
        lane q 0 lowerHalves = 0xffffffff := by
  have stands : StandsAt squaringCode.toArray squaring.position squaringCode := by
    intro j _
    rw [show squaring.position = 0 from rfl, Nat.zero_add, List.getElem?_toArray]
  have halves : ∀ l, lane squaring l lowerHalves = 0xffffffff := by decide
  obtain ⟨q, runs, _, _, result⟩ :=
    (upper_products_exact 0 0 true (some taking)).2 _ squaring stands halves
  obtain ⟨written, others⟩ := result 0
  obtain ⟨kept, _⟩ := result 1
  refine ⟨stands, halves, q, runs, ?_, ?_, ?_, ?_, ?_⟩
  · exact (written _ (.inl rfl)).trans (by decide)
  · exact (written _ (.inr rfl)).trans (by decide)
  · exact (kept _ (.inl rfl)).trans (by decide)
  · exact (kept _ (.inr rfl)).trans (by decide)
  · exact (others _ (by decide) (by decide) (by decide)).trans (by decide)

end ProgramHash.VectorCode
