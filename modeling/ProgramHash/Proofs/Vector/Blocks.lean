import ProgramHash.Proofs.Replay
import ProgramHash.Proofs.Vector.Product

namespace ProgramHash.VectorCode

open Machine

def binary (op : LaneOp) (d s : Register) (mask : Option Opmask) : Operation :=
  .lanes op (home d) (home d) (.register (home s)) mask

def withConstant (op : LaneOp) (d : Register) (mask : Option Opmask) : Operation :=
  .lanes op (home d) (home d) (.pool 0) mask

def shiftedSum (d s : Register) (shift : UInt8) (mask : Option Opmask) : List Operation :=
  [shifted .left 9 (home s) shift, .lanes .add (home d) (home d) (.register 9) mask]

def pieces (mask : Option Opmask) : Instruction → List Piece
  | .mul d s => [.plain (binary .lowProduct d s mask)]
  | .umulh d s => (upperProduct (home d) (home s) false mask).map .plain
  | .smulh d s => (upperProduct (home d) (home s) true mask).map .plain
  | .addShift d s shift => (shiftedSum d s shift mask).map .plain
  | .addConst d k => [.constant (withConstant .add d mask) (Word.signExtend k)]
  | .sub d s => [.plain (binary .sub d s mask)]
  | .xor d s => [.plain (binary .xor d s mask)]
  | .xorConst d k => [.constant (withConstant .xor d mask) (Word.signExtend k)]
  | .rotate d amount => [.plain (.shiftLanes .rotateRight (home d) (home d) amount mask)]
  | .target | .branch _ => []

theorem emitInstruction_pieces (a : Assembly) (i : Instruction) (mask : Option Opmask) :
    emitInstruction a i mask = a.putAll (pieces mask i) := by
  cases i with
  | umulh d s => rw [emitInstruction, Assembly.emitAll_pieces, pieces]
  | smulh d s => rw [emitInstruction, Assembly.emitAll_pieces, pieces]
  | _ => rfl

theorem upperProduct_between (a b : Zmm) (signed : Bool) {mask given : Option Opmask}
    (under : mask = none ∨ mask = given) : ∀ op ∈ upperProduct a b signed mask, BetweenUnder given op := by
  have plain (op : LaneOp) (dst x y : Zmm) : BetweenUnder given (plain op dst x y) := .inl rfl
  have shifted (op : LaneShift) (dst x : Zmm) (n : UInt8) : BetweenUnder given (shifted op dst x n) :=
    .inl rfl
  have moved (dst src : Zmm) : BetweenUnder given (.moveLanes dst (.register src) mask) := under
  cases signed <;> simp [upperProduct, unsignedProduct, signCorrection, plain, shifted, moved]

theorem shiftedSum_between (d s : Register) (shift : UInt8) {mask : Option Opmask}
    (masked : Masked mask) : ∀ op ∈ shiftedSum d s shift mask, BetweenRegisters op := by
  intro op member
  rcases List.mem_cons.mp member with rfl | member
  · exact .inl rfl
  · rw [List.mem_singleton.mp member]
    exact masked

theorem pieces_fit (i : Instruction) {mask : Option Opmask} (masked : Masked mask) :
    ∀ piece ∈ pieces mask i, piece.Fits := by
  have several (ops : List Operation) (between : ∀ op ∈ ops, BetweenRegisters op) :
      ∀ piece ∈ ops.map Piece.plain, piece.Fits := by
    intro piece member
    obtain ⟨op, inside, rfl⟩ := List.mem_map.mp member
    exact operation_fits op (between op inside)
  have single (op : Operation) (between : BetweenRegisters op) :
      ∀ piece ∈ [Piece.plain op], piece.Fits := by
    intro piece member
    rw [List.mem_singleton.mp member]
    exact operation_fits op between
  have constant (op : LaneOp) (d : Register) (k : Word) :
      ∀ piece ∈ [Piece.constant (withConstant op d mask) k], piece.Fits := by
    intro piece member
    rw [List.mem_singleton.mp member]
    exact ⟨⟨trivial, masked_ne_zero masked⟩, rfl, _, rfl⟩
  cases i with
  | umulh d s =>
      rw [pieces]
      exact several _ (upperProduct_between _ _ _ masked)
  | smulh d s =>
      rw [pieces]
      exact several _ (upperProduct_between _ _ _ masked)
  | addShift d s shift => exact several _ (shiftedSum_between d s shift masked)
  | addConst d k => exact constant .add d _
  | xorConst d k => exact constant .xor d _
  | mul d s => exact single _ masked
  | sub d s => exact single _ masked
  | xor d s => exact single _ masked
  | rotate d amount => exact single _ masked
  | target => simp [pieces]
  | branch mask => simp [pieces]

-- A lane holds the values of an interpreter, and the mask of lower halves.
structure Reflects (v : Values) (w : Zmm → Word) : Prop where
  file : ∀ r : Register, w (home r) = v.file[r]
  product : (w product).lowHalf = v.product
  halves : w lowerHalves = 0xffffffff

theorem home_not_scratch : ∀ r : Register, home r ∉ scratches ∧ home r ≠ product ∧
    home r ≠ lowerHalves := by decide

theorem home_injective {r d : Register} (same : home r = home d) : r = d := by
  have values := congrArg Fin.val same
  exact Fin.ext values

section Lane

variable {v : Values} {w u : Zmm → Word} {chosen : Bool} {d s : Register} {x : Word}

theorem Reflects.same (reflects : Reflects v w) (same : ∀ r, r ∉ scratches → u r = w r) :
    Reflects v u where
  file := fun r => (same _ (home_not_scratch r).1).trans (reflects.file r)
  product := by rw [same _ (by decide), reflects.product]
  halves := by rw [same _ (by decide), reflects.halves]

theorem Reflects.assign (reflects : Reflects v w) (chosen : Bool) (d : Register) {x y : Word}
    (equal : x = y) :
    Reflects (if chosen then { v with file := v.file.set d y } else v) (assign chosen w (home d) x) := by
  subst equal
  cases chosen with
  | false =>
      refine reflects.same ?_
      intro r _
      simp [VectorCode.assign]
  | true =>
      refine ⟨?_, ?_, ?_⟩
      · intro r
        simp only [if_true, Bank.read_set, VectorCode.assign, and_true]
        by_cases same : r = d
        · simp [same]
        · have apart : home r ≠ home d := fun equal => same (home_injective equal)
          simp [same, apart, reflects.file]
      · simp [VectorCode.assign, (home_not_scratch d).2.1.symm, reflects.product]
      · simp [VectorCode.assign, (home_not_scratch d).2.2.symm, reflects.halves]

theorem Reflects.binary (reflects : Reflects v w) (chosen : Bool) (op : LaneOp) (d s : Register)
    (mask : Option Opmask) :
    Reflects (if mask.isNone || chosen then
        { v with file := v.file.set d (op.apply v.file[d] v.file[s]) } else v)
      (allOnLane chosen [binary op d s mask] w) :=
  reflects.assign _ d (by rw [reflects.file, reflects.file])

theorem Reflects.rotated (reflects : Reflects v w) (chosen : Bool) (d : Register) (amount : UInt8)
    (mask : Option Opmask) :
    Reflects (if mask.isNone || chosen then (Instruction.rotate d amount).apply v else v)
      (allOnLane chosen [.shiftLanes .rotateRight (home d) (home d) amount mask] w) :=
  reflects.assign _ d (by rw [reflects.file]; rfl)

theorem Reflects.upper (reflects : Reflects v w) (chosen : Bool) (d s : Register) (signed : Bool)
    (mask : Option Opmask) :
    Reflects (if mask.isNone || chosen then
        ⟨v.file.set d (upper signed v.file[d] v.file[s]), (upper signed v.file[d] v.file[s]).lowHalf⟩
      else v) (allOnLane chosen (upperProduct (home d) (home s) signed mask) w) := by
  have result := @upper_on_lane chosen w _ _ (home_not_scratch d).1 (home_not_scratch s).1
    reflects.halves signed mask
  rw [reflects.file, reflects.file] at result
  generalize allOnLane chosen (upperProduct (home d) (home s) signed mask) w = u at *
  cases written : mask.isNone || chosen with
  | false =>
      refine reflects.same ?_
      intro r other
      simp [result r other, written]
  | true =>
      refine ⟨?_, ?_, ?_⟩
      · intro r
        have apart := home_not_scratch r
        rw [result _ apart.1]
        simp only [written, and_true, apart.2.1, or_false, if_true, Bank.read_set]
        by_cases same : r = d
        · simp [same]
        · have other : home r ≠ home d := fun equal => same (home_injective equal)
          simp [same, other, reflects.file]
      · rw [result _ (by decide)]
        simp [written]
      · rw [result _ (by decide), if_neg]
        · exact reflects.halves
        · rintro ⟨same | same, _⟩
          · exact (home_not_scratch d).2.2 same.symm
          · revert same
            decide

theorem Reflects.shiftedSum (reflects : Reflects v w) (chosen : Bool) (d s : Register) {shift : UInt8}
    (small : shift < 64) (mask : Option Opmask) :
    Reflects (if mask.isNone || chosen then
        { v with file := v.file.set d (v.file[d] + (v.file[s] <<< shift.toUInt64)) } else v)
      (allOnLane chosen (shiftedSum d s shift mask) w) := by
  let u := onLane chosen (shifted .left 9 (home s) shift) w
  have between : Reflects v u := by
    refine reflects.same ?_
    intro r other
    have apart : r ≠ 9 := by
      rintro rfl
      exact other (by decide)
    simp only [u, onLane_shifted, apart, if_false]
  have sum : u (home d) + u 9 = v.file[d] + (v.file[s] <<< shift.toUInt64) := by
    have ninth : u 9 = v.file[s] <<< shift.toUInt64 := by
      simp only [u, onLane_shifted, if_true, LaneShift.apply, small, reflects.file]
    rw [between.file, ninth]
  exact between.assign _ d sum

end Lane

def Encodable : Instruction → Prop
  | .addShift _ _ shift => shift < 64
  | _ => True

section Instructions

variable {image : Array UInt8} {pool : Nat} {p : Processor} {v : Fin 8 → Values}

-- What operations between registers come to on every lane, they come to together.
theorem between_does {ops : List Operation} (between : ∀ op ∈ ops, BetweenRegisters op)
    {u : Fin 8 → Values}
    (reflects : ∀ l, Reflects (u l) (allOnLane (maskBit p.masks[taking] l) ops (lane p l))) :
    ∃ q, DoAll image pool 8 (ops.map .plain) p q ∧ Still p q ∧ ∀ l, Reflects (u l) (lane q l) := by
  obtain ⟨q, all, still, result⟩ := @operations_do image pool p ops between
  exact ⟨q, all, still, fun l => by rw [result]; exact reflects l⟩

theorem withConstant_does (op : LaneOp) (d : Register) (k : Word) {mask : Option Opmask}
    (masked : Masked mask) (reflects : ∀ l, Reflects (v l) (lane p l)) :
    ∃ q, DoAll image pool 8 [.constant (withConstant op d mask) k] p q ∧ Still p q ∧
      ∀ l, Reflects (if mask.isNone || maskBit p.masks[taking] l then
        { v l with file := (v l).file.set d (op.apply (v l).file[d] k) } else v l) (lane q l) := by
  obtain ⟨q, does, moved, still, result⟩ := @constant_does image pool p op (home d) (home d) mask masked k
  refine ⟨q, ⟨q, does, moved, rfl⟩, still, ?_⟩
  intro l
  rw [result]
  exact (reflects l).assign _ d (by rw [(reflects l).file])

theorem nothing_does (chosen : Fin 8 → Bool) (reflects : ∀ l, Reflects (v l) (lane p l)) :
    ∃ q, DoAll image pool 8 [] p q ∧ Still p q ∧
      ∀ l, Reflects (if chosen l then v l else v l) (lane q l) := by
  refine ⟨p, rfl, .refl p, ?_⟩
  intro l
  rw [ite_self]
  exact reflects l

theorem instruction_does (i : Instruction) (encodable : Encodable i) {mask : Option Opmask}
    (masked : Masked mask) (reflects : ∀ l, Reflects (v l) (lane p l)) :
    ∃ q, DoAll image pool 8 (pieces mask i) p q ∧ Still p q ∧
      ∀ l, Reflects (if mask.isNone || maskBit p.masks[taking] l then i.apply (v l) else v l)
        (lane q l) := by
  have simple (op : LaneOp) (d s : Register) : ∀ o ∈ [binary op d s mask], BetweenRegisters o :=
    List.forall_mem_singleton.mpr masked
  cases i with
  | mul d s => exact between_does (simple _ d s) fun l => (reflects l).binary _ .lowProduct d s mask
  | sub d s => exact between_does (simple _ d s) fun l => (reflects l).binary _ .sub d s mask
  | xor d s => exact between_does (simple _ d s) fun l => (reflects l).binary _ .xor d s mask
  | rotate d amount =>
      have between : ∀ o ∈ [.shiftLanes .rotateRight (home d) (home d) amount mask],
          BetweenRegisters o := List.forall_mem_singleton.mpr masked
      exact between_does between fun l => (reflects l).rotated _ d amount mask
  | umulh d s =>
      exact between_does (upperProduct_between _ _ false masked) fun l =>
        (reflects l).upper _ d s false mask
  | smulh d s =>
      exact between_does (upperProduct_between _ _ true masked) fun l =>
        (reflects l).upper _ d s true mask
  | addShift d s shift =>
      exact between_does (shiftedSum_between d s shift masked) fun l =>
        (reflects l).shiftedSum _ d s encodable mask
  | addConst d k => exact withConstant_does .add d _ masked reflects
  | xorConst d k => exact withConstant_does .xor d _ masked reflects
  | target => exact nothing_does _ reflects
  | branch bits => exact nothing_does _ reflects

end Instructions

end ProgramHash.VectorCode
