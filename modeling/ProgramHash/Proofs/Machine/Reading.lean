import ProgramHash.Machine.Decoding

namespace ProgramHash.Machine

-- Every operation of which an encoder can make sense is read back from its bytes,
-- whatever follows them.
section Fields

theorem toNat_operands {mode reg rm : Nat} (two : mode < 4) :
    (operands mode reg rm).toNat = 64 * mode + 8 * (reg % 8) + rm % 8 := by
  simp only [operands, low, UInt8.toNat_ofNat']
  omega

@[simp] theorem ofByte_operands {mode reg rm : Nat} (two : mode < 4) :
    Operands.ofByte (operands mode reg rm) = ⟨mode, reg % 8, rm % 8⟩ := by
  simp only [Operands.ofByte, toNat_operands two, Operands.mk.injEq]
  omega

@[simp] theorem gpr_split (r : Gpr) : gpr (8 * high r.val + r.val % 8) = r := by
  apply Fin.ext
  simp only [gpr, high, Fin.val_ofNat]
  omega

theorem high_zero : high 0 = 0 := rfl

@[simp] theorem opmask_val (k : Opmask) : opmask k.val = k := Fin.ext (Nat.mod_eq_of_lt k.isLt)

@[simp] theorem opmask_mod (k : Opmask) : opmask (k.val % 8) = k := by
  rw [Nat.mod_eq_of_lt k.isLt, opmask_val]

@[simp] theorem zmm_val (r : Zmm) : zmm r.val = r := Fin.ext (Nat.mod_eq_of_lt r.isLt)

section Leads

variable (reg index rm : Nat)

@[simp] theorem lead_reg : (0x48 + 4 * high reg + 2 * high index + high rm) / 4 % 2 = high reg := by
  unfold high; omega

@[simp] theorem lead_index :
    (0x48 + 4 * high reg + 2 * high index + high rm) / 2 % 2 = high index := by
  unfold high; omega

@[simp] theorem lead_rm : (0x48 + 4 * high reg + 2 * high index + high rm) % 2 = high rm := by
  unfold high; omega

end Leads

theorem int32_bytes (n : Int32) (rest : List UInt8) :
    ∃ a b c d, bytesOfInt32 n ++ rest = a :: b :: c :: d :: rest ∧ int32 a b c d = n := by
  have written : Bytes.toNat (bytesOfInt32 n) = n.toUInt32.toNat := by
    rw [bytesOfInt32, Bytes.toNat_ofNat]
    exact Nat.mod_eq_of_lt n.toUInt32.toNat_lt
  refine ⟨_, _, _, _, rfl, ?_⟩
  change (UInt32.ofNat (Bytes.toNat (bytesOfInt32 n))).toInt32 = n
  rw [written, UInt32.ofNat_toNat]
  rfl

theorem bytesOfInt32_length (n : Int32) : (bytesOfInt32 n).length = 4 := Bytes.ofNat_length 4 _

theorem decode_wide (reg index rm : Nat) (rest : List UInt8) :
    decode? (rexWide reg index rm :: rest) =
      decodeWide (0x48 + 4 * high reg + 2 * high index + high rm) rest := by
  have lead : ∀ a < 2, ∀ b < 2, ∀ c < 2,
      decode? (UInt8.ofNat (0x48 + 4 * a + 2 * b + c) :: rest) =
        decodeWide (0x48 + 4 * a + 2 * b + c) rest := by
    intro a _ b _ c _
    match a, b, c with
    | 0, 0, 0 | 0, 0, 1 | 0, 1, 0 | 0, 1, 1 | 1, 0, 0 | 1, 0, 1 | 1, 1, 0 | 1, 1, 1 => rfl
  exact lead _ (by unfold high; omega) _ (by unfold high; omega) _ (by unfold high; omega)

theorem decode_half {opcode : UInt8} {rest : List UInt8}
    (bare : decode? (opcode :: rest) = decodeHalf 0 0 (opcode :: rest)) (reg rm : Nat) :
    decode? (rexHalf reg rm ++ opcode :: rest) = decodeHalf (high reg) (high rm) (opcode :: rest) := by
  have prefixed : ∀ a < 2, ∀ b < 2,
      decode? (UInt8.ofNat (0x40 + 4 * a + b) :: opcode :: rest) = decodeHalf a b (opcode :: rest) := by
    intro a _ b _
    match a, b with
    | 0, 0 | 0, 1 | 1, 0 | 1, 1 => rfl
  unfold rexHalf
  split
  · rename_i none
    obtain ⟨one, two⟩ : high reg = 0 ∧ high rm = 0 := by omega
    rw [one, two]
    exact bare
  · exact prefixed _ (by unfold high; omega) _ (by unfold high; omega)

theorem decode_stack {first : Nat} {op : Gpr → Operation} {rest : List UInt8}
    (each : ∀ n < 8, ∀ b, decode? (UInt8.ofNat (first + n) :: rest) =
        decodeHalf 0 0 (UInt8.ofNat (first + n) :: rest) ∧
      decodeHalf 0 b (UInt8.ofNat (first + n) :: rest) = some (op (gpr (8 * b + n)), rest))
    (r : Gpr) :
    decode? (rexHalf 0 r.val ++ UInt8.ofNat (first + low r.val) :: rest) = some (op r, rest) := by
  have small : low r.val < 8 := by unfold low; omega
  rw [decode_half (each _ small 0).1, high_zero, (each _ small _).2]
  exact congrArg (fun r => some (op r, rest)) (gpr_split r)

theorem decode_threeMasks {opcode : UInt8} (dst a b : Opmask) (rest : List UInt8) :
    decode? (maskOperation a.val 1 opcode dst.val b.val ++ rest) =
      decodeMask (0x84 + 8 * (15 - a.val)) (opcode :: operands 3 dst.val b.val :: rest) := by
  have written : (UInt8.ofNat (0x80 + 8 * (15 - a.val % 16) + 4 * 1)).toNat =
      0x84 + 8 * (15 - a.val) := by
    rw [UInt8.toNat_ofNat']
    omega
  have apart : UInt8.ofNat (0x80 + 8 * (15 - a.val % 16) + 4 * 1) ≠ 0xf8 := by
    intro same
    rw [same] at written
    change 0xf8 = _ at written
    omega
  unfold maskOperation
  rw [← written]
  generalize UInt8.ofNat (0x80 + 8 * (15 - a.val % 16) + 4 * 1) = second at apart ⊢
  simp [decode?, apart]

end Fields

section Vectors

def VectorSource.Admitted : VectorSource → Prop
  | .memory base _ => low base.val ≠ indexedOperand
  | .register _ | .pool _ => True

theorem VectorSource.highBits_lt (src : VectorSource) : src.highBits.1 < 2 ∧ src.highBits.2 < 2 := by
  cases src <;> simp only [highBits, high, highest] <;> omega

theorem decodeSource_tail {v : VectorLead} {src : VectorSource} (reg : Nat)
    (x : v.x = src.highBits.1) (b : v.b = src.highBits.2) (admitted : src.Admitted)
    (rest : List UInt8) :
    decodeSource v (src.tail reg ++ rest) = some (v.reg + reg % 8, src, rest) := by
  cases src with
  | register r =>
      have whole : zmm (16 * highest r.val + 8 * high r.val + r.val % 8) = r := by
        apply Fin.ext
        simp only [zmm, high, highest, Fin.val_ofNat]
        omega
      simp [VectorSource.tail, decodeSource, x, b, VectorSource.highBits, whole]
  | pool relative =>
      obtain ⟨b0, b1, b2, b3, bytes, same⟩ := int32_bytes relative rest
      simp [VectorSource.tail, decodeSource, bytes, same, relativeOperand]
  | memory base offset =>
      have plain : base.val % 8 ≠ indexedOperand := admitted
      obtain ⟨b0, b1, b2, b3, bytes, same⟩ := int32_bytes offset rest
      simp [VectorSource.tail, decodeSource, bytes, same, b, VectorSource.highBits,
        Operands.isIndexed, plain]

-- The three bytes before the opcode give back every field they were made of.
theorem ofBytes_vector {map lead reg other x b : Nat} {mask : Option Opmask}
    (map4 : map < 4) (lead4 : lead < 4) (x2 : x < 2) (b2 : b < 2) (named : mask ≠ some 0) :
    let p0 := UInt8.ofNat (128 * (1 - high reg) + 64 * (1 - x) + 32 * (1 - b) +
      16 * (1 - highest reg) + map)
    let p1 := UInt8.ofNat (0x80 + 8 * (15 - other % 16) + 4 + lead)
    let p2 := UInt8.ofNat (0x40 + 8 * (1 - highest other) + mask.elim 0 (·.val))
    VectorLead.ofBytes p0 p1 p2 = ⟨map, lead, 8 * high reg + 16 * highest reg,
        other % 16 + 16 * highest other, x, b, mask⟩ ∧
      vectorBitsFixed p0 p1 p2 = true := by
  have number : mask.elim 0 (·.val) < 8 := by
    cases mask with
    | none => decide
    | some k => exact k.isLt
  have unmasked : (if mask.elim 0 (·.val) = 0 then none
      else some (opmask (mask.elim 0 (·.val)))) = mask := by
    cases mask with
    | none => rfl
    | some k =>
        have nonzero : k.val ≠ 0 := fun zero => named (congrArg some (Fin.ext zero))
        simp [nonzero]
  intro p0 p1 p2
  have first : p0.toNat = 128 * (1 - high reg) + 64 * (1 - x) + 32 * (1 - b) +
      16 * (1 - highest reg) + map := by
    simp only [p0, UInt8.toNat_ofNat', high, highest]
    omega
  have second : p1.toNat = 0x80 + 8 * (15 - other % 16) + 4 + lead := by
    simp only [p1, UInt8.toNat_ofNat']
    omega
  have third : p2.toNat = 0x40 + 8 * (1 - highest other) + mask.elim 0 (·.val) := by
    simp only [p2, UInt8.toNat_ofNat', highest]
    omega
  have maskBits : p2.toNat % 8 = mask.elim 0 (·.val) := by
    simp only [third]
    omega
  have one : high reg < 2 ∧ highest reg < 2 ∧ highest other < 2 := by
    unfold high highest
    omega
  constructor
  · simp only [VectorLead.ofBytes, maskBits, unmasked, VectorLead.mk.injEq, and_true]
    simp only [first, second, third]
    omega
  · simp only [vectorBitsFixed, first, second, third, decide_eq_true_eq]
    omega

theorem decode_vector {f : VectorForm} {reg other : Nat} {src : VectorSource} {mask : Option Opmask}
    (map4 : f.map < 4) (lead4 : f.lead < 4) (reg32 : reg < 32) (other32 : other < 32)
    (admitted : src.Admitted) (named : mask ≠ some 0) (rest : List UInt8) :
    decode? (vector f reg other src mask ++ rest) = decodeForm f reg other src mask rest := by
  obtain ⟨x2, b2⟩ := src.highBits_lt
  obtain ⟨lead, fixed⟩ := @ofBytes_vector f.map f.lead reg other _ _ mask map4 lead4 x2 b2 named
  have first : 8 * high reg + 16 * highest reg + reg % 8 = reg := by
    unfold high highest
    omega
  have second : other % 16 + 16 * highest other = other := by
    unfold highest
    omega
  simp only [vector, List.cons_append, List.nil_append]
  change decodeVector (_ :: _ :: _ :: f.opcode :: (src.tail reg ++ rest)) = _
  simp only [decodeVector, lead, fixed, if_true]
  rw [decodeSource_tail reg rfl rfl admitted]
  simp only [Option.bind_eq_bind, Option.bind_some, first, second]

end Vectors

def Operation.Admitted : Operation → Prop
  | .load _ base _ | .store base _ _ => low base.val ≠ indexedOperand
  | .shiftedSum dst src shift => low dst.val ≠ relativeOperand ∧ src ≠ Gpr.rsp ∧ shift < 4
  | .lanes _ _ _ b mask => b.Admitted ∧ mask ≠ some 0
  | .shiftLanes _ _ _ _ mask => mask ≠ some 0
  | .moveLanes _ src mask => src.Admitted ∧ mask ≠ some 0
  | .loadLanes _ base _ | .storeLanes base _ _ => low base.val ≠ indexedOperand
  | .testZeroLanes _ _ b mask => b.Admitted ∧ mask ≠ some 0
  | _ => True

theorem decode_encode (op : Operation) (admitted : op.Admitted) (rest : List UInt8) :
    decode? (op.encode ++ rest) = some (op, rest) := by
  cases op with
  | push r =>
      rw [Operation.encode, List.append_assoc]
      refine @decode_stack 0x50 .push rest ?_ r
      intro n _ b
      match n with
      | 0 | 1 | 2 | 3 | 4 | 5 | 6 | 7 => exact ⟨rfl, rfl⟩
  | pop r =>
      rw [Operation.encode, List.append_assoc]
      refine @decode_stack 0x58 .pop rest ?_ r
      intro n _ b
      match n with
      | 0 | 1 | 2 | 3 | 4 | 5 | 6 | 7 => exact ⟨rfl, rfl⟩
  | ret | jumpIfNonzero _ | zeroUpper => rfl
  | move _ _ | multiply _ _ | wideMultiply _ | signedWideMultiply _ | rotateRight _ _ =>
      simp [Operation.encode, decode_wide, decodeWide]
  | load _ base _ | store base _ _ =>
      have plain : base.val % 8 ≠ indexedOperand := admitted
      simp [Operation.encode, decode_wide, decodeWide, Operands.isIndexed, plain]
  | alu op dst src =>
      cases op <;> simp [Operation.encode, decode_wide, decodeWide, AluOp.opcode, aluOfOpcode?]
  | aluPool op dst relative =>
      obtain ⟨a, b, c, d, bytes, same⟩ := int32_bytes relative rest
      cases op <;> simp [Operation.encode, decode_wide, decodeWide, AluOp.opcode, aluOfOpcode?, bytes, same, relativeOperand]
  | shiftedSum dst src shift =>
      obtain ⟨plain, index, two⟩ := admitted
      have scale : shift.toNat < 4 := two
      have based : dst.val % 8 ≠ relativeOperand := plain
      simp [Operation.encode, decode_wide, decodeWide, Operands.isIndexed, scale, based, index,
        indexedOperand]
  | xorHalf _ _ | orHalf _ _ | orHalfImmediate _ _ =>
      simp only [Operation.encode, List.append_assoc, List.cons_append, List.nil_append]
      rw [decode_half rfl]
      simp [decodeHalf]
  | testHalfPool src relative =>
      obtain ⟨a, b, c, d, bytes, same⟩ := int32_bytes relative rest
      simp only [Operation.encode, List.append_assoc, List.cons_append, List.nil_append, bytes]
      rw [decode_half rfl]
      simp [decodeHalf, same, relativeOperand]
  | jumpIfZero relative | jump relative =>
      obtain ⟨a, b, c, d, bytes, same⟩ := int32_bytes relative rest
      simp [Operation.encode, bytes, decode?, same]
  | lanes op dst a b mask =>
      have form : op.form.map < 4 ∧ op.form.lead < 4 := by cases op <;> decide
      rw [Operation.encode, decode_vector form.1 form.2 dst.isLt a.isLt admitted.1 admitted.2]
      cases op <;> simp [decodeForm, LaneOp.form, laneOpOf?]
  | shiftLanes op dst src amount mask =>
      have form : op.form.1.map < 4 ∧ op.form.1.lead < 4 ∧ op.form.2 < 32 := by cases op <;> decide
      have register : (VectorSource.register src).Admitted := trivial
      rw [Operation.encode, List.append_assoc,
        decode_vector form.1 form.2.1 form.2.2 dst.isLt register admitted]
      cases op <;> simp [decodeForm, LaneShift.form, laneShiftOf?]
  | moveLanes dst src mask =>
      have form : moveForm.map < 4 ∧ moveForm.lead < 4 := by decide
      rw [Operation.encode, decode_vector form.1 form.2 dst.isLt (by decide) admitted.1 admitted.2]
      simp [decodeForm, moveForm]
  | loadLanes dst base offset =>
      have form : loadForm.map < 4 ∧ loadForm.lead < 4 := by decide
      have memory : (VectorSource.memory base offset).Admitted := admitted
      rw [Operation.encode, decode_vector form.1 form.2 dst.isLt (by decide) memory (by simp)]
      simp [decodeForm, loadForm]
  | storeLanes base offset src =>
      have form : storeForm.map < 4 ∧ storeForm.lead < 4 := by decide
      have memory : (VectorSource.memory base offset).Admitted := admitted
      rw [Operation.encode, decode_vector form.1 form.2 src.isLt (by decide) memory (by simp)]
      simp [decodeForm, storeForm]
  | testZeroLanes dst a b mask =>
      have form : testZeroForm.map < 4 ∧ testZeroForm.lead < 4 := by decide
      have small := dst.isLt
      rw [Operation.encode, testZero,
        decode_vector form.1 form.2 (by omega) a.isLt admitted.1 admitted.2]
      simp [decodeForm, testZeroForm, small]
  | maskXnor dst a b =>
      have number : 15 - (0x84 + 8 * (15 - a.val)) / 8 % 16 = a.val := by omega
      rw [Operation.encode, Machine.maskXnor, decode_threeMasks]
      simp [decodeMask, number]
      omega
  | maskAndNot dst a b =>
      have number : 15 - (0x84 + 8 * (15 - a.val)) / 8 % 16 = a.val := by omega
      rw [Operation.encode, Machine.maskAndNot, decode_threeMasks]
      simp [decodeMask, number]
      omega
  | maskTest a b =>
      simp [Operation.encode, Machine.maskTest, maskOperation, decode?, decodeMask]

theorem rexHalf_length (reg rm : Nat) : (rexHalf reg rm).length ≤ 1 := by
  unfold rexHalf
  split <;> simp

theorem vector_length (f : VectorForm) (reg other : Nat) (src : VectorSource)
    (mask : Option Opmask) : (vector f reg other src mask).length ≤ 10 := by
  cases src <;> simp [vector, VectorSource.tail, bytesOfInt32_length]

theorem encode_length (op : Operation) : 0 < op.encode.length ∧ op.encode.length ≤ 11 := by
  have half (reg rm : Nat) := rexHalf_length reg rm
  have plain (f : VectorForm) (reg other : Nat) (src : VectorSource) (mask : Option Opmask) :
      0 < (vector f reg other src mask).length := by simp [vector]
  cases op with
  | push r | pop r | orHalfImmediate r _ =>
      have := half 0 r.val
      simp only [Operation.encode, List.length_append, List.length_cons, List.length_nil]
      omega
  | xorHalf dst src | orHalf dst src =>
      have := half src.val dst.val
      simp only [Operation.encode, List.length_append, List.length_cons, List.length_nil]
      omega
  | testHalfPool src relative =>
      have := half src.val 0
      simp only [Operation.encode, List.length_append, List.length_cons, List.length_nil,
        bytesOfInt32_length]
      omega
  | lanes | moveLanes | loadLanes | storeLanes | testZeroLanes =>
      simp only [Operation.encode, testZero]
      exact ⟨plain _ _ _ _ _, Nat.le_succ_of_le (vector_length _ _ _ _ _)⟩
  | shiftLanes op dst src amount mask =>
      have := vector_length op.form.1 op.form.2 dst.val (.register src) mask
      simp only [Operation.encode, List.length_append, List.length_cons, List.length_nil]
      omega
  | _ =>
      simp [Operation.encode, Machine.maskXnor, Machine.maskAndNot, Machine.maskTest, maskOperation,
        bytesOfInt32_length]

def Operation.distance? : Operation → Option Int32
  | .aluPool _ _ d | .testHalfPool _ d | .jumpIfZero d | .jump d => some d
  | .lanes _ _ _ (.pool d) _ | .moveLanes _ (.pool d) _ | .testZeroLanes _ _ (.pool d) _ => some d
  | _ => none

def Operation.withDistance (d : Int32) : Operation → Operation
  | .aluPool op dst _ => .aluPool op dst d
  | .testHalfPool src _ => .testHalfPool src d
  | .jumpIfZero _ => .jumpIfZero d
  | .jump _ => .jump d
  | .lanes op dst a (.pool _) mask => .lanes op dst a (.pool d) mask
  | .moveLanes dst (.pool _) mask => .moveLanes dst (.pool d) mask
  | .testZeroLanes dst a (.pool _) mask => .testZeroLanes dst a (.pool d) mask
  | op => op

theorem encode_withDistance {op : Operation} {held : Int32} (holds : op.distance? = some held)
    (d : Int32) : ∃ front : List UInt8, op.encode = front ++ bytesOfInt32 held ∧
      (op.withDistance d).encode = front ++ bytesOfInt32 d := by
  unfold Operation.distance? at holds
  split at holds <;> cases holds
  · exact ⟨_, rfl, rfl⟩
  · exact ⟨_, rfl, rfl⟩
  · exact ⟨_, rfl, rfl⟩
  · exact ⟨_, rfl, rfl⟩
  · exact ⟨_ :: _ :: _ :: _ :: _ :: [_], rfl, rfl⟩
  · exact ⟨_ :: _ :: _ :: _ :: _ :: [_], rfl, rfl⟩
  · exact ⟨_ :: _ :: _ :: _ :: _ :: [_], rfl, rfl⟩

theorem admitted_withDistance {op : Operation} (admitted : op.Admitted) (d : Int32) :
    (op.withDistance d).Admitted := by
  unfold Operation.withDistance
  split <;> exact admitted

end ProgramHash.Machine
