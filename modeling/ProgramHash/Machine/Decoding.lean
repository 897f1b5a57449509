import ProgramHash.Machine.Encoding

namespace ProgramHash.Machine

-- Reading an operation back from its bytes. The first byte settles the kind of
-- encoding, the opcode and the mode of the operands settle the rest.
structure Operands where
  mode : Nat
  reg : Nat
  rm : Nat

def Operands.ofByte (b : UInt8) : Operands := ⟨b.toNat / 64, b.toNat / 8 % 8, b.toNat % 8⟩

def gpr (n : Nat) : Gpr := Fin.ofNat 16 n

def zmm (n : Nat) : Zmm := Fin.ofNat 32 n

def opmask (n : Nat) : Opmask := Fin.ofNat 8 n

def int32 (a b c d : UInt8) : Int32 := (UInt32.ofNat (Bytes.toNat [a, b, c, d])).toInt32

abbrev Reading := Option (Operation × List UInt8)

def Operands.isIndexed (o : Operands) : Bool := o.rm = indexedOperand

def aluOfOpcode? (opcode : UInt8) : Option AluOp :=
  [AluOp.add, .sub, .xor].find? fun op => op.opcode = opcode

def decodeWide (lead : Nat) : List UInt8 → Reading
  | 0x8b :: m :: rest =>
      let o := Operands.ofByte m
      let reg := gpr (8 * (lead / 4 % 2) + o.reg)
      let rm := gpr (8 * (lead % 2) + o.rm)
      match o.mode, rest with
      | 3, rest => some (.move reg rm, rest)
      | 1, d :: rest => if o.isIndexed then none else some (.load reg rm d.toInt8, rest)
      | _, _ => none
  | 0x89 :: m :: d :: rest =>
      let o := Operands.ofByte m
      if o.mode = 1 ∧ !o.isIndexed then
        some (.store (gpr (8 * (lead % 2) + o.rm)) d.toInt8 (gpr (8 * (lead / 4 % 2) + o.reg)), rest)
      else none
  | 0x0f :: 0xaf :: m :: rest =>
      let o := Operands.ofByte m
      if o.mode = 3 then
        some (.multiply (gpr (8 * (lead / 4 % 2) + o.reg)) (gpr (8 * (lead % 2) + o.rm)), rest)
      else none
  | 0xf7 :: m :: rest =>
      let o := Operands.ofByte m
      let rm := gpr (8 * (lead % 2) + o.rm)
      match o.mode, o.reg with
      | 3, 4 => some (.wideMultiply rm, rest)
      | 3, 5 => some (.signedWideMultiply rm, rest)
      | _, _ => none
  | 0x8d :: m :: s :: rest =>
      let o := Operands.ofByte m
      let scaled := Operands.ofByte s
      let dst := gpr (8 * (lead / 4 % 2) + o.reg)
      let src := gpr (8 * (lead / 2 % 2) + scaled.reg)
      let base := gpr (8 * (lead % 2) + scaled.rm)
      if o.mode = 0 ∧ o.isIndexed ∧ base = dst ∧ scaled.rm ≠ relativeOperand ∧ src ≠ Gpr.rsp then
        some (.shiftedSum dst src (UInt8.ofNat scaled.mode), rest)
      else none
  | 0xc1 :: m :: amount :: rest =>
      let o := Operands.ofByte m
      if o.mode = 3 ∧ o.reg = 1 then
        some (.rotateRight (gpr (8 * (lead % 2) + o.rm)) amount, rest)
      else none
  | opcode :: m :: rest => do
      let op ← aluOfOpcode? opcode
      let o := Operands.ofByte m
      let reg := gpr (8 * (lead / 4 % 2) + o.reg)
      match o.mode, rest with
      | 3, rest => some (.alu op reg (gpr (8 * (lead % 2) + o.rm)), rest)
      | 0, a :: b :: c :: d :: rest =>
          if o.rm = relativeOperand then some (.aluPool op reg (int32 a b c d), rest) else none
      | _, _ => none
  | _ => none

def decodeHalf (reg rm : Nat) : List UInt8 → Reading
  | 0x31 :: m :: rest =>
      let o := Operands.ofByte m
      if o.mode = 3 then some (.xorHalf (gpr (8 * rm + o.rm)) (gpr (8 * reg + o.reg)), rest) else none
  | 0x09 :: m :: rest =>
      let o := Operands.ofByte m
      if o.mode = 3 then some (.orHalf (gpr (8 * rm + o.rm)) (gpr (8 * reg + o.reg)), rest) else none
  | 0x83 :: m :: immediate :: rest =>
      let o := Operands.ofByte m
      if o.mode = 3 ∧ o.reg = 1 then
        some (.orHalfImmediate (gpr (8 * rm + o.rm)) immediate.toInt8, rest)
      else none
  | 0x85 :: m :: a :: b :: c :: d :: rest =>
      let o := Operands.ofByte m
      if o.mode = 0 ∧ o.rm = relativeOperand then
        some (.testHalfPool (gpr (8 * reg + o.reg)) (int32 a b c d), rest)
      else none
  | opcode :: rest =>
      if 0x50 ≤ opcode ∧ opcode ≤ 0x57 then
        some (.push (gpr (8 * rm + (opcode.toNat - 0x50))), rest)
      else if 0x58 ≤ opcode ∧ opcode ≤ 0x5f then
        some (.pop (gpr (8 * rm + (opcode.toNat - 0x58))), rest)
      else none
  | [] => none

def decodeMask (second : Nat) : List UInt8 → Reading
  | opcode :: m :: rest =>
      let o := Operands.ofByte m
      let a := 15 - second / 8 % 16
      let three := 128 ≤ second ∧ second % 8 = 4 ∧ a < 8
      if o.mode ≠ 3 then none
      else if opcode = 0x46 ∧ three then some (.maskXnor (opmask o.reg) (opmask a) (opmask o.rm), rest)
      else if opcode = 0x42 ∧ three then
        some (.maskAndNot (opmask o.reg) (opmask a) (opmask o.rm), rest)
      else if opcode = 0x98 ∧ second = 0xf8 then some (.maskTest (opmask o.reg) (opmask o.rm), rest)
      else none
  | _ => none

structure VectorLead where
  map : Nat
  lead : Nat
  reg : Nat
  other : Nat
  x : Nat
  b : Nat
  mask : Option Opmask

-- The bits that are the same in every operation: 512 bits wide, lanes of 64
-- bits, lanes outside the mask kept.
def vectorBitsFixed (p0 p1 p2 : UInt8) : Bool :=
  p0.toNat / 4 % 4 = 0 ∧ p1.toNat / 128 = 1 ∧ p1.toNat / 4 % 2 = 1 ∧ p2.toNat / 16 = 4

def VectorLead.ofBytes (p0 p1 p2 : UInt8) : VectorLead where
  map := p0.toNat % 4
  lead := p1.toNat % 4
  reg := 8 * (1 - p0.toNat / 128) + 16 * (1 - p0.toNat / 16 % 2)
  other := 15 - p1.toNat / 8 % 16 + 16 * (1 - p2.toNat / 8 % 2)
  x := 1 - p0.toNat / 64 % 2
  b := 1 - p0.toNat / 32 % 2
  mask := if p2.toNat % 8 = 0 then none else some (opmask (p2.toNat % 8))

def decodeSource (v : VectorLead) : List UInt8 → Option (Nat × VectorSource × List UInt8)
  | m :: rest =>
      let o := Operands.ofByte m
      match o.mode, rest with
      | 3, rest => some (v.reg + o.reg, .register (zmm (16 * v.x + 8 * v.b + o.rm)), rest)
      | 0, a :: b :: c :: d :: rest =>
          if o.rm = relativeOperand then some (v.reg + o.reg, .pool (int32 a b c d), rest) else none
      | 2, a :: b :: c :: d :: rest =>
          if o.isIndexed then none
          else some (v.reg + o.reg, .memory (gpr (8 * v.b + o.rm)) (int32 a b c d), rest)
      | _, _ => none
  | [] => none

def laneOpOf? (f : VectorForm) : Option LaneOp :=
  [LaneOp.add, .sub, .xor, .and, .lowProduct, .halfProduct].find? fun op =>
    op.form.map = f.map ∧ op.form.lead = f.lead ∧ op.form.opcode = f.opcode

def laneShiftOf? (opcode : UInt8) (number : Nat) : Option LaneShift :=
  [LaneShift.left, .right, .signedRight, .rotateRight].find? fun op =>
    op.form.1.opcode = opcode ∧ op.form.2 = number

def decodeForm (f : VectorForm) (reg other : Nat) (src : VectorSource) (mask : Option Opmask)
    (rest : List UInt8) : Reading :=
  if f.map = 1 ∧ f.lead = 1 ∧ (f.opcode = 0x72 ∨ f.opcode = 0x73) then
    match src, rest with
    | .register r, amount :: rest => do
        let op ← laneShiftOf? f.opcode reg
        some (.shiftLanes op (zmm other) r amount mask, rest)
    | _, _ => none
  else if f.map = 1 ∧ f.lead = 1 ∧ f.opcode = 0x6f then
    if other = 0 then some (.moveLanes (zmm reg) src mask, rest) else none
  else if f.map = 1 ∧ f.lead = 2 ∧ f.opcode = 0x6f then
    match src with
    | .memory base offset =>
        if other = 0 ∧ mask = none then some (.loadLanes (zmm reg) base offset, rest) else none
    | _ => none
  else if f.map = 1 ∧ f.lead = 2 ∧ f.opcode = 0x7f then
    match src with
    | .memory base offset =>
        if other = 0 ∧ mask = none then some (.storeLanes base offset (zmm reg), rest) else none
    | _ => none
  else if f.map = 2 ∧ f.lead = 2 ∧ f.opcode = 0x27 then
    if reg < 8 then some (.testZeroLanes (opmask reg) (zmm other) src mask, rest) else none
  else do
    let op ← laneOpOf? f
    some (.lanes op (zmm reg) (zmm other) src mask, rest)

def decodeVector : List UInt8 → Reading
  | p0 :: p1 :: p2 :: opcode :: rest => do
      let v := VectorLead.ofBytes p0 p1 p2
      let (reg, src, rest) ← decodeSource v rest
      if vectorBitsFixed p0 p1 p2 then decodeForm ⟨v.map, v.lead, opcode⟩ reg v.other src v.mask rest
      else none
  | _ => none

def decode? : List UInt8 → Reading
  | 0xc3 :: rest => some (.ret, rest)
  | 0x75 :: d :: rest => some (.jumpIfNonzero d.toInt8, rest)
  | 0x0f :: 0x84 :: a :: b :: c :: d :: rest => some (.jumpIfZero (int32 a b c d), rest)
  | 0xe9 :: a :: b :: c :: d :: rest => some (.jump (int32 a b c d), rest)
  | 0xc5 :: 0xf8 :: 0x77 :: rest => some (.zeroUpper, rest)
  | 0xc5 :: second :: rest => decodeMask second.toNat rest
  | 0x62 :: rest => decodeVector rest
  | first :: rest =>
      if 0x48 ≤ first ∧ first ≤ 0x4f then decodeWide first.toNat rest
      else if 0x40 ≤ first ∧ first ≤ 0x47 then
        decodeHalf (first.toNat / 4 % 2) (first.toNat % 2) rest
      else decodeHalf 0 0 (first :: rest)
  | [] => none

end ProgramHash.Machine
