import ProgramHash.Machine.Operation

namespace ProgramHash.Machine

-- Register numbers are split over a byte of operands, which has three bits for
-- each, and a byte before the opcode, which has the higher bits.
def low (n : Nat) : Nat := n % 8

def high (n : Nat) : Nat := n / 8 % 2

def highest (n : Nat) : Nat := n / 16 % 2

def operands (mode reg rm : Nat) : UInt8 := UInt8.ofNat (64 * mode + 8 * low reg + low rm)

-- In mode 0 this operand is an address relative to the end of the operation;
-- in modes 0 to 2 the other one announces a byte of index and scale.
def relativeOperand : Nat := 5

def indexedOperand : Nat := 4

def bytesOfInt32 (n : Int32) : List UInt8 := Bytes.ofNat 4 n.toUInt32.toNat

def rexWide (reg index rm : Nat) : UInt8 :=
  UInt8.ofNat (0x48 + 4 * high reg + 2 * high index + high rm)

def rexHalf (reg rm : Nat) : List UInt8 :=
  if high reg + high rm = 0 then [] else [UInt8.ofNat (0x40 + 4 * high reg + high rm)]

def AluOp.opcode : AluOp → UInt8
  | .add => 0x03
  | .sub => 0x2b
  | .xor => 0x33

structure VectorForm where
  map : Nat
  lead : Nat
  opcode : UInt8

def LaneOp.form : LaneOp → VectorForm
  | .add => ⟨1, 1, 0xd4⟩
  | .sub => ⟨1, 1, 0xfb⟩
  | .xor => ⟨1, 1, 0xef⟩
  | .and => ⟨1, 1, 0xdb⟩
  | .lowProduct => ⟨2, 1, 0x40⟩
  | .halfProduct => ⟨1, 1, 0xf4⟩

def LaneShift.form : LaneShift → VectorForm × Nat
  | .left => (⟨1, 1, 0x73⟩, 6)
  | .right => (⟨1, 1, 0x73⟩, 2)
  | .signedRight => (⟨1, 1, 0x72⟩, 4)
  | .rotateRight => (⟨1, 1, 0x72⟩, 0)

def moveForm : VectorForm := ⟨1, 1, 0x6f⟩

def loadForm : VectorForm := ⟨1, 2, 0x6f⟩

def storeForm : VectorForm := ⟨1, 2, 0x7f⟩

def testZeroForm : VectorForm := ⟨2, 2, 0x27⟩

def VectorSource.highBits : VectorSource → Nat × Nat
  | .register r => (highest r.val, high r.val)
  | .pool _ => (0, 0)
  | .memory base _ => (0, high base.val)

def VectorSource.tail (reg : Nat) : VectorSource → List UInt8
  | .register r => [operands 3 reg r.val]
  | .pool relative => operands 0 reg relativeOperand :: bytesOfInt32 relative
  | .memory base offset => operands 2 reg base.val :: bytesOfInt32 offset

def vector (f : VectorForm) (reg other : Nat) (src : VectorSource) (mask : Option Opmask) :
    List UInt8 :=
  let (x, b) := src.highBits
  [0x62,
   UInt8.ofNat (128 * (1 - high reg) + 64 * (1 - x) + 32 * (1 - b) + 16 * (1 - highest reg) + f.map),
   UInt8.ofNat (0x80 + 8 * (15 - other % 16) + 4 + f.lead),
   UInt8.ofNat (0x40 + 8 * (1 - highest other) + (mask.elim 0 (·.val))),
   f.opcode] ++ src.tail reg

def testZero (dst other : Nat) (src : VectorSource) (mask : Option Opmask) : List UInt8 :=
  vector testZeroForm dst other src mask

def maskOperation (first : Nat) (wide : Nat) (opcode : UInt8) (dst second : Nat) : List UInt8 :=
  [0xc5, UInt8.ofNat (0x80 + 8 * (15 - first % 16) + 4 * wide), opcode, operands 3 dst second]

def maskXnor (dst a b : Nat) : List UInt8 := maskOperation a 1 0x46 dst b

def maskAndNot (dst a b : Nat) : List UInt8 := maskOperation a 1 0x42 dst b

def maskTest (a b : Nat) : List UInt8 := maskOperation 0 0 0x98 a b

-- At most fifteen bytes. A displacement to the pool or of a long jump stands in
-- the last four.
def Operation.encode : Operation → List UInt8
  | .push r => rexHalf 0 r.val ++ [UInt8.ofNat (0x50 + low r.val)]
  | .pop r => rexHalf 0 r.val ++ [UInt8.ofNat (0x58 + low r.val)]
  | .ret => [0xc3]
  | .move dst src => [rexWide dst.val 0 src.val, 0x8b, operands 3 dst.val src.val]
  | .load dst base offset =>
      [rexWide dst.val 0 base.val, 0x8b, operands 1 dst.val base.val, offset.toUInt8]
  | .store base offset src =>
      [rexWide src.val 0 base.val, 0x89, operands 1 src.val base.val, offset.toUInt8]
  | .alu op dst src => [rexWide dst.val 0 src.val, op.opcode, operands 3 dst.val src.val]
  | .aluPool op dst relative =>
      [rexWide dst.val 0 0, op.opcode, operands 0 dst.val relativeOperand] ++ bytesOfInt32 relative
  | .multiply dst src => [rexWide dst.val 0 src.val, 0x0f, 0xaf, operands 3 dst.val src.val]
  | .wideMultiply src => [rexWide 0 0 src.val, 0xf7, operands 3 4 src.val]
  | .signedWideMultiply src => [rexWide 0 0 src.val, 0xf7, operands 3 5 src.val]
  | .shiftedSum dst src shift =>
      [rexWide dst.val src.val dst.val, 0x8d, operands 0 dst.val indexedOperand,
       operands shift.toNat src.val dst.val]
  | .rotateRight dst amount => [rexWide 0 0 dst.val, 0xc1, operands 3 1 dst.val, amount]
  | .xorHalf dst src => rexHalf src.val dst.val ++ [0x31, operands 3 src.val dst.val]
  | .orHalf dst src => rexHalf src.val dst.val ++ [0x09, operands 3 src.val dst.val]
  | .orHalfImmediate dst immediate =>
      rexHalf 0 dst.val ++ [0x83, operands 3 1 dst.val, immediate.toUInt8]
  | .testHalfPool src relative =>
      rexHalf src.val 0 ++ [0x85, operands 0 src.val relativeOperand] ++ bytesOfInt32 relative
  | .jumpIfNonzero relative => [0x75, relative.toUInt8]
  | .jumpIfZero relative => [0x0f, 0x84] ++ bytesOfInt32 relative
  | .jump relative => [0xe9] ++ bytesOfInt32 relative
  | .zeroUpper => [0xc5, 0xf8, 0x77]
  | .lanes op dst a b mask => vector op.form dst.val a.val b mask
  | .shiftLanes op dst src amount mask =>
      vector op.form.1 op.form.2 dst.val (.register src) mask ++ [amount]
  | .moveLanes dst src mask => vector moveForm dst.val 0 src mask
  | .loadLanes dst base offset => vector loadForm dst.val 0 (.memory base offset) none
  | .storeLanes base offset src => vector storeForm src.val 0 (.memory base offset) none
  | .testZeroLanes dst a b mask => testZero dst.val a.val b mask
  | .maskXnor dst a b => Machine.maskXnor dst.val a.val b.val
  | .maskAndNot dst a b => Machine.maskAndNot dst.val a.val b.val
  | .maskTest a b => Machine.maskTest a.val b.val

end ProgramHash.Machine
