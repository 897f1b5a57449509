import ProgramHash.Hex
import ProgramHash.Register

namespace ProgramHash

inductive Opcode where
  | mul | umulh | smulh | addShift | addConst | sub | xor | xorConst | rotate | target | branch
  deriving DecidableEq, Repr

namespace Opcode

def all : List Opcode :=
  [.mul, .umulh, .smulh, .addShift, .addConst, .sub, .xor, .xorConst, .rotate, .target, .branch]

def isMultiplication : Opcode → Bool
  | .mul | .umulh | .smulh => true
  | _ => false

-- A product's upper half may be written over its own source. Where equal
-- operands would cancel or double, they are kept apart.
def allowsSourceAsDestination : Opcode → Bool
  | .addShift | .mul | .sub | .xor => false
  | _ => true

end Opcode

inductive Instruction where
  | mul (dst src : Register)
  | umulh (dst src : Register)
  | smulh (dst src : Register)
  | addShift (dst src : Register) (shift : UInt8)
  | addConst (dst : Register) (immediate : Int32)
  | sub (dst src : Register)
  | xor (dst src : Register)
  | xorConst (dst : Register) (immediate : Int32)
  | rotate (dst : Register) (amount : UInt8)
  | target
  | branch (mask : UInt32)
  deriving DecidableEq, Repr, Inhabited

namespace Instruction

def opcode : Instruction → Opcode
  | .mul .. => .mul
  | .umulh .. => .umulh
  | .smulh .. => .smulh
  | .addShift .. => .addShift
  | .addConst .. => .addConst
  | .sub .. => .sub
  | .xor .. => .xor
  | .xorConst .. => .xorConst
  | .rotate .. => .rotate
  | .target => .target
  | .branch _ => .branch

def destination? : Instruction → Option Register
  | .mul d _ | .umulh d _ | .smulh d _ | .addShift d _ _ | .addConst d _ | .sub d _ | .xor d _
  | .xorConst d _ | .rotate d _ => some d
  | .target | .branch _ => none

def source? : Instruction → Option Register
  | .mul _ s | .umulh _ s | .smulh _ s | .addShift _ s _ | .sub _ s | .xor _ s => some s
  | .addConst .. | .xorConst .. | .rotate .. | .target | .branch _ => none

def operand : Instruction → UInt32
  | .addShift _ _ shift => shift.toUInt32
  | .addConst _ immediate | .xorConst _ immediate => immediate.toUInt32
  | .rotate _ amount => amount.toUInt32
  | .branch mask => mask
  | .mul .. | .umulh .. | .smulh .. | .sub .. | .xor .. | .target => 0

def decimal (n : Int) : String :=
  if n < 0 then "-" ++ toString n.natAbs else toString n.natAbs

def text : Instruction → String
  | .mul d s => "mul " ++ d.name ++ ", " ++ s.name
  | .umulh d s => "umulh " ++ d.name ++ ", " ++ s.name
  | .smulh d s => "smulh " ++ d.name ++ ", " ++ s.name
  | .addShift d s shift => "add " ++ d.name ++ ", " ++ s.name ++ " << " ++ toString shift.toNat
  | .addConst d immediate => "add " ++ d.name ++ ", " ++ decimal immediate.toInt
  | .sub d s => "sub " ++ d.name ++ ", " ++ s.name
  | .xor d s => "xor " ++ d.name ++ ", " ++ s.name
  | .xorConst d immediate => "xor " ++ d.name ++ ", " ++ decimal immediate.toInt
  | .rotate d amount => "ror " ++ d.name ++ ", " ++ toString amount.toNat
  | .target => "target:"
  | .branch mask => "branch 0x" ++ String.ofList (Hex.fixed 8 mask.toNat)

def listing (program : List Instruction) : String :=
  String.join (program.map fun i => i.text ++ "\n")

end Instruction

end ProgramHash
