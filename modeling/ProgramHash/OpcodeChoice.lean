import ProgramHash.Draw
import ProgramHash.ExecutionUnit

namespace ProgramHash

-- A position is first tried with its usual opcodes. Where these are the plain ones a
-- retry draws from the operations with a constant, and elsewhere from the same again.
inductive Pass where
  | first | retry
  deriving DecidableEq, Repr

inductive OpcodeClass where
  | target | branch | mul | wideMul | normal | immediate
  deriving DecidableEq, Repr

namespace OpcodeClass

def period : Nat := 36

-- The classes repeat with a period of twelve cycles. Each cycle starts with a
-- multiply, and one period holds one target and one branch.
def ofCursor (cursor : Nat) (pass : Pass) : OpcodeClass :=
  let place := cursor % period
  if place = 1 then .target
  else if place = 19 then .branch
  else if place = 12 ∨ place = 24 then .wideMul
  else if place % 3 = 0 then .mul
  else match pass with
    | .first => .normal
    | .retry => .immediate

def normalOpcodes : Vector Opcode 8 :=
  #v[.rotate, .xorConst, .addConst, .addConst, .sub, .xor, .xorConst, .addShift]

def immediateOpcodes : Vector Opcode 4 := #v[.rotate, .xorConst, .addConst, .addConst]

def wideOpcodes : Vector Opcode 2 := #v[.smulh, .umulh]

def draw {σ : Type} [Draw σ] (c : OpcodeClass) (s : σ) : Opcode × σ :=
  match c with
  | .target => (.target, s)
  | .branch => (.branch, s)
  | .mul => (.mul, s)
  | .wideMul => Draw.pick wideOpcodes s
  | .normal => Draw.pick normalOpcodes s
  | .immediate => Draw.pick immediateOpcodes s

end OpcodeClass

def Opcode.mayFollow (proposed : Opcode) : Option Opcode → Bool
  | none => true
  | some previous =>
      match proposed with
      | .addConst | .xor | .xorConst | .rotate => previous ≠ proposed
      | .addShift | .sub => previous ≠ .addShift ∧ previous ≠ .sub
      | .mul | .umulh | .smulh | .target | .branch => true

end ProgramHash
