import ProgramHash.Bank
import ProgramHash.Word

namespace ProgramHash.Machine

-- The part of the x86-64 instruction set that compiled programs use: integer
-- operations on the sixteen general registers, and 512-bit operations on eight
-- lanes with masks that merge.
abbrev Gpr := Fin 16

namespace Gpr

def rax : Gpr := 0
def rcx : Gpr := 1
def rdx : Gpr := 2
def rbx : Gpr := 3
def rsp : Gpr := 4
def rbp : Gpr := 5
def rsi : Gpr := 6
def rdi : Gpr := 7
def r8 : Gpr := 8
def r9 : Gpr := 9
def r10 : Gpr := 10
def r11 : Gpr := 11
def r12 : Gpr := 12
def r13 : Gpr := 13
def r14 : Gpr := 14
def r15 : Gpr := 15

end Gpr

abbrev Zmm := Fin 32

abbrev Opmask := Fin 8

inductive AluOp where
  | add | sub | xor
  deriving DecidableEq, Repr

inductive LaneOp where
  | add | sub | xor | and | lowProduct | halfProduct
  deriving DecidableEq, Repr

inductive LaneShift where
  | left | right | signedRight | rotateRight
  deriving DecidableEq, Repr

-- The last source of a vector operation. A pool operand is addressed relative
-- to the end of its operation.
inductive VectorSource where
  | register (r : Zmm)
  | pool (relative : Int32)
  | memory (base : Gpr) (offset : Int32)
  deriving DecidableEq, Repr

inductive Operation where
  | push (r : Gpr)
  | pop (r : Gpr)
  | ret
  | move (dst src : Gpr)
  | load (dst base : Gpr) (offset : Int8)
  | store (base : Gpr) (offset : Int8) (src : Gpr)
  | alu (op : AluOp) (dst src : Gpr)
  | aluPool (op : AluOp) (dst : Gpr) (relative : Int32)
  | multiply (dst src : Gpr)
  | wideMultiply (src : Gpr)
  | signedWideMultiply (src : Gpr)
  | shiftedSum (dst src : Gpr) (shift : UInt8)
  | rotateRight (dst : Gpr) (amount : UInt8)
  | xorHalf (dst src : Gpr)
  | orHalf (dst src : Gpr)
  | orHalfImmediate (dst : Gpr) (immediate : Int8)
  | testHalfPool (src : Gpr) (relative : Int32)
  | jumpIfNonzero (relative : Int8)
  | jumpIfZero (relative : Int32)
  | jump (relative : Int32)
  | zeroUpper
  | lanes (op : LaneOp) (dst a : Zmm) (b : VectorSource) (mask : Option Opmask)
  | shiftLanes (op : LaneShift) (dst src : Zmm) (amount : UInt8) (mask : Option Opmask)
  | moveLanes (dst : Zmm) (src : VectorSource) (mask : Option Opmask)
  | loadLanes (dst : Zmm) (base : Gpr) (offset : Int32)
  | storeLanes (base : Gpr) (offset : Int32) (src : Zmm)
  | testZeroLanes (dst : Opmask) (a : Zmm) (b : VectorSource) (mask : Option Opmask)
  | maskXnor (dst a b : Opmask)
  | maskAndNot (dst a b : Opmask)
  | maskTest (a b : Opmask)
  deriving DecidableEq, Repr

end ProgramHash.Machine
