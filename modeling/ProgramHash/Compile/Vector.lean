import ProgramHash.Interpreter
import ProgramHash.Machine.Assembly

namespace ProgramHash.VectorCode

open Machine

-- Eight hashes in lockstep, a lane for each. Lanes part only at branches: the
-- instructions since the target are emitted a second time, and only the lanes
-- that take the branch keep the results. zmm0 to zmm7 hold the registers, zmm8
-- the latest upper product, zmm9 to zmm13 are scratch, and zmm14 selects lower
-- halves. k2 marks the lanes that may still branch, k1 those that do.
def home (r : Register) : Zmm := ⟨r.val, by omega⟩

def file : Gpr := Gpr.rdi

def product : Zmm := 8

def lowerHalves : Zmm := 14

def taking : Opmask := 1

def mayBranch : Opmask := 2

def fileOffset (r : Register) : Int32 := Int32.ofNat (64 * r.val)

def plain (op : LaneOp) (dst a b : Zmm) : Operation := .lanes op dst a (.register b) none

def shifted (op : LaneShift) (dst src : Zmm) (amount : UInt8) : Operation :=
  .shiftLanes op dst src amount none

-- The upper half of a product from four products of halves. With a = a₁·2³² + a₀
-- and b alike, zmm10 comes to hold a₁b₁, zmm9 a₁b₀, zmm12 a₀b₁ and zmm11 a₀b₀;
-- the sum of the middle parts carries into the upper half.
def unsignedProduct (a b : Zmm) : List Operation :=
  [shifted .right 9 a 32, shifted .right 10 b 32,
   plain .halfProduct 11 a b, plain .halfProduct 12 a 10,
   plain .halfProduct 10 9 10, plain .halfProduct 9 9 b,
   shifted .right 11 11 32, plain .and 13 12 lowerHalves, plain .add 11 11 13,
   plain .and 13 9 lowerHalves, plain .add 11 11 13, shifted .right 11 11 32,
   shifted .right 12 12 32, shifted .right 9 9 32,
   plain .add 10 10 12, plain .add 10 10 9, plain .add 10 10 11]

-- A negative factor read as unsigned adds the other factor once too often.
def signCorrection (negative other : Zmm) : List Operation :=
  [shifted .signedRight 13 negative 63, plain .and 13 13 other, plain .sub 10 10 13]

def upperProduct (a b : Zmm) (signed : Bool) (mask : Option Opmask) : List Operation :=
  unsignedProduct a b ++
    (if signed then signCorrection a b ++ signCorrection b a else []) ++
    [.moveLanes a (.register 10) mask, .moveLanes product (.register 10) mask]

def emitInstruction (a : Assembly) (i : Instruction) (mask : Option Opmask) : Assembly :=
  let binary (op : LaneOp) (d s : Register) : Assembly :=
    a.emitAll [.lanes op (home d) (home d) (.register (home s)) mask]
  let constant (op : LaneOp) (d : Register) (k : Int32) : Assembly :=
    a.emitWithConstant (Operation.lanes op (home d) (home d) (.pool 0) mask).encode
      (Word.signExtend k)
  match i with
  | .mul d s => binary .lowProduct d s
  | .umulh d s => a.emitAll (upperProduct (home d) (home s) false mask)
  | .smulh d s => a.emitAll (upperProduct (home d) (home s) true mask)
  | .addShift d s shift =>
      a.emitAll [shifted .left 9 (home s) shift, .lanes .add (home d) (home d) (.register 9) mask]
  | .addConst d k => constant .add d k
  | .sub d s => binary .sub d s
  | .xor d s => binary .xor d s
  | .xorConst d k => constant .xor d k
  | .rotate d amount => a.emitAll [.shiftLanes .rotateRight (home d) (home d) amount mask]
  | .target | .branch _ => a

def emitBranch (a : Assembly) (mask : UInt32) (body : List Instruction) :
    Except Fault Assembly :=
  let tested := a.emitWithConstant
    (Operation.testZeroLanes taking product (.pool 0) (some mayBranch)).encode mask.toUInt64
  let (guarded, skip) := (tested.emit (Operation.maskTest taking taking).encode).emitJump
    (Operation.jumpIfZero 0).encode
  let replayed := body.foldl (fun a i => emitInstruction a i (some taking)) guarded
  (replayed.emit (Operation.maskAndNot mayBranch taking mayBranch).encode).bind skip

def prologue (a : Assembly) : Assembly :=
  let loaded := a.emitAll (Register.all.map fun r => .loadLanes (home r) file (fileOffset r))
  let cleared := loaded.emitAll [plain .xor product product product]
  let selecting := cleared.emitWithConstant
    (Operation.moveLanes lowerHalves (.pool 0) none).encode 0xffffffff
  selecting.emitAll [.maskXnor mayBranch mayBranch mayBranch]

def epilogue : List Operation :=
  Register.all.map (fun r => .storeLanes file (fileOffset r) (home r)) ++ [.zeroUpper, .ret]

structure State where
  assembly : Assembly
  target : Option Nat
  deriving DecidableEq, Repr

def emit (program : Array Instruction) (s : State) (item : Instruction × Nat) :
    Except Fault State :=
  match item with
  | (.target, index) => .ok { s with target := some index }
  | (.branch mask, index) =>
      match s.target with
      | some target =>
          let body := (program.extract (target + 1) index).toList
          (emitBranch s.assembly mask body).map fun assembly => { s with assembly }
      | none => .error .branchWithoutTarget
  | (i, _) => .ok { s with assembly := emitInstruction s.assembly i none }

def compile (p : Program) : Except Fault (Array UInt8) := do
  let s ← p.toList.zipIdx.foldlM (emit p.instructions) ⟨prologue (.empty 8), none⟩
  (s.assembly.emitAll epilogue).finish

end ProgramHash.VectorCode
