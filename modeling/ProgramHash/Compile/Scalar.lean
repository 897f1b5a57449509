import ProgramHash.Interpreter
import ProgramHash.Machine.Assembly

namespace ProgramHash.ScalarCode

open Machine

-- One hash at a time. The registers r0 to r7 live in r8 to r15, the argument
-- points at their file, rdx holds the latest upper product, rax is scratch, and
-- esi is all ones once the branch has been taken.
def home (r : Register) : Gpr := ⟨8 + r.val, by omega⟩

def file : Gpr := Gpr.rdi

def product : Gpr := Gpr.rdx

def branched : Gpr := Gpr.rsi

def scratch : Gpr := Gpr.rax

def saved : List Gpr := [Gpr.r12, Gpr.r13, Gpr.r14, Gpr.r15]

def fileOffset (r : Register) : Int8 := Int8.ofNat (8 * r.val)

structure State where
  assembly : Assembly
  target : Option Nat
  deriving DecidableEq, Repr

def prologue : List Operation :=
  saved.map .push ++ Register.all.map (fun r => .load (home r) file (fileOffset r)) ++
    [.xorHalf product product, .xorHalf branched branched]

def epilogue : List Operation :=
  Register.all.map (fun r => .store file (fileOffset r) (home r)) ++
    saved.reverse.map .pop ++ [.ret]

def takeBranchSize : Int8 := 8

-- A taken branch makes the product all ones from then on where branches look at
-- it, so that no mask meets it in zero again.
def emitBranch (a : Assembly) (mask : UInt32) (target : Nat) : Except Fault Assembly :=
  let tested := (a.emit (Operation.orHalf product branched).encode).emitWithConstant
    (Operation.testHalfPool product 0).encode mask.toUInt64
  let guarded := tested.emitAll [.jumpIfNonzero takeBranchSize, .orHalfImmediate branched (-1)]
  let (jumping, field) := guarded.emitJump (Operation.jump 0).encode
  jumping.bindTo field target

def emit (s : State) (i : Instruction) : Except Fault State :=
  let put (ops : List Operation) : Except Fault State :=
    .ok { s with assembly := s.assembly.emitAll ops }
  let putConstant (op : Operation) (value : Word) : Except Fault State :=
    .ok { s with assembly := s.assembly.emitWithConstant op.encode value }
  match i with
  | .mul d r => put [.multiply (home d) (home r)]
  | .umulh d r => put [.move scratch (home d), .wideMultiply (home r), .move (home d) product]
  | .smulh d r =>
      put [.move scratch (home d), .signedWideMultiply (home r), .move (home d) product]
  | .addShift d r shift => put [.shiftedSum (home d) (home r) shift]
  | .addConst d k => putConstant (.aluPool .add (home d) 0) (Word.signExtend k)
  | .sub d r => put [.alu .sub (home d) (home r)]
  | .xor d r => put [.alu .xor (home d) (home r)]
  | .xorConst d k => putConstant (.aluPool .xor (home d) 0) (Word.signExtend k)
  | .rotate d amount => put [.rotateRight (home d) amount]
  | .target => .ok { s with target := some s.assembly.offset }
  | .branch mask =>
      match s.target with
      | some target =>
          (emitBranch s.assembly mask target).map fun assembly => { s with assembly }
      | none => .error .branchWithoutTarget

def compile (p : Program) : Except Fault (Array UInt8) := do
  let s ← p.toList.foldlM emit ⟨(Assembly.empty 1).emitAll prologue, none⟩
  (s.assembly.emitAll epilogue).finish

end ProgramHash.ScalarCode
