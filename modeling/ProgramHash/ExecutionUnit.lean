import ProgramHash.Instruction

namespace ProgramHash

inductive ExecutionUnit where
  | p0 | p1 | p5
  deriving DecidableEq, Repr

structure UnitSet where
  p0 : Bool
  p1 : Bool
  p5 : Bool
  deriving DecidableEq, Repr, Inhabited

namespace UnitSet

def none : UnitSet := ⟨false, false, false⟩

def has (s : UnitSet) : ExecutionUnit → Bool
  | .p0 => s.p0
  | .p1 => s.p1
  | .p5 => s.p5

def single : ExecutionUnit → UnitSet
  | .p0 => ⟨true, false, false⟩
  | .p1 => ⟨false, true, false⟩
  | .p5 => ⟨false, false, true⟩

def union (s t : UnitSet) : UnitSet := ⟨s.p0 || t.p0, s.p1 || t.p1, s.p5 || t.p5⟩

def count (s : UnitSet) : Nat := s.p0.toNat + s.p1.toNat + s.p5.toNat

-- The multiplier sits behind p1, so p1 is taken last.
def preference : List ExecutionUnit := [.p5, .p0, .p1]

def choose (allowed busy : UnitSet) : Option ExecutionUnit :=
  preference.find? fun p => allowed.has p && !busy.has p

def names (s : UnitSet) : List String :=
  (if s.p0 then ["P0"] else []) ++ (if s.p1 then ["P1"] else []) ++ (if s.p5 then ["P5"] else [])

def text (s : UnitSet) : String := String.intercalate "|" s.names

end UnitSet

inductive MicroOps where
  | single (allowed : UnitSet)
  | dual (first second : UnitSet)
  deriving DecidableEq, Repr

namespace MicroOps

def units : MicroOps → List UnitSet
  | .single allowed => [allowed]
  | .dual first second => [first, second]

def subCycles : MicroOps → Nat
  | .single _ => 1
  | .dual _ _ => 2

theorem subCycles_le (ops : MicroOps) : ops.subCycles ≤ 3 := by cases ops <;> simp [subCycles]

-- Units for all parts in a cycle with some units busy. The first part chooses
-- first, and the second sees its unit as busy.
def place (busy : UnitSet) : MicroOps → Option UnitSet
  | .single allowed => (UnitSet.choose allowed busy).map UnitSet.single
  | .dual first second => do
      let p ← UnitSet.choose first busy
      let q ← UnitSet.choose second (busy.union (UnitSet.single p))
      return (UnitSet.single p).union (UnitSet.single q)

end MicroOps

namespace Opcode

def microOps : Opcode → MicroOps
  | .addConst | .sub | .xor | .xorConst => .single ⟨true, true, true⟩
  | .mul => .single ⟨false, true, false⟩
  | .addShift => .single ⟨true, true, false⟩
  | .rotate => .single ⟨true, false, true⟩
  | .umulh | .smulh => .dual ⟨false, true, false⟩ ⟨false, false, true⟩
  | .target | .branch => .dual ⟨true, true, true⟩ ⟨true, true, true⟩

def latency : Opcode → Nat
  | .mul => 3
  | .umulh | .smulh => 4
  | _ => 1

end Opcode

end ProgramHash
