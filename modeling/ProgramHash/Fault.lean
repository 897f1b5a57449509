import ProgramHash.Draw
import ProgramHash.Instruction

namespace ProgramHash

-- Ways of misusing the machine that no generated program shows. Each stops the
-- computation at once.
inductive Fault where
  | branchTakenWithoutTarget
  | branchWithoutTarget
  | placeOutside (size place : Nat)
  | noOptions
  | writerWithoutDestination (instruction : Instruction)
  | outOfReach
  deriving DecidableEq, Repr

def Fault.message : Fault → String
  | .branchTakenWithoutTarget => "Branch taken without a preceding Target"
  | .branchWithoutTarget => "Branch without a preceding Target"
  | .placeOutside size place =>
      "index out of bounds: the len is " ++ toString size ++ " but the index is " ++ toString place
  | .noOptions => "attempt to calculate the remainder with a divisor of zero"
  | .writerWithoutDestination i => i.text ++ " has no destination but was given a writer"
  | .outOfReach => "generated code is far smaller than 2 GiB: TryFromIntError(PosOverflow)"

namespace LaneFile

def laneAt (file : LaneFile) (l : Nat) : Except Fault RegisterFile :=
  if inside : l < 8 then .ok (file.lane ⟨l, inside⟩)
  else .error (.placeOutside 64 (firstPlaceOutside l))

def setLaneAt (file : LaneFile) (l : Nat) (values : RegisterFile) : Except Fault LaneFile :=
  if inside : l < 8 then .ok (file.setLane ⟨l, inside⟩ values)
  else .error (.placeOutside 64 (firstPlaceOutside l))

end LaneFile

def Draw.index {σ : Type} [Draw σ] (count : Nat) (s : σ) : Except Fault (Nat × σ) :=
  let (b, rest) := Draw.byte s
  if count = 0 then .error .noOptions else .ok (b.toNat % count, rest)

end ProgramHash
