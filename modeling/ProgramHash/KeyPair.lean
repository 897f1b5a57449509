import ProgramHash.Blake2b

namespace ProgramHash

-- A seed of any length stands for two keys: the first half of its digest draws
-- the program, the second fills and folds the registers.
structure KeyPair where
  program : SipState
  register : SipState
  deriving DecidableEq, Repr

def KeyPair.ofSeed (seed : Array UInt8) : KeyPair :=
  let d := Blake2b.digest seed
  ⟨⟨d.get 0, d.get 1, d.get 2, d.get 3⟩, ⟨d.get 4, d.get 5, d.get 6, d.get 7⟩⟩

end ProgramHash
