import ProgramHash.Bank
import ProgramHash.Sip

namespace ProgramHash

abbrev Register := Fin 8

namespace Register

def all : List Register := List.finRange 8

def name (r : Register) : String := "r" ++ toString r.val

end Register

structure RegisterSet where
  members : List Register
  deriving DecidableEq, Repr

namespace RegisterSet

def ofPredicate (p : Register → Bool) : RegisterSet := ⟨Register.all.filter p⟩

def ofMask (mask : UInt8) : RegisterSet :=
  ofPredicate fun r => mask.toNat.testBit r.val

def size (s : RegisterSet) : Nat := s.members.length

def nth? (s : RegisterSet) (n : Nat) : Option Register := s.members[n]?

def filter (s : RegisterSet) (p : Register → Bool) : RegisterSet := ⟨s.members.filter p⟩

end RegisterSet

abbrev RegisterFile := Bank Word 8

namespace RegisterFile

def ofNonce (key : SipState) (nonce : Word) : RegisterFile :=
  let low := key.lowHalf nonce
  let high := low.highHalf
  #v[low.v0, low.v1, low.v2, low.v3, high.v0, high.v1, high.v2, high.v3]

-- The halves are folded apart, each with two words of the key added in the
-- places a round reads first and last, and only then combined.
def digest (key : SipState) (file : RegisterFile) : Word :=
  let low : SipState := ⟨file.get 0 + key.v0, file.get 1 + key.v1, file.get 2, file.get 3⟩
  let high : SipState := ⟨file.get 4, file.get 5, file.get 6 + key.v2, file.get 7 + key.v3⟩
  low.round.v0 ^^^ high.round.v0

end RegisterFile

-- Eight register files side by side: word 8 * register + lane, so that one
-- register of every lane lies in a row.
abbrev LaneFile := Bank Word 64

namespace LaneFile

def zero : LaneFile := .filled 0

def place (r : Register) (lane : Fin 8) : Fin 64 := ⟨8 * r.val + lane.val, by omega⟩

def lane (file : LaneFile) (l : Fin 8) : RegisterFile := .ofFn fun r => file[place r l]

def setLane (file : LaneFile) (l : Fin 8) (values : RegisterFile) : LaneFile :=
  Register.all.foldl (fun file r => file.set (place r l) values[r]) file

def ofLanes (lanes : Bank RegisterFile 8) : LaneFile :=
  (List.finRange 8).foldl (fun file l => file.setLane l lanes[l]) zero

def firstPlaceOutside (lane : Nat) : Nat :=
  lane + 8 * ((64 - lane + 7) / 8)

end LaneFile

end ProgramHash
