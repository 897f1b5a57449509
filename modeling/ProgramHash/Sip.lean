import ProgramHash.Word

namespace ProgramHash

-- Four words that the SipHash rounds stir. A key is such a state, used as it
-- stands; nothing pads it or mixes constants into it first.
structure SipState where
  v0 : Word
  v1 : Word
  v2 : Word
  v3 : Word
  deriving DecidableEq, Repr, Inhabited

namespace SipState

def ofWords (w : Vector Word 4) : SipState := ⟨w[0], w[1], w[2], w[3]⟩

def words (s : SipState) : Vector Word 4 := #v[s.v0, s.v1, s.v2, s.v3]

def mixFirst (s : SipState) : SipState :=
  let v0 := s.v0 + s.v1
  let v2 := s.v2 + s.v3
  let v1 := Word.rotateLeft s.v1 13 ^^^ v0
  let v3 := Word.rotateLeft s.v3 16 ^^^ v2
  ⟨Word.rotateLeft v0 32, v1, v2, v3⟩

def mixSecond (s : SipState) : SipState :=
  let v2 := s.v2 + s.v1
  let v0 := s.v0 + s.v3
  let v1 := Word.rotateLeft s.v1 17 ^^^ v2
  let v3 := Word.rotateLeft s.v3 21 ^^^ v0
  ⟨v0, v1, Word.rotateLeft v2 32, v3⟩

def round (s : SipState) : SipState := s.mixFirst.mixSecond

def rounds : Nat → SipState → SipState
  | 0, s => s
  | n + 1, s => rounds n s.round

-- One block of the random stream: a round, a tweak, three rounds, and the four
-- words folded into one. The counter enters before and after the first round.
def streamTweak : Word := 0xff

def counterBlock (key : SipState) (counter : Word) : Word :=
  let keyed := { key with v3 := key.v3 ^^^ counter }.round
  let tweaked := { keyed with v0 := keyed.v0 ^^^ counter, v2 := keyed.v2 ^^^ streamTweak }
  let s := rounds 3 tweaked
  s.v0 ^^^ s.v1 ^^^ s.v2 ^^^ s.v3

def lowTweak : Word := 0xee

def lowHalf (key : SipState) (input : Word) : SipState :=
  let keyed := rounds 2 { key with v1 := key.v1 ^^^ lowTweak, v3 := key.v3 ^^^ input }
  rounds 4 { keyed with v0 := keyed.v0 ^^^ input, v2 := keyed.v2 ^^^ lowTweak }

def highTweak : Word := 0xdd

def highHalf (low : SipState) : SipState := rounds 4 { low with v1 := low.v1 ^^^ highTweak }

end SipState

end ProgramHash
