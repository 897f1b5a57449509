import Mathlib.Logic.Function.Basic
import ProgramHash.Proofs.Words
import ProgramHash.Register

-- Rounds taken back. A round adds one word to another, rotates a word or stirs one word
-- into another, and each time the word that it takes from is still there afterwards. So
-- the steps can be undone in the reverse order, and with them all that a register file
-- makes of its key.
namespace ProgramHash

theorem Word.xor_xor_cancel (v w : Word) : v ^^^ w ^^^ w = v := by
  rw [UInt64.xor_assoc, UInt64.xor_self, UInt64.xor_zero]

namespace SipState

-- The first half of a round undone. The sums come last, since both words they were made
-- of have to be there again.
def unmixFirst (s : SipState) : SipState :=
  let v0 := Word.rotateRight s.v0 32
  let v1 := Word.rotateRight (s.v1 ^^^ v0) 13
  let v3 := Word.rotateRight (s.v3 ^^^ s.v2) 16
  ⟨v0 - v1, v1, s.v2 - v3, v3⟩

def unmixSecond (s : SipState) : SipState :=
  let v2 := Word.rotateRight s.v2 32
  let v1 := Word.rotateRight (s.v1 ^^^ v2) 17
  let v3 := Word.rotateRight (s.v3 ^^^ s.v0) 21
  ⟨s.v0 - v3, v1, v2 - v1, v3⟩

theorem unmixFirst_mixFirst (s : SipState) : s.mixFirst.unmixFirst = s := by
  simp (disch := decide) only [mixFirst, unmixFirst, Word.rotateRight_rotateLeft,
    Word.xor_xor_cancel, UInt64.add_sub_cancel]

theorem mixFirst_unmixFirst (s : SipState) : s.unmixFirst.mixFirst = s := by
  simp (disch := decide) only [mixFirst, unmixFirst, Word.rotateLeft_rotateRight,
    Word.xor_xor_cancel, UInt64.sub_add_cancel]

theorem unmixSecond_mixSecond (s : SipState) : s.mixSecond.unmixSecond = s := by
  simp (disch := decide) only [mixSecond, unmixSecond, Word.rotateRight_rotateLeft,
    Word.xor_xor_cancel, UInt64.add_sub_cancel]

theorem mixSecond_unmixSecond (s : SipState) : s.unmixSecond.mixSecond = s := by
  simp (disch := decide) only [mixSecond, unmixSecond, Word.rotateLeft_rotateRight,
    Word.xor_xor_cancel, UInt64.sub_add_cancel]

theorem mixFirst_bijective : Function.Bijective mixFirst :=
  Function.bijective_iff_has_inverse.mpr ⟨unmixFirst, unmixFirst_mixFirst, mixFirst_unmixFirst⟩

theorem mixSecond_bijective : Function.Bijective mixSecond :=
  Function.bijective_iff_has_inverse.mpr ⟨unmixSecond, unmixSecond_mixSecond, mixSecond_unmixSecond⟩

theorem round_bijective : Function.Bijective round := mixSecond_bijective.comp mixFirst_bijective

theorem rounds_bijective : ∀ n, Function.Bijective (rounds n)
  | 0 => Function.bijective_id
  | n + 1 => (rounds_bijective n).comp round_bijective

def stir (tweak s : SipState) : SipState :=
  ⟨s.v0 ^^^ tweak.v0, s.v1 ^^^ tweak.v1, s.v2 ^^^ tweak.v2, s.v3 ^^^ tweak.v3⟩

theorem stir_stir (tweak s : SipState) : stir tweak (stir tweak s) = s := by
  simp only [stir, Word.xor_xor_cancel]

theorem stir_bijective (tweak : SipState) : Function.Bijective (stir tweak) :=
  Function.Involutive.bijective (stir_stir tweak)

theorem lowHalf_eq (key : SipState) (input : Word) :
    key.lowHalf input =
      rounds 4 (stir ⟨input, 0, lowTweak, 0⟩ (rounds 2 (stir ⟨0, lowTweak, 0, input⟩ key))) := by
  simp [lowHalf, stir]

theorem highHalf_eq (low : SipState) : low.highHalf = rounds 4 (stir ⟨0, highTweak, 0, 0⟩ low) := by
  simp [highHalf, stir]

theorem lowHalf_bijective (input : Word) : Function.Bijective fun key => lowHalf key input := by
  have keyed := (rounds_bijective 2).comp (stir_bijective ⟨0, lowTweak, 0, input⟩)
  have tweaked := (stir_bijective ⟨input, 0, lowTweak, 0⟩).comp keyed
  rw [show (fun key => lowHalf key input) = _ from funext fun key => lowHalf_eq key input]
  exact (rounds_bijective 4).comp tweaked

theorem highHalf_bijective : Function.Bijective highHalf := by
  rw [show highHalf = _ from funext highHalf_eq]
  exact (rounds_bijective 4).comp (stir_bijective _)

end SipState

namespace RegisterFile

def lower (file : RegisterFile) : SipState := ⟨file.get 0, file.get 1, file.get 2, file.get 3⟩

def upper (file : RegisterFile) : SipState := ⟨file.get 4, file.get 5, file.get 6, file.get 7⟩

theorem lower_ofNonce (key : SipState) (nonce : Word) : (ofNonce key nonce).lower = key.lowHalf nonce :=
  rfl

theorem upper_ofNonce (key : SipState) (nonce : Word) :
    (ofNonce key nonce).upper = (key.lowHalf nonce).highHalf := rfl

-- Nothing of a key is lost in the registers that it fills. The lower half alone tells
-- the key, and the upper half is the lower one over again, put differently in a way
-- that is the same for every key and nonce.
theorem registers_keep_key :
    Function.Bijective SipState.round ∧
      (∀ n, Function.Bijective (SipState.rounds n)) ∧
      (∀ nonce, Function.Bijective fun key => (ofNonce key nonce).lower) ∧
      (∀ nonce, Function.Injective fun key => ofNonce key nonce) ∧
      ∃ raised : SipState → SipState, Function.Bijective raised ∧
        ∀ key nonce, (ofNonce key nonce).upper = raised (ofNonce key nonce).lower := by
  have keyed (nonce : Word) : Function.Bijective fun key => (ofNonce key nonce).lower :=
    SipState.lowHalf_bijective nonce
  refine ⟨SipState.round_bijective, SipState.rounds_bijective, keyed, fun nonce one two same => ?_,
    SipState.highHalf, SipState.highHalf_bijective, fun key nonce => ?_⟩
  · exact (keyed nonce).injective (congrArg lower same)
  · rw [upper_ofNonce, lower_ofNonce]

end RegisterFile

end ProgramHash
