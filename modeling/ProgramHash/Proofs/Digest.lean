import ProgramHash.Proofs.Words
import ProgramHash.Register

-- What a digest tells of the registers it is made of. Four of them it only adds up,
-- and two are added to a word that is then stirred in, so that no change of them is
-- lost. The two that are stirred in count twice, rotated and summed, and a change of
-- one bit is lost only if it turns all 64 bits of both.
namespace ProgramHash

namespace Word

def stirred (x v : Word) : Word := rotateLeft v 16 ^^^ (x + v)

theorem stirred_left_inj {x y v : Word} : stirred x v = stirred y v ↔ x = y := by
  simp [stirred]

section Overlap

variable {i : Nat} {words sums : Nat → Prop} (inside : i < 64) (word : Run i words)
  (sum : Run i sums) (agree : ∀ j < 64, (words ((j + 48) % 64) ↔ sums j))
include inside word sum agree

theorem overlap_low : i < 16 := by
  refine Nat.lt_of_not_le fun late => ?_
  have source : (i + 48) % 64 = i - 16 := by omega
  have turned : words (i - 16) := by
    rw [← source]
    exact (agree i inside).mpr sum.starts
  have := word.later (by omega) turned
  omega

-- The sum turns at its first bit, which the word has 48 bits above its own. From there
-- the top of the sum follows, and from the sum the top of the word.
theorem overlap_top : words 63 ∧ sums 63 := by
  have low := overlap_low inside word sum agree
  have source : (i + 48) % 64 = i + 48 := by omega
  have across : words (i + 48) := by
    rw [← source]
    exact (agree i inside).mpr sum.starts
  have top : sums 63 := (agree 63 (by decide)).mp
    (word.unbroken (by omega) (by omega) (by omega) across)
  exact ⟨(agree 15 (by decide)).mpr (sum.unbroken (by omega) (by omega) (by decide) top), top⟩

theorem overlap_first : i = 0 := by
  have low := overlap_low inside word sum agree
  have top := (overlap_top inside word sum agree).1
  refine Nat.eq_zero_of_not_pos fun positive => ?_
  have source : (i - 1 + 48) % 64 = i + 47 := by omega
  have turned : sums (i - 1) := by
    refine (agree (i - 1) (by omega)).mp ?_
    rw [source]
    exact word.unbroken (by omega) (by omega) (by decide) top
  have := sum.later (by omega) turned
  omega

theorem overlap_all {j : Nat} (below : j < 64) : words j ∧ sums j := by
  have first := overlap_first inside word sum agree
  have top := overlap_top inside word sum agree
  exact ⟨word.unbroken (by omega) (by omega) (by decide) top.1,
    sum.unbroken (by omega) (by omega) (by decide) top.2⟩

end Overlap

theorem stirred_eq_iff_turns (x a : Word) (i : Fin 64) :
    stirred x (a + place i) = stirred x a ↔
      ∀ j < 64, (Turns a i ((j + 48) % 64) ↔ Turns (x + a) i j) := by
  rw [eq_iff_bits]
  refine forall₂_congr fun j below => ?_
  have rotated (w : Word) : (rotateLeft w 16).bit j = w.bit ((j + 48) % 64) :=
    bit_rotateLeft (by decide) (by decide) w below
  rw [stirred, stirred, bit_xor, bit_xor, rotated, rotated, ← UInt64.add_assoc, Turns, Turns]
  generalize (a + place i).bit ((j + 48) % 64) = p
  generalize a.bit ((j + 48) % 64) = q
  generalize (x + a + place i).bit j = r
  generalize (x + a).bit j = s
  revert p q r s
  decide

theorem stirred_add_place_iff (x a : Word) (i : Fin 64) :
    stirred x (a + place i) = stirred x a ↔ i = 0 ∧ Polar (a + 1) ∧ Polar x := by
  have all : stirred x (a + place i) = stirred x a ↔
      i = 0 ∧ (∀ j < 64, Turns a 0 j) ∧ (∀ j < 64, Turns (x + a) 0 j) := by
    rw [stirred_eq_iff_turns]
    constructor
    · intro agree
      have first := overlap_first i.isLt (turns_run a i) (turns_run (x + a) i) agree
      obtain rfl : i = 0 := Fin.ext first
      have full {j : Nat} (below : j < 64) : Turns a 0 j ∧ Turns (x + a) 0 j :=
        overlap_all (by decide) (turns_run a 0) (turns_run (x + a) 0) agree below
      exact ⟨rfl, fun j below => (full below).1, fun j below => (full below).2⟩
    · rintro ⟨rfl, words, sums⟩ j below
      exact iff_of_true (words _ (Nat.mod_lt _ (by decide))) (sums j below)
  rw [all, turns_all_iff, turns_all_iff, UInt64.add_assoc]
  exact and_congr_right fun _ => and_congr_right fun polar => polar_add polar

theorem stirred_flip_iff (x w k : Word) (i : Fin 64) :
    stirred x (w.flip i + k) = stirred x (w + k) ↔ i = 0 ∧ Polar ((w ||| 1) + k) ∧ Polar x := by
  obtain ⟨low, high, apart⟩ := flip_apart w i
  have moved : low + place i + k = low + k + place i := by ac_rfl
  have step : stirred x (low + place i + k) = stirred x (low + k) ↔
      i = 0 ∧ Polar ((w ||| 1) + k) ∧ Polar x := by
    rw [moved, stirred_add_place_iff]
    refine and_congr_right fun first => ?_
    subst first
    rw [show (1 : Word) = place 0 from rfl, ← moved, high]
  rw [← step]
  rcases apart with ⟨rfl, above⟩ | ⟨rfl, above⟩
  · rw [above]
  · rw [← above]
    exact eq_comm

theorem not_polar_odd (w : Word) : ¬ Polar (w ||| 1) := by
  have odd : (w ||| 1).bit 0 = true := by
    rw [show (1 : Word) = place 0 from rfl, bit_or_place]
    simp
  rintro (even | even) <;> rw [even] at odd <;> exact absurd odd (by decide)

theorem stirred_flip_ne (x w : Word) (i : Fin 64) : stirred x (w.flip i) ≠ stirred x w := by
  intro same
  have agree : stirred x (w.flip i + 0) = stirred x (w + 0) := by
    rwa [UInt64.add_zero, UInt64.add_zero]
  have polar := ((stirred_flip_iff x w 0 i).mp agree).2.1
  rw [UInt64.add_zero] at polar
  exact not_polar_odd w polar

end Word

open Word

theorem SipState.round_first (s : SipState) :
    s.round.v0 = rotateLeft (s.v0 + s.v1) 32 + stirred s.v2 s.v3 := rfl

namespace RegisterFile

theorem digest_eq (key : SipState) (file : RegisterFile) :
    digest key file =
      (rotateLeft (file[(0 : Register)] + key.v0 + (file[(1 : Register)] + key.v1)) 32 +
          stirred file[(2 : Register)] file[(3 : Register)]) ^^^
        (rotateLeft (file[(4 : Register)] + file[(5 : Register)]) 32 +
          stirred (file[(6 : Register)] + key.v2) (file[(7 : Register)] + key.v3)) := by
  rw [digest, SipState.round_first, SipState.round_first]
  rfl

def flipped (file : RegisterFile) (r : Register) (i : Fin 64) : RegisterFile :=
  file.set r (file[r].flip i)

theorem digest_set_iff (key : SipState) (file : RegisterFile) {r : Register}
    (plain : r ∈ ([0, 1, 2, 4, 5, 6] : List Register)) (w : Word) :
    digest key (file.set r w) = digest key file ↔ w = file[r] := by
  have half {v w : Word} : rotateLeft v 32 = rotateLeft w 32 ↔ v = w :=
    rotateLeft_inj (by decide) (by decide)
  simp only [List.mem_cons, List.not_mem_nil, or_false] at plain
  rcases plain with rfl | rfl | rfl | rfl | rfl | rfl <;>
    simp [digest_eq, half, stirred_left_inj]

theorem digest_flip_third (key : SipState) (file : RegisterFile) (i : Fin 64) :
    digest key (file.flipped 3 i) ≠ digest key file := by
  simp [digest_eq, flipped, stirred_flip_ne]

theorem digest_flip_last (key : SipState) (file : RegisterFile) (i : Fin 64) :
    digest key (file.flipped 7 i) = digest key file ↔
      i = 0 ∧ Polar ((file[(7 : Register)] ||| 1) + key.v3) ∧ Polar (file[(6 : Register)] + key.v2) := by
  simp [digest_eq, flipped, stirred_flip_iff]

-- The digest tells every other value of the registers that are not stirred in, and every
-- flip of the others but that of the last bit of r7 at the edge of the words.
theorem digest_reacts_to_registers (key : SipState) (file : RegisterFile) :
    (∀ r ∈ ([0, 1, 2, 4, 5, 6] : List Register), ∀ w, w ≠ file[r] →
        digest key (file.set r w) ≠ digest key file) ∧
      (∀ i, digest key (file.flipped 3 i) ≠ digest key file) ∧
      (∀ i, i ≠ 0 → digest key (file.flipped 7 i) ≠ digest key file) ∧
      (digest key (file.flipped 7 0) = digest key file ↔
        Polar ((file[(7 : Register)] ||| 1) + key.v3) ∧ Polar (file[(6 : Register)] + key.v2)) := by
  refine ⟨?_, digest_flip_third key file, ?_, ?_⟩
  · intro r plain w other same
    exact other ((digest_set_iff key file plain w).mp same)
  · intro i upper same
    exact upper ((digest_flip_last key file i).mp same).1
  · simpa using digest_flip_last key file 0

def edgeKey : SipState := ⟨1, 2, 3, 0xffffffffffffffff⟩

def edgeFile : RegisterFile := #v[1, 2, 3, 4, 5, 6, 0x7ffffffffffffffd, 0]

theorem edge_flip_lost :
    digest edgeKey (edgeFile.flipped 7 0) = digest edgeKey edgeFile ∧
      digest edgeKey (edgeFile.flipped 7 1) ≠ digest edgeKey edgeFile ∧
      digest edgeKey (edgeFile.set 0 0) ≠ digest edgeKey edgeFile := by
  obtain ⟨set, _, upper, last⟩ := digest_reacts_to_registers edgeKey edgeFile
  exact ⟨last.mpr (by decide), upper 1 (by decide), set 0 (by decide) 0 (by decide)⟩

end RegisterFile

end ProgramHash
