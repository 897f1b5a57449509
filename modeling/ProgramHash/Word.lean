namespace ProgramHash

-- The machine works on 64-bit words. Sums, differences and products wrap;
-- shift and rotation amounts count modulo 64.
abbrev Word := UInt64

namespace Word

def rotateLeft (w amount : Word) : Word := (w <<< amount) ||| (w >>> (64 - amount))

def rotateRight (w amount : Word) : Word := (w >>> amount) ||| (w <<< (64 - amount))

def highProduct (a b : Word) : Word := UInt64.ofNat (a.toNat * b.toNat / 0x10000000000000000)

def signedHighProduct (a b : Word) : Word :=
  UInt64.ofInt (a.toInt64.toInt * b.toInt64.toInt / 0x10000000000000000)

def signExtend (immediate : Int32) : Word := immediate.toInt64.toUInt64

def lowHalf (w : Word) : UInt32 := w.toUInt32

end Word

-- Numbers in memory stand with the least significant byte first.
namespace Bytes

def ofNat : Nat → Nat → List UInt8
  | 0, _ => []
  | count + 1, n => UInt8.ofNat n :: ofNat count (n / 256)

def toNat : List UInt8 → Nat
  | [] => 0
  | b :: rest => b.toNat + 256 * toNat rest

theorem ofNat_length (count n : Nat) : (ofNat count n).length = count := by
  induction count generalizing n with
  | zero => rfl
  | succ count ih => simp [ofNat, ih]

theorem toNat_ofNat (count n : Nat) : toNat (ofNat count n) = n % 1 <<< (8 * count) := by
  induction count generalizing n with
  | zero => simp [ofNat, toNat, Nat.mod_one]
  | succ count ih =>
      have split : n % 1 <<< (8 * (count + 1)) = n % 256 + 256 * (n / 256 % 1 <<< (8 * count)) := by
        rw [Nat.one_shiftLeft, Nat.one_shiftLeft, Nat.mul_succ, Nat.pow_add, Nat.mul_comm, Nat.mod_mul]
      simp [ofNat, toNat, ih, split]

def ofWord (w : Word) : List UInt8 := ofNat 8 w.toNat

def toWord (bytes : List UInt8) : Word := UInt64.ofNat (toNat bytes)

theorem toWord_ofWord (w : Word) : toWord (ofWord w) = w := by
  have bound := w.toNat_lt
  simp only [toWord, ofWord, toNat_ofNat]
  rw [Nat.mod_eq_of_lt (by simpa using bound)]
  exact UInt64.ofNat_toNat

end Bytes

end ProgramHash
