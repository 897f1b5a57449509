import ProgramHash.Bank
import ProgramHash.Sip

namespace ProgramHash.Blake2b

-- BLAKE2b with a 64-byte digest and no key. The message is cut into blocks of
-- 128 bytes, the last one filled up with zeros; an empty message is one block.
def initialVector : Vector Word 8 := #v[
  0x6a09e667f3bcc908, 0xbb67ae8584caa73b, 0x3c6ef372fe94f82b, 0xa54ff53a5f1d36f1,
  0x510e527fade682d1, 0x9b05688c2b3e6c1f, 0x1f83d9abfb41bd6b, 0x5be0cd19137e2179]

def permutations : Vector (Vector (Fin 16) 16) 10 := #v[
  #v[0, 1, 2, 3, 4, 5, 6, 7, 8, 9, 10, 11, 12, 13, 14, 15],
  #v[14, 10, 4, 8, 9, 15, 13, 6, 1, 12, 0, 2, 11, 7, 5, 3],
  #v[11, 8, 12, 0, 5, 2, 15, 13, 10, 14, 3, 6, 7, 1, 9, 4],
  #v[7, 9, 3, 1, 13, 12, 11, 14, 2, 6, 5, 10, 4, 0, 15, 8],
  #v[9, 0, 5, 7, 2, 4, 10, 15, 14, 1, 11, 12, 6, 8, 3, 13],
  #v[2, 12, 6, 10, 0, 11, 8, 3, 4, 13, 7, 5, 15, 14, 1, 9],
  #v[12, 5, 1, 15, 14, 13, 4, 10, 0, 7, 6, 3, 9, 2, 8, 11],
  #v[13, 11, 7, 14, 12, 1, 3, 9, 5, 0, 15, 4, 8, 6, 2, 10],
  #v[6, 15, 14, 9, 11, 3, 0, 8, 12, 2, 13, 7, 1, 4, 10, 5],
  #v[10, 2, 8, 4, 7, 6, 1, 5, 15, 11, 9, 14, 3, 12, 13, 0]]

def mix (v : Vector Word 16) (a b c d : Fin 16) (x y : Word) : Vector Word 16 :=
  let va := v[a] + v[b] + x
  let vd := Word.rotateRight (v[d] ^^^ va) 32
  let vc := v[c] + vd
  let vb := Word.rotateRight (v[b] ^^^ vc) 24
  let va := va + vb + y
  let vd := Word.rotateRight (vd ^^^ va) 16
  let vc := vc + vd
  let vb := Word.rotateRight (vb ^^^ vc) 63
  (((v.set a va).set b vb).set c vc).set d vd

def lines : Vector (Fin 16 × Fin 16 × Fin 16 × Fin 16) 8 := #v[
  (0, 4, 8, 12), (1, 5, 9, 13), (2, 6, 10, 14), (3, 7, 11, 15),
  (0, 5, 10, 15), (1, 6, 11, 12), (2, 7, 8, 13), (3, 4, 9, 14)]

def round (message : Vector Word 16) (v : Vector Word 16) (number : Nat) : Vector Word 16 :=
  let order := permutations.get ⟨number % 10, Nat.mod_lt _ (by decide)⟩
  (List.finRange 8).foldl (fun v i =>
    let (a, b, c, d) := lines[i]
    mix v a b c d message[order[2 * i.val]] message[order[2 * i.val + 1]]) v

def compress (h : Vector Word 8) (message : Vector Word 16) (consumed : Nat) (last : Bool) :
    Vector Word 8 :=
  let low : Word := UInt64.ofNat consumed
  let high : Word := UInt64.ofNat (consumed / 0x10000000000000000)
  let tail := #v[initialVector[0], initialVector[1], initialVector[2], initialVector[3],
    initialVector[4] ^^^ low, initialVector[5] ^^^ high,
    if last then ~~~ initialVector[6] else initialVector[6], initialVector[7]]
  let v := (List.range 12).foldl (round message) (h ++ tail)
  Vector.ofFn fun i => h[i] ^^^ v[i.val] ^^^ v[i.val + 8]

-- Bytes past the end read as zero, which is the padding of the last block.
def messageWord (bytes : Array UInt8) (start : Nat) : Word :=
  Bytes.toWord ((List.range 8).map fun k => bytes.getD (start + k) 0)

def messageBlock (bytes : Array UInt8) (index : Nat) : Vector Word 16 :=
  Vector.ofFn fun j => messageWord bytes (128 * index + 8 * j.val)

def digest (bytes : Array UInt8) : Vector Word 8 :=
  let blocks := max 1 ((bytes.size + 127) / 128)
  let start := initialVector.set 0 (initialVector[0] ^^^ 0x01010040)
  (List.range blocks).foldl (fun h index =>
    compress h (messageBlock bytes index) (min (128 * (index + 1)) bytes.size)
      (index + 1 == blocks)) start

end ProgramHash.Blake2b
