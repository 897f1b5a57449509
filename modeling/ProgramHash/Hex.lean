import ProgramHash.Word

namespace ProgramHash.Hex

-- Two digits stand for a byte, the upper half first. Digits are written in
-- lower case and read in either case.
def digit (n : Nat) : Char := if n < 10 then Char.ofNat (48 + n) else Char.ofNat (87 + n)

def digitValue? (c : Char) : Option Nat :=
  if '0' ≤ c ∧ c ≤ '9' then some (c.toNat - 48)
  else if 'a' ≤ c ∧ c ≤ 'f' then some (c.toNat - 87)
  else if 'A' ≤ c ∧ c ≤ 'F' then some (c.toNat - 55)
  else none

def encodeByte (b : UInt8) : List Char := [digit (b.toNat / 16), digit (b.toNat % 16)]

def encode (bytes : List UInt8) : String := String.ofList (bytes.flatMap encodeByte)

def decodeDigits : List Char → Option (List UInt8)
  | [] => some []
  | [_] => none
  | high :: low :: rest => do
      let h ← digitValue? high
      let l ← digitValue? low
      let tail ← decodeDigits rest
      return UInt8.ofNat (16 * h + l) :: tail

def decode? (text : String) : Option (List UInt8) := decodeDigits text.toList

def fixed : Nat → Nat → List Char
  | 0, _ => []
  | places + 1, n => fixed places (n / 16) ++ [digit (n % 16)]

def ofWord (w : Word) : String := String.ofList (fixed 16 w.toNat)

end ProgramHash.Hex
