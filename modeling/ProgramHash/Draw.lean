import ProgramHash.Sip

namespace ProgramHash

-- What program generation asks of a source of randomness: single bytes and
-- 32-bit halves of words. Nothing else is known of it, so whatever is shown of
-- a generator over an arbitrary source holds for every stream of draws.
class Draw (σ : Type) where
  byte : σ → UInt8 × σ
  half : σ → UInt32 × σ

namespace Draw

-- Drawing again until a value is accepted. No bound is known in advance, so the
-- caller gives one and learns when it was reached.
def repeatUntil {σ α β : Type} (draw : σ → α × σ) (accept : α → Option β) :
    Nat → σ → Option (β × σ)
  | 0, _ => none
  | limit + 1, s =>
      let (value, rest) := draw s
      match accept value with
      | some result => some (result, rest)
      | none => repeatUntil draw accept limit rest

def pick {σ α : Type} [Draw σ] {n : Nat} (options : Vector α (n + 1)) (s : σ) : α × σ :=
  let (b, rest) := byte s
  (options.get ⟨b.toNat % (n + 1), Nat.mod_lt _ (Nat.succ_pos n)⟩, rest)

def nonzero {σ : Type} [Draw σ] (limit : Nat) (mask : UInt32) (s : σ) : Option (UInt32 × σ) :=
  repeatUntil half (fun h => if h &&& mask = 0 then none else some (h &&& mask)) limit s

end Draw

structure Remainder where
  word : Word
  parts : Nat
  deriving DecidableEq, Repr

-- The keyed stream read block by block. Bytes and halves each keep a block of
-- their own, so that drawing one never uses up what is left of the other.
structure CounterStream where
  key : SipState
  counter : Word
  bytes : Remainder
  halves : Remainder
  deriving DecidableEq, Repr

namespace CounterStream

def ofSalt (key : SipState) (salt : UInt32) : CounterStream :=
  ⟨key, UInt64.ofNat (salt.toNat * 0x100000000), ⟨0, 0⟩, ⟨0, 0⟩⟩

def block (s : CounterStream) : Word × CounterStream :=
  (s.key.counterBlock s.counter, { s with counter := s.counter + 1 })

def nextByte (s : CounterStream) : UInt8 × CounterStream :=
  let (r, s) := match s.bytes.parts with
    | 0 => let (w, s) := s.block; ((⟨w, 8⟩ : Remainder), s)
    | _ + 1 => (s.bytes, s)
  (r.word.toUInt8, { s with bytes := ⟨r.word >>> 8, r.parts - 1⟩ })

def nextHalf (s : CounterStream) : UInt32 × CounterStream :=
  let (r, s) := match s.halves.parts with
    | 0 => let (w, s) := s.block; ((⟨w, 2⟩ : Remainder), s)
    | _ + 1 => (s.halves, s)
  (r.word.toUInt32, { s with halves := ⟨r.word >>> 32, r.parts - 1⟩ })

instance : Draw CounterStream := ⟨nextByte, nextHalf⟩

end CounterStream

end ProgramHash
