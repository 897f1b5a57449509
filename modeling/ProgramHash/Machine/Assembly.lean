import ProgramHash.Fault
import ProgramHash.Machine.Encoding

namespace ProgramHash.Machine

-- Machine code under construction. Operations that use a constant or jump hold
-- a field of four bytes at their end for the distance, which is counted from
-- the end of the field. Constants are kept once each, in the order of their
-- first use, and follow the code.
structure Assembly where
  code : Array UInt8
  constants : Array Word
  uses : Array (Nat × Nat)
  lanes : Nat
  deriving DecidableEq, Repr

namespace Assembly

def empty (lanes : Nat) : Assembly := ⟨#[], #[], #[], lanes⟩

def offset (a : Assembly) : Nat := a.code.size

def emit (a : Assembly) (bytes : List UInt8) : Assembly := { a with code := a.code ++ bytes }

def emitAll (a : Assembly) (ops : List Operation) : Assembly :=
  ops.foldl (fun a op => a.emit op.encode) a

def field (a : Assembly) : Nat := a.code.size - 4

def write (code : Array UInt8) (position : Nat) : List UInt8 → Array UInt8
  | [] => code
  | b :: rest => write (code.setIfInBounds position b) (position + 1) rest

def reach : Nat := 0x80000000

def distance (start target : Nat) : Except Fault Int32 :=
  let bytes : Int := (target : Int) - start
  if bytes.natAbs < reach then .ok (Int32.ofInt bytes) else .error .outOfReach

def link (code : Array UInt8) (field target : Nat) : Except Fault (Array UInt8) :=
  (distance (field + 4) target).map fun d => write code field (bytesOfInt32 d)

def indexOf (constants : Array Word) (value : Word) : Array Word × Nat :=
  match constants.idxOf? value with
  | some index => (constants, index)
  | none => (constants.push value, constants.size)

def emitWithConstant (a : Assembly) (bytes : List UInt8) (value : Word) : Assembly :=
  let emitted := a.emit bytes
  let (constants, index) := indexOf a.constants value
  { emitted with constants, uses := emitted.uses.push (emitted.field, index) }

-- A jump gives its field, to be bound to its target: at once when that has been
-- passed, and else when it is reached.
def emitJump (a : Assembly) (bytes : List UInt8) : Assembly × Nat :=
  let emitted := a.emit bytes
  (emitted, emitted.field)

def bindTo (a : Assembly) (field target : Nat) : Except Fault Assembly :=
  (link a.code field target).map fun code => { a with code }

def bind (a : Assembly) (field : Nat) : Except Fault Assembly := a.bindTo field a.offset

def entrySize (a : Assembly) : Nat := 8 * a.lanes

def poolStart (a : Assembly) : Nat :=
  (a.code.size + a.entrySize - 1) / a.entrySize * a.entrySize

def padding : UInt8 := 0xcc

def pool (a : Assembly) : List UInt8 :=
  a.constants.toList.flatMap fun c => (List.replicate a.lanes (Bytes.ofWord c)).flatten

def padded (a : Assembly) : Array UInt8 :=
  a.code ++ List.replicate (a.poolStart - a.code.size) padding

def linkUse (a : Assembly) (code : Array UInt8) (use : Nat × Nat) : Except Fault (Array UInt8) :=
  link code use.1 (a.poolStart + use.2 * a.entrySize)

def finish (a : Assembly) : Except Fault (Array UInt8) :=
  (a.uses.toList.foldlM a.linkUse a.padded).map fun linked => linked ++ a.pool

end Assembly

end ProgramHash.Machine
