import ProgramHash.Machine.Decoding

namespace ProgramHash.Machine

abbrev Lanes := Bank Word 8

-- What the code can see and change. The code and its constants lie in an image
-- that is only read, addressed from its start. The words behind the argument
-- start at a base address; the stack holds what the code itself has pushed.
-- After some operations the zero flag is undefined.
structure Processor where
  position : Nat
  gprs : Bank Word 16
  zero : Option Bool
  zmms : Bank Lanes 32
  masks : Bank UInt16 8
  stack : List Word
  base : Word
  memory : Array Word

inductive Trap where
  | noOperation
  | badAddress
  | undefinedFlag
  | stackMisused
  deriving DecidableEq, Repr

inductive Stepped where
  | running (p : Processor)
  | returned (p : Processor)
  | trapped (t : Trap)

def LaneOp.apply (op : LaneOp) (a b : Word) : Word :=
  match op with
  | .add => a + b
  | .sub => a - b
  | .xor => a ^^^ b
  | .and => a &&& b
  | .lowProduct => a * b
  | .halfProduct => a.toUInt32.toUInt64 * b.toUInt32.toUInt64

def LaneShift.apply (op : LaneShift) (a : Word) (amount : UInt8) : Word :=
  match op with
  | .left => if amount < 64 then a <<< amount.toUInt64 else 0
  | .right => if amount < 64 then a >>> amount.toUInt64 else 0
  | .signedRight => (a.toInt64 >>> (if amount < 64 then amount.toUInt64.toInt64 else 63)).toUInt64
  | .rotateRight => Word.rotateRight a amount.toUInt64

def AluOp.apply (op : AluOp) (a b : Word) : Word :=
  match op with
  | .add => a + b
  | .sub => a - b
  | .xor => a ^^^ b

def maskBit (m : UInt16) (lane : Fin 8) : Bool := m.toNat.testBit lane.val

namespace Processor

def setGpr (p : Processor) (r : Gpr) (v : Word) : Processor := { p with gprs := p.gprs.set r v }

def setHalf (p : Processor) (r : Gpr) (v : UInt32) : Processor := p.setGpr r v.toUInt64

def half (p : Processor) (r : Gpr) : UInt32 := p.gprs[r].toUInt32

def place? (p : Processor) (address : Word) : Option Nat :=
  let distance := (address - p.base).toNat
  if distance % 8 = 0 ∧ distance / 8 < p.memory.size then some (distance / 8) else none

def address (p : Processor) (base : Gpr) (offset : Int) : Word :=
  p.gprs[base] + UInt64.ofInt offset

def imageBytes? (image : Array UInt8) (start : Int) (count : Nat) : Option (List UInt8) :=
  if 0 ≤ start ∧ start.toNat + count ≤ image.size then
    some (image.extract start.toNat (start.toNat + count)).toList
  else none

def imageWord? (image : Array UInt8) (start : Int) : Option Word :=
  (imageBytes? image start 8).map Bytes.toWord

def imageLanes? (image : Array UInt8) (start : Int) : Option Lanes := do
  let bytes ← imageBytes? image start 64
  return .ofFn fun i => Bytes.toWord ((bytes.drop (8 * i.val)).take 8)

def memoryLanes? (p : Processor) (address : Word) : Option Lanes := do
  let start ← p.place? address
  if start + 8 ≤ p.memory.size then
    return .ofFn fun i => p.memory.getD (start + i.val) 0
  else none

def writeLanes (memory : Array Word) (start : Nat) (v : Lanes) : Array Word :=
  (List.finRange 8).foldl (fun m i => m.setIfInBounds (start + i.val) v[i]) memory

def source? (image : Array UInt8) (p : Processor) (next : Nat) : VectorSource → Option Lanes
  | .register r => some p.zmms[r]
  | .pool relative => imageLanes? image (next + relative.toInt)
  | .memory base offset => p.memoryLanes? (p.address base offset.toInt)

def aligned (p : Processor) (next : Nat) : VectorSource → Bool
  | .register _ => true
  | .pool relative => (next + relative.toInt) % 64 = 0
  | .memory base offset => (p.address base offset.toInt).toNat % 64 = 0

-- Lanes outside the mask keep what they held. Mask 0 selects every lane.
def selected (p : Processor) (mask : Option Opmask) (lane : Fin 8) : Bool :=
  match mask with
  | none => true
  | some k => k = 0 || maskBit p.masks[k] lane

def mergeLanes (p : Processor) (dst : Zmm) (mask : Option Opmask) (v : Lanes) : Processor :=
  let merged := match mask with
    | none => v
    | some _ => .ofFn fun i => if p.selected mask i then v[i] else p.zmms[dst][i]
  { p with zmms := p.zmms.set dst merged }

def mapLanes (op : Word → Word → Word) (a b : Lanes) : Lanes := a.zipWith op b

def maskOf (f : Fin 8 → Bool) : UInt16 :=
  UInt16.ofNat ((List.finRange 8).foldl (fun n i => if f i then n + 1 <<< i.val else n) 0)

-- The lower 128 bits of the first sixteen vector registers are kept.
def clearUpper (p : Processor) : Processor :=
  { p with zmms := .ofFn fun r =>
      if r.val < 16 then .ofFn fun i => if i.val < 2 then p.zmms[r][i] else 0
      else p.zmms[r] }

def trap {α : Type} (t : Trap) : Option α → Except Trap α
  | some a => .ok a
  | none => .error t

def jumpTo (p : Processor) (target : Int) : Except Trap Processor :=
  if 0 ≤ target then .ok { p with position := target.toNat } else .error .badAddress

def execute (image : Array UInt8) (p : Processor) : Operation → Except Trap Processor
  | .push r =>
      let v := p.gprs[r]
      .ok { p.setGpr Gpr.rsp (p.gprs[Gpr.rsp] - 8) with stack := v :: p.stack }
  | .pop r =>
      match p.stack with
      | v :: rest => .ok { (p.setGpr Gpr.rsp (p.gprs[Gpr.rsp] + 8)).setGpr r v with stack := rest }
      | [] => .error .stackMisused
  | .ret => .error .stackMisused
  | .move dst src => .ok (p.setGpr dst p.gprs[src])
  | .load dst base offset => do
      let place ← trap .badAddress (p.place? (p.address base offset.toInt))
      return p.setGpr dst (p.memory.getD place 0)
  | .store base offset src => do
      let place ← trap .badAddress (p.place? (p.address base offset.toInt))
      let v := p.gprs[src]
      return { p with memory := p.memory.setIfInBounds place v }
  | .alu op dst src =>
      let v := op.apply p.gprs[dst] p.gprs[src]
      .ok { p.setGpr dst v with zero := some (v = 0) }
  | .aluPool op dst relative => do
      let c ← trap .badAddress (imageWord? image (p.position + relative.toInt))
      let v := op.apply p.gprs[dst] c
      return { p.setGpr dst v with zero := some (v = 0) }
  | .multiply dst src => .ok { p.setGpr dst (p.gprs[dst] * p.gprs[src]) with zero := none }
  | .wideMultiply src =>
      let a := p.gprs[Gpr.rax]
      let b := p.gprs[src]
      .ok { (p.setGpr Gpr.rax (a * b)).setGpr Gpr.rdx (Word.highProduct a b) with zero := none }
  | .signedWideMultiply src =>
      let a := p.gprs[Gpr.rax]
      let b := p.gprs[src]
      .ok { (p.setGpr Gpr.rax (a * b)).setGpr Gpr.rdx (Word.signedHighProduct a b) with
        zero := none }
  | .shiftedSum dst src shift => .ok (p.setGpr dst (p.gprs[dst] + (p.gprs[src] <<< shift.toUInt64)))
  | .rotateRight dst amount => .ok (p.setGpr dst (Word.rotateRight p.gprs[dst] amount.toUInt64))
  | .xorHalf dst src =>
      let v := p.half dst ^^^ p.half src
      .ok { p.setHalf dst v with zero := some (v = 0) }
  | .orHalf dst src =>
      let v := p.half dst ||| p.half src
      .ok { p.setHalf dst v with zero := some (v = 0) }
  | .orHalfImmediate dst immediate =>
      let v := p.half dst ||| immediate.toInt32.toUInt32
      .ok { p.setHalf dst v with zero := some (v = 0) }
  | .testHalfPool src relative => do
      let bytes ← trap .badAddress (imageBytes? image (p.position + relative.toInt) 4)
      let v := UInt32.ofNat (Bytes.toNat bytes) &&& p.half src
      return { p with zero := some (v = 0) }
  | .jumpIfNonzero relative => do
      let z ← trap .undefinedFlag p.zero
      if z then return p else p.jumpTo (p.position + relative.toInt)
  | .jumpIfZero relative => do
      let z ← trap .undefinedFlag p.zero
      if z then p.jumpTo (p.position + relative.toInt) else return p
  | .jump relative => p.jumpTo (p.position + relative.toInt)
  | .zeroUpper => .ok p.clearUpper
  | .lanes op dst a b mask => do
      let v ← trap .badAddress (source? image p p.position b)
      return p.mergeLanes dst mask (mapLanes op.apply p.zmms[a] v)
  | .shiftLanes op dst src amount mask =>
      .ok (p.mergeLanes dst mask (p.zmms[src].map fun w => op.apply w amount))
  | .moveLanes dst src mask => do
      if p.aligned p.position src then
        let v ← trap .badAddress (source? image p p.position src)
        return p.mergeLanes dst mask v
      else .error .badAddress
  | .loadLanes dst base offset => do
      let v ← trap .badAddress (p.memoryLanes? (p.address base offset.toInt))
      return p.mergeLanes dst none v
  | .storeLanes base offset src => do
      let start ← trap .badAddress (p.place? (p.address base offset.toInt))
      if start + 8 ≤ p.memory.size then
        let v := p.zmms[src]
        return { p with memory := writeLanes p.memory start v }
      else .error .badAddress
  | .testZeroLanes dst a b mask => do
      let v ← trap .badAddress (source? image p p.position b)
      let bits := maskOf fun i => p.selected mask i && p.zmms[a][i] &&& v[i] = 0
      return { p with masks := p.masks.set dst bits }
  | .maskXnor dst a b => .ok { p with masks := p.masks.set dst (~~~(p.masks[a] ^^^ p.masks[b])) }
  | .maskAndNot dst a b => .ok { p with masks := p.masks.set dst (~~~p.masks[a] &&& p.masks[b]) }
  | .maskTest a b => .ok { p with zero := some (p.masks[a] ||| p.masks[b] = 0) }

def fetch? (image : Array UInt8) (position : Nat) : Option (Operation × Nat) := do
  let window := (image.extract position (position + 15)).toList
  let (op, rest) ← decode? window
  return (op, position + (window.length - rest.length))

-- A return ends the run once everything pushed has been popped.
def step (image : Array UInt8) (p : Processor) : Stepped :=
  match fetch? image p.position with
  | none => .trapped .noOperation
  | some (.ret, _) => if p.stack.isEmpty then .returned p else .trapped .stackMisused
  | some (op, next) =>
      match execute image { p with position := next } op with
      | .ok q => .running q
      | .error t => .trapped t

inductive Halt where
  | returned (p : Processor)
  | trapped (t : Trap)
  | outOfSteps

def run (image : Array UInt8) : Nat → Processor → Halt
  | 0, _ => .outOfSteps
  | steps + 1, p =>
      match p.step image with
      | .running q => run image steps q
      | .returned q => .returned q
      | .trapped t => .trapped t

def enter (memory : Array Word) : Processor where
  position := 0
  gprs := (Bank.filled 0).set Gpr.rdi 0x10000
  zero := none
  zmms := .filled (.filled 0)
  masks := .filled 0
  stack := []
  base := 0x10000
  memory := memory

end Processor

end ProgramHash.Machine
