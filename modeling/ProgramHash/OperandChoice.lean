import ProgramHash.Writer

namespace ProgramHash

-- The outcome of a choice that consumes draws: a value, a refusal because
-- nothing fits, or a loop of rejected draws cut off by its limit.
inductive Choice (σ α : Type) where
  | made (value : α) (rest : σ)
  | refused (rest : σ)
  | unended

namespace Choice

def andThen {σ α β : Type} (c : Choice σ α) (next : α → σ → Choice σ β) : Choice σ β :=
  match c with
  | .made value rest => next value rest
  | .refused rest => .refused rest
  | .unended => .unended

def ofLoop {σ α : Type} : Option (α × σ) → Choice σ α
  | some (value, rest) => .made value rest
  | none => .unended

def register {σ : Type} [Draw σ] (options : RegisterSet) (s : σ) : Choice σ Register :=
  match options.members with
  | [] => .refused s
  | [r] => .made r s
  | first :: second :: more =>
      let members := first :: second :: more
      let (h, rest) := Draw.half s
      .made (members.get ⟨h.toNat % members.length, Nat.mod_lt _ (by simp [members])⟩) rest

end Choice

structure Opening where
  schedule : Schedule
  ledger : Ledger
  op : Opcode
  pass : Pass
  slot : Slot

def weight (mask : UInt32) : Nat := (List.range 32).countP mask.toNat.testBit

def branchWeight : Nat := 4

def branchMask {σ : Type} [Draw σ] (limit : Nat) (mask : UInt32) (s : σ) : Option (UInt32 × σ) :=
  if branchWeight ≤ weight mask then some (mask, s)
  else match limit with
    | 0 => none
    | limit + 1 =>
        let (b, rest) := Draw.byte s
        branchMask limit (mask ||| (1 <<< (b.toUInt32 % 32))) rest

namespace Opening

variable {σ : Type} [Draw σ]

def available (o : Opening) : RegisterSet := o.schedule.readyAt o.slot.cycle

def source (o : Opening) (s : σ) : Choice σ Register :=
  Choice.register (o.available.sourcesFor o.op) s

def destination (o : Opening) (w : Writer) (src : Option Register) (s : σ) : Choice σ Register :=
  Choice.register
    (o.available.filter fun d => o.ledger.destinationAllowed o.op o.pass w src d) s

-- A source first, then a destination for the writer that the source settles.
def registers (o : Opening) (writer : Register → Writer) (s : σ) :
    Choice σ (Register × Register × Writer) :=
  (o.source s).andThen fun src s =>
    (o.destination (writer src) (some src) s).andThen fun dst s => .made (dst, src, writer src) s

def operands (o : Opening) (group : WriterGroup) (s : σ) :
    Choice σ (Register × Register × Writer) :=
  o.registers (.withSource group) s

def wideOperands (o : Opening) (group : WriterGroup) (s : σ) :
    Choice σ (Register × Register × Writer) :=
  let (tag, s) := Draw.half s
  o.registers (fun _ => ⟨group, tag⟩) s

def constantOperands (o : Opening) (limit : Nat) (group : WriterGroup) (mask : UInt32) (s : σ) :
    Choice σ (Register × UInt32 × Writer) :=
  let w : Writer := ⟨group, 0⟩
  (Choice.ofLoop (Draw.nonzero limit mask s)).andThen fun constant s =>
    (o.destination w none s).andThen fun dst s => .made (dst, constant, w) s

def instruction (o : Opening) (limit : Nat) (s : σ) : Choice σ (Instruction × Writer) :=
  match o.op with
  | .target => .made (.target, .nobody) s
  | .branch =>
      (Choice.ofLoop (branchMask limit 0 s)).andThen fun mask s => .made (.branch mask, .nobody) s
  | .umulh =>
      (o.wideOperands .umulh s).andThen fun (dst, src, w) s => .made (.umulh dst src, w) s
  | .smulh =>
      (o.wideOperands .smulh s).andThen fun (dst, src, w) s => .made (.smulh dst src, w) s
  | .mul => (o.operands .mul s).andThen fun (dst, src, w) s => .made (.mul dst src, w) s
  | .sub => (o.operands .addSub s).andThen fun (dst, src, w) s => .made (.sub dst src, w) s
  | .xor => (o.operands .xor s).andThen fun (dst, src, w) s => .made (.xor dst src, w) s
  | .addShift =>
      let (h, s) := Draw.half s
      (o.operands .addSub s).andThen fun (dst, src, w) s =>
        .made (.addShift dst src (h &&& 3).toUInt8, w) s
  | .addConst =>
      (o.constantOperands limit .addConst 0xffffffff s).andThen fun (dst, constant, w) s =>
        .made (.addConst dst constant.toInt32, w) s
  | .xorConst =>
      (o.constantOperands limit .xorConst 0xffffffff s).andThen fun (dst, constant, w) s =>
        .made (.xorConst dst constant.toInt32, w) s
  | .rotate =>
      (o.constantOperands limit .rotate 63 s).andThen fun (dst, constant, w) s =>
        .made (.rotate dst constant.toUInt8, w) s

end Opening

end ProgramHash
