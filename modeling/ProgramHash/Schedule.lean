import ProgramHash.ExecutionUnit

namespace ProgramHash

structure Slot where
  cycle : Nat
  units : UnitSet
  deriving DecidableEq, Repr

namespace Schedule

def cycleLimit : Nat := 192

def subCyclesPerCycle : Nat := 3

end Schedule

-- The cursor counts thirds of a cycle. Nothing but `advance?` moves it, so that it
-- stays inside the cycles below the limit. Instructions issue at its cycle or later,
-- in any of 196 cycles; a register can be read from its ready cycle on.
structure Schedule where
  busy : Vector UnitSet 196
  ready : Bank Nat 8
  cursor : Nat
  inside : cursor / Schedule.subCyclesPerCycle < Schedule.cycleLimit
  deriving DecidableEq, Repr

namespace Schedule

def initial : Schedule := ⟨Vector.replicate 196 UnitSet.none, .filled 0, 0, by decide⟩

def cycle (s : Schedule) : Nat := s.cursor / subCyclesPerCycle

theorem cursor_lt (s : Schedule) : s.cursor < 576 := by
  have inside := s.inside
  simp only [subCyclesPerCycle, cycleLimit] at inside
  omega

-- The sum is one of machine words and wraps. A move past the last cycle is refused
-- and leaves the schedule as it was.
def advance? (s : Schedule) (subCycles : UInt64) : Option Schedule :=
  let moved := UInt64.ofNat s.cursor + subCycles
  if inside : moved.toNat / subCyclesPerCycle < cycleLimit then
    some { s with cursor := moved.toNat, inside }
  else none

theorem advance_eq (s : Schedule) (subCycles : UInt64) :
    s.advance? subCycles =
      if inside : (s.cursor + subCycles.toNat) % 0x10000000000000000 / subCyclesPerCycle < cycleLimit then
        some { s with cursor := (s.cursor + subCycles.toNat) % 0x10000000000000000, inside }
      else none := by
  have moved : (UInt64.ofNat s.cursor + subCycles).toNat =
      (s.cursor + subCycles.toNat) % 0x10000000000000000 := by
    rw [UInt64.toNat_add, UInt64.toNat_ofNat', Nat.mod_add_mod]
  simp only [advance?, moved]

-- Only a long move wraps.
theorem advance_short (s : Schedule) {n : Nat} (short : n ≤ 3) :
    s.advance? (UInt64.ofNat n) =
      if inside : (s.cursor + n) / subCyclesPerCycle < cycleLimit then
        some { s with cursor := s.cursor + n, inside }
      else none := by
  have early := s.cursor_lt
  have sum : (s.cursor + (UInt64.ofNat n).toNat) % 0x10000000000000000 = s.cursor + n := by
    rw [UInt64.toNat_ofNat']
    omega
  simp only [advance_eq, sum]

def stall? (s : Schedule) : Option Schedule := s.advance? (UInt64.ofNat subCyclesPerCycle)

def pass? (s : Schedule) (op : Opcode) : Option Schedule :=
  s.advance? (UInt64.ofNat op.microOps.subCycles)

theorem stall_eq (s : Schedule) :
    s.stall? =
      if inside : (s.cursor + 3) / subCyclesPerCycle < cycleLimit then
        some { s with cursor := s.cursor + 3, inside }
      else none := s.advance_short (Nat.le_refl 3)

theorem pass_eq (s : Schedule) (op : Opcode) :
    s.pass? op =
      if inside : (s.cursor + op.microOps.subCycles) / subCyclesPerCycle < cycleLimit then
        some { s with cursor := s.cursor + op.microOps.subCycles, inside }
      else none := s.advance_short op.microOps.subCycles_le

theorem stall_some {s t : Schedule} (moved : s.stall? = some t) :
    ∃ inside, t = { s with cursor := s.cursor + 3, inside } := by
  rw [stall_eq] at moved
  obtain ⟨inside, same⟩ := Option.dite_none_right_eq_some.mp moved
  exact ⟨inside, (Option.some.inj same).symm⟩

theorem pass_some {s t : Schedule} {op : Opcode} (moved : s.pass? op = some t) :
    ∃ inside, t = { s with cursor := s.cursor + op.microOps.subCycles, inside } := by
  rw [pass_eq] at moved
  obtain ⟨inside, same⟩ := Option.dite_none_right_eq_some.mp moved
  exact ⟨inside, (Option.some.inj same).symm⟩

def slotAt? (s : Schedule) (ops : MicroOps) (cycle : Nat) : Option Slot :=
  s.busy[cycle]?.bind fun busy => (ops.place busy).map (Slot.mk cycle)

def searchSlot? (s : Schedule) (ops : MicroOps) : Nat → Nat → Option Slot
  | 0, _ => none
  | left + 1, cycle =>
      match s.slotAt? ops cycle with
      | some slot => some slot
      | none => searchSlot? s ops left (cycle + 1)

def slotFrom? (s : Schedule) (ops : MicroOps) (earliest : Nat) : Option Slot :=
  s.searchSlot? ops (196 - earliest) earliest

def plan? (s : Schedule) (op : Opcode) : Option Slot := s.slotFrom? op.microOps s.cycle

def isReady (s : Schedule) (r : Register) (cycle : Nat) : Bool := s.ready[r] ≤ cycle

def readyAt (s : Schedule) (cycle : Nat) : RegisterSet :=
  RegisterSet.ofPredicate fun r => s.isReady r cycle

def book (s : Schedule) (slot : Slot) (i : Instruction) : Schedule :=
  let busy := if inside : slot.cycle < 196 then
      s.busy.set slot.cycle (s.busy[slot.cycle].union slot.units)
    else s.busy
  let ready := match i.destination? with
    | some d => s.ready.set d (slot.cycle + i.opcode.latency)
    | none => s.ready
  { s with busy, ready }

def latency (s : Schedule) : Nat := s.ready.foldl max 0

end Schedule

end ProgramHash
