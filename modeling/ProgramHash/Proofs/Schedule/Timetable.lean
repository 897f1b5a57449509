import Mathlib.Algebra.GroupWithZero.Nat
import ProgramHash.Proofs.Schedule.Bookings

-- A schedule beside the list of all that was booked in it. Stalls, moves of the cursor
-- and bookings may come in any order, and a booking may lie before or behind earlier
-- ones: the units that are busy and the cycles at which registers are ready are always
-- those that the list accounts for.
namespace ProgramHash

theorem UnitSet.count_union {s t : UnitSet} (apart : ∀ p, t.has p = true → s.has p = false) :
    (s.union t).count = s.count + t.count := by
  have unit {a b : Bool} (apart : b = true → a = false) : (a || b).toNat = a.toNat + b.toNat := by
    cases b with
    | false => simp
    | true => rw [apart rfl]; rfl
  have p0 : (s.p0 || t.p0).toNat = s.p0.toNat + t.p0.toNat := unit (apart .p0)
  have p1 : (s.p1 || t.p1).toNat = s.p1.toNat + t.p1.toNat := unit (apart .p1)
  have p5 : (s.p5 || t.p5).toNat = s.p5.toNat + t.p5.toNat := unit (apart .p5)
  simp only [count, union, p0, p1, p5]
  omega

-- What can be done with a schedule. An instruction is booked in the slot planned for
-- it, from the cursor or from a cycle of its own.
inductive Action where
  | stall
  | advance (subCycles : UInt64)
  | pass (op : Opcode)
  | issue (i : Instruction) (start : Option Nat)

namespace Action

def subCycles? : Action → Option UInt64
  | .stall => some 3
  | .advance subCycles => some subCycles
  | .pass op => some (UInt64.ofNat op.microOps.subCycles)
  | .issue _ _ => none

end Action

structure Booking where
  slot : Slot
  instruction : Instruction

namespace Booking

def takes (b : Booking) (cycle : Nat) (p : ExecutionUnit) : Bool :=
  b.slot.cycle = cycle && b.slot.units.has p

def writes (b : Booking) (r : Register) : Bool := b.instruction.destination? = some r

def finish (b : Booking) : Nat := b.slot.cycle + b.instruction.opcode.latency

def parts (b : Booking) : Nat := b.instruction.opcode.microOps.units.length

end Booking

structure Timetable where
  schedule : Schedule
  bookings : List Booking

namespace Timetable

def initial : Timetable := ⟨.initial, []⟩

def planFrom? (t : Timetable) (op : Opcode) : Option Nat → Option Slot
  | none => t.schedule.plan? op
  | some cycle => t.schedule.slotFrom? op.microOps cycle

def act? (t : Timetable) : Action → Option Timetable
  | .stall => t.schedule.stall?.map fun schedule => { t with schedule }
  | .advance subCycles => (t.schedule.advance? subCycles).map fun schedule => { t with schedule }
  | .pass op => (t.schedule.pass? op).map fun schedule => { t with schedule }
  | .issue i start => (t.planFrom? i.opcode start).map fun slot =>
      ⟨t.schedule.book slot i, t.bookings ++ [⟨slot, i⟩]⟩

def act (t : Timetable) (action : Action) : Timetable := (t.act? action).getD t

def after (actions : List Action) : Timetable := actions.foldl act initial

def takers (t : Timetable) (cycle : Nat) (p : ExecutionUnit) : Nat :=
  t.bookings.countP fun b => b.takes cycle p

def readyFrom (t : Timetable) (r : Register) : Nat :=
  ((t.bookings.filter fun b => b.writes r).getLast?.map Booking.finish).getD 0

def busyUnits (t : Timetable) : Nat := (t.schedule.busy.toList.map UnitSet.count).sum

-- Every unit of a cycle is held by exactly one booking if it is busy, and by none if it
-- is free.
structure Accounted (t : Timetable) : Prop where
  inside : ∀ b ∈ t.bookings, b.slot.cycle < 196
  held : ∀ cycle (inside : cycle < 196) p,
    t.takers cycle p = (t.schedule.busy[cycle].has p).toNat
  total : t.busyUnits = (t.bookings.map Booking.parts).sum
  ready : ∀ r : Register, t.schedule.ready[r] = t.readyFrom r
  cursor : t.schedule.cursor < 576

theorem accounted_initial : Accounted initial where
  inside _ member := nomatch member
  held cycle inside p := by cases p <;> simp [initial, takers, Schedule.initial, UnitSet.none, UnitSet.has]
  total := by
    rw [busyUnits, initial, Schedule.initial, Vector.toList_replicate, List.map_replicate,
      List.sum_replicate_nat]
    rfl
  ready r := by simp [initial, readyFrom, Schedule.initial]
  cursor := by decide

theorem Accounted.moved {t : Timetable} (accounted : t.Accounted) {subCycles : UInt64} {s : Schedule}
    (moved : t.schedule.advance? subCycles = some s) : Accounted { t with schedule := s } := by
  rw [Schedule.advance_eq] at moved
  obtain ⟨_, same⟩ := Option.dite_none_right_eq_some.mp moved
  cases same
  exact { accounted with cursor := Schedule.cursor_lt _ }

theorem takers_snoc (t : Timetable) (s : Schedule) (b : Booking) (cycle : Nat) (p : ExecutionUnit) :
    takers ⟨s, t.bookings ++ [b]⟩ cycle p = t.takers cycle p + (b.takes cycle p).toNat := by
  rw [takers, List.countP_append, List.countP_singleton]
  cases b.takes cycle p <;> rfl

theorem readyFrom_snoc (t : Timetable) (s : Schedule) (b : Booking) (r : Register) :
    readyFrom ⟨s, t.bookings ++ [b]⟩ r = if b.writes r then b.finish else t.readyFrom r := by
  rw [readyFrom, List.filter_append]
  cases writes : b.writes r <;> simp [readyFrom, writes]

theorem sum_set {l : List Nat} {n a b : Nat} (here : l[n]? = some a) :
    (l.set n (a + b)).sum = l.sum + b := by
  induction l generalizing n with
  | nil => cases here
  | cons x l ih =>
      cases n with
      | zero =>
          cases here
          simp only [List.set_cons_zero, List.sum_cons]
          omega
      | succ n => simp only [List.set_cons_succ, List.sum_cons, ih here, Nat.add_assoc]

section Booked

variable {t : Timetable} {slot : Slot} {i : Instruction}
  (offers : t.schedule.Offers i.opcode.microOps slot.cycle slot.units)
include offers

theorem held_booked {cycle : Nat} (inside : cycle < 196) {p : ExecutionUnit}
    (before : t.takers cycle p = (t.schedule.busy[cycle].has p).toNat) :
    takers ⟨t.schedule.book slot i, t.bookings ++ [⟨slot, i⟩]⟩ cycle p =
      ((t.schedule.book slot i).busy[cycle].has p).toNat := by
  obtain ⟨busy, here, assigned⟩ := offers
  have booked : t.schedule.Booked slot i (t.schedule.book slot i) := Schedule.book_booked
  have units := booked.busy cycle inside p
  rw [takers_snoc, before]
  cases takes : Booking.takes ⟨slot, i⟩ cycle p with
  | true =>
      obtain ⟨rfl, taken⟩ : slot.cycle = cycle ∧ slot.units.has p = true := by
        simpa [Booking.takes] using takes
      have now := (Vector.getElem?_eq_some_iff.mp here).2
      rw [units.mpr (.inr ⟨rfl, taken⟩), now, assigned.free taken]
      rfl
  | false =>
      have apart : ¬ (slot.cycle = cycle ∧ slot.units.has p = true) := by
        simpa [Booking.takes] using takes
      rw [Bool.eq_iff_iff.mpr (units.trans (or_iff_left apart))]
      rfl

theorem busyUnits_booked :
    busyUnits ⟨t.schedule.book slot i, t.bookings ++ [⟨slot, i⟩]⟩ =
      t.busyUnits + (Booking.mk slot i).parts := by
  have within := offers.inside
  obtain ⟨busy, here, assigned⟩ := offers
  have now := (Vector.getElem?_eq_some_iff.mp here).2
  have added : (busy.union slot.units).count = busy.count + (Booking.mk slot i).parts := by
    rw [UnitSet.count_union fun p => assigned.free, assigned.count]
    rfl
  have count : (t.schedule.busy.toList.map UnitSet.count)[slot.cycle]? = some busy.count := by
    rw [List.getElem?_map, Vector.getElem?_toList, here]
    rfl
  have booked : (t.schedule.book slot i).busy = t.schedule.busy.set slot.cycle (busy.union slot.units) := by
    simp [Schedule.book, within, now]
  rw [busyUnits, booked, Vector.toList_set, List.map_set, added, sum_set count]
  rfl

end Booked

theorem ready_booked {t : Timetable} {slot : Slot} {i : Instruction} {r : Register}
    (before : t.schedule.ready[r] = t.readyFrom r) :
    (t.schedule.book slot i).ready[r] =
      readyFrom ⟨t.schedule.book slot i, t.bookings ++ [⟨slot, i⟩]⟩ r := by
  rw [readyFrom_snoc, Schedule.book_booked.ready, before]
  by_cases written : i.destination? = some r <;> simp [Booking.writes, Booking.finish, written]

theorem Accounted.booked {t : Timetable} (accounted : t.Accounted) {slot : Slot} {i : Instruction}
    (offers : t.schedule.Offers i.opcode.microOps slot.cycle slot.units) :
    Accounted ⟨t.schedule.book slot i, t.bookings ++ [⟨slot, i⟩]⟩ where
  inside b member := by
    rcases List.mem_append.mp member with old | new
    · exact accounted.inside b old
    · rw [List.mem_singleton.mp new]
      exact offers.inside
  held _ inside p := held_booked offers inside (accounted.held _ inside p)
  total := by
    rw [busyUnits_booked offers, accounted.total, List.map_append, List.sum_append]
    rfl
  ready r := ready_booked (accounted.ready r)
  cursor := accounted.cursor

theorem planFrom_offers {t : Timetable} {op : Opcode} {start : Option Nat} {slot : Slot}
    (planned : t.planFrom? op start = some slot) :
    t.schedule.Offers op.microOps slot.cycle slot.units := by
  cases start with
  | none => exact Schedule.searchSlot_offers planned
  | some cycle => exact Schedule.searchSlot_offers planned

theorem Accounted.acted {t u : Timetable} (accounted : t.Accounted) {action : Action}
    (accepted : t.act? action = some u) : u.Accounted := by
  cases action with
  | issue i start =>
      obtain ⟨slot, planned, rfl⟩ := Option.map_eq_some_iff.mp accepted
      exact accounted.booked (planFrom_offers planned)
  | stall | advance _ | pass _ =>
      obtain ⟨s, moved, rfl⟩ := Option.map_eq_some_iff.mp accepted
      exact accounted.moved moved

theorem Accounted.act {t : Timetable} (accounted : t.Accounted) (action : Action) :
    (t.act action).Accounted := by
  unfold Timetable.act
  cases accepted : t.act? action with
  | none => exact accounted
  | some u => exact accounted.acted accepted

theorem after_accounted (actions : List Action) : (after actions).Accounted := by
  suffices kept : ∀ t : Timetable, t.Accounted → (actions.foldl Timetable.act t).Accounted from
    kept initial accounted_initial
  induction actions with
  | nil => exact fun t accounted => accounted
  | cons action actions ih => exact fun t accounted => ih _ (accounted.act action)

structure MovesTo (t : Timetable) (cursor : Nat) (u : Timetable) : Prop where
  bookings : u.bookings = t.bookings
  busy : u.schedule.busy = t.schedule.busy
  ready : u.schedule.ready = t.schedule.ready
  cursor : u.schedule.cursor = cursor

-- Where a move leads, with the sum of machine words.
def moved (t : Timetable) (subCycles : UInt64) : Nat :=
  let sum := (t.schedule.cursor + subCycles.toNat) % 0x10000000000000000
  if sum < 576 then sum else t.schedule.cursor

theorem advance_act (t : Timetable) (subCycles : UInt64) :
    t.MovesTo (t.moved subCycles)
      (((t.schedule.advance? subCycles).map fun schedule => { t with schedule }).getD t) := by
  rw [Schedule.advance_eq]
  have inside : (t.schedule.cursor + subCycles.toNat) % 0x10000000000000000 / Schedule.subCyclesPerCycle <
      Schedule.cycleLimit ↔ (t.schedule.cursor + subCycles.toNat) % 0x10000000000000000 < 576 :=
    Nat.div_lt_iff_lt_mul (by decide)
  by_cases room : (t.schedule.cursor + subCycles.toNat) % 0x10000000000000000 < 576
  · rw [dif_pos (inside.mpr room)]
    exact ⟨rfl, rfl, rfl, (if_pos room).symm⟩
  · rw [dif_neg (mt inside.mp room)]
    exact ⟨rfl, rfl, rfl, (if_neg room).symm⟩

theorem act_moves (t : Timetable) {action : Action} {subCycles : UInt64}
    (moves : action.subCycles? = some subCycles) :
    t.MovesTo (t.moved subCycles) (t.act action) := by
  cases action with
  | issue i start => cases moves
  | stall | advance _ | pass _ =>
      cases moves
      exact advance_act t _

theorem act_issue (t : Timetable) (i : Instruction) (start : Option Nat) :
    (t.act (.issue i start)).schedule.cursor = t.schedule.cursor ∧
      (i.destination? = none → (t.act (.issue i start)).schedule.ready = t.schedule.ready) := by
  simp only [act, act?]
  cases t.planFrom? i.opcode start with
  | none => exact ⟨rfl, fun _ => rfl⟩
  | some slot => exact ⟨rfl, Schedule.book_ready_plain⟩

-- Whatever was done with a schedule, its busy units and ready cycles are those of the
-- bookings: no unit of a cycle was booked twice. A move past the last cycle leaves the
-- cursor where it was, and an instruction without destination changes no register.
theorem bookings_account_for_schedule (actions : List Action) :
    (after actions).Accounted ∧
    (∀ action subCycles, action.subCycles? = some subCycles →
      (after actions).MovesTo ((after actions).moved subCycles) ((after actions).act action)) ∧
    ∀ i start, ((after actions).act (.issue i start)).schedule.cursor = (after actions).schedule.cursor ∧
      (i.destination? = none →
        ((after actions).act (.issue i start)).schedule.ready = (after actions).schedule.ready) :=
  ⟨after_accounted actions, fun _ _ => (after actions).act_moves, (after actions).act_issue⟩

-- Bookings behind and before the cursor, two of them of one register, a move that is
-- refused, and one that wraps and goes back by a third of a cycle.
def detour : List Action :=
  [.issue (.mul 0 1) (some 5), .stall, .issue (.umulh 2 3) none, .issue .target (some 0),
    .advance 700, .pass .target, .advance 0xffffffffffffffff, .issue (.smulh 2 2) (some 0),
    .advance 571]

theorem detour_accounted :
    (after detour).Accounted ∧ (after detour).bookings.length = 4 ∧ (after detour).busyUnits = 7 ∧
      (after detour).schedule.cursor = 575 ∧ Action.stall.subCycles? = some 3 ∧
      (after detour).MovesTo 575 ((after detour).act .stall) ∧
      Instruction.target.destination? = none ∧
      ((after detour).act (.issue .target none)).schedule.ready = (after detour).schedule.ready := by
  obtain ⟨accounted, moves, issues⟩ := bookings_account_for_schedule detour
  have four : (after detour).bookings.length = 4 := by decide +kernel
  have parts : ((after detour).bookings.map Booking.parts).sum = 7 := by decide +kernel
  have last : (after detour).schedule.cursor = 575 := by decide +kernel
  have refused := moves .stall 3 rfl
  rw [moved, last] at refused
  exact ⟨accounted, four, accounted.total.trans parts, last, rfl, refused, rfl,
    (issues .target none).2 rfl⟩

end Timetable

end ProgramHash
