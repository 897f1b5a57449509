import ProgramHash.Proofs.Schedule.Bookings
import ProgramHash.Proofs.Generation.Candidates

namespace ProgramHash

-- The opcode pattern seen from the cursor. A period of 36 thirds of a cycle holds
-- 32 instructions; a target, a branch and the two wide multiplies take two thirds
-- each. The multiply of a cycle comes first in it.
namespace Pattern

def Aligned (cursor : Nat) : Prop :=
  cursor % 36 ≠ 2 ∧ cursor % 36 ≠ 13 ∧ cursor % 36 ≠ 20 ∧ cursor % 36 ≠ 25

def doublesBefore (place : Nat) : Nat :=
  if place ≤ 1 then 0 else if place ≤ 12 then 1 else if place ≤ 19 then 2
    else if place ≤ 24 then 3 else 4

def index (cursor : Nat) : Nat := 32 * (cursor / 36) + (cursor % 36 - doublesBefore (cursor % 36))

theorem index_lt {cursor : Nat} (inside : cursor < 576) : index cursor < 512 := by
  unfold index doublesBefore
  repeat' split
  all_goals omega

def cursorOf (n : Nat) : Nat :=
  36 * (n / 32) + n % 32 +
    if n % 32 ≤ 1 then 0 else if n % 32 ≤ 11 then 1 else if n % 32 ≤ 17 then 2
      else if n % 32 ≤ 21 then 3 else 4

theorem cursorOf_index {cursor : Nat} (aligned : Aligned cursor) : cursorOf (index cursor) = cursor := by
  obtain ⟨_, _, _, _⟩ := aligned
  have period : index cursor / 32 = cursor / 36 := by
    unfold index doublesBefore
    repeat' split
    all_goals omega
  have place : index cursor % 32 = cursor % 36 - doublesBefore (cursor % 36) := by
    unfold index doublesBefore
    repeat' split
    all_goals omega
  rw [cursorOf, period, place]
  unfold doublesBefore
  repeat' split
  all_goals omega

theorem index_inj {one two : Nat} (first : Aligned one) (second : Aligned two)
    (same : index one = index two) : one = two := by
  rw [← cursorOf_index first, ← cursorOf_index second, same]

inductive Kind (cursor : Nat) : Prop where
  | multiply (start : cursor % 3 = 0) (plain : cursor % 36 ≠ 12 ∧ cursor % 36 ≠ 24)
      (drawn : ∀ pass, OpcodeClass.ofCursor cursor pass = .mul)
  | wideMultiply (start : cursor % 36 = 12 ∨ cursor % 36 = 24)
      (drawn : ∀ pass, OpcodeClass.ofCursor cursor pass = .wideMul)
  | target (here : cursor % 36 = 1) (drawn : ∀ pass, OpcodeClass.ofCursor cursor pass = .target)
  | branch (here : cursor % 36 = 19) (drawn : ∀ pass, OpcodeClass.ofCursor cursor pass = .branch)
  | other (inside : cursor % 3 ≠ 0) (plain : cursor % 36 ≠ 1 ∧ cursor % 36 ≠ 19)
      (first : OpcodeClass.ofCursor cursor .first = .normal)
      (retried : OpcodeClass.ofCursor cursor .retry = .immediate)

theorem kind (cursor : Nat) : Kind cursor := by
  have thirds : cursor % 36 % 3 = cursor % 3 := Nat.mod_mod_of_dvd cursor (by decide)
  by_cases one : cursor % 36 = 1
  · exact .target one fun _ => if_pos one
  by_cases nineteen : cursor % 36 = 19
  · exact .branch nineteen fun _ => (if_neg one).trans (if_pos nineteen)
  by_cases wide : cursor % 36 = 12 ∨ cursor % 36 = 24
  · exact .wideMultiply wide fun _ => (if_neg one).trans ((if_neg nineteen).trans (if_pos wide))
  have first : OpcodeClass.ofCursor cursor .first = if cursor % 36 % 3 = 0 then .mul else .normal :=
    (if_neg one).trans ((if_neg nineteen).trans (if_neg wide))
  have retried : OpcodeClass.ofCursor cursor .retry =
      if cursor % 36 % 3 = 0 then .mul else .immediate :=
    (if_neg one).trans ((if_neg nineteen).trans (if_neg wide))
  rw [thirds] at first retried
  by_cases start : cursor % 3 = 0
  · refine .multiply start (not_or.mp wide) fun pass => ?_
    cases pass with
    | first => exact first.trans (if_pos start)
    | retry => exact retried.trans (if_pos start)
  · exact .other start ⟨one, nineteen⟩ (first.trans (if_neg start)) (retried.trans (if_neg start))

inductive Settled (cursor : Nat) (op : Opcode) : Prop where
  | multiply (start : cursor % 3 = 0) (plain : cursor % 36 ≠ 12 ∧ cursor % 36 ≠ 24) (is : op = .mul)
  | wideMultiply (start : cursor % 36 = 12 ∨ cursor % 36 = 24) (is : op = .smulh ∨ op = .umulh)
  | target (here : cursor % 36 = 1) (is : op = .target)
  | branch (here : cursor % 36 = 19) (is : op = .branch)
  | other (inside : cursor % 3 ≠ 0) (plain : cursor % 36 ≠ 1 ∧ cursor % 36 ≠ 19)
      (is : op ∈ OpcodeClass.normal.opcodes)

theorem settled {cursor : Nat} {pass : Pass} {op : Opcode}
    (drawn : op ∈ (OpcodeClass.ofCursor cursor pass).opcodes) : Settled cursor op := by
  cases kind cursor with
  | multiply start plain class_ =>
      rw [class_] at drawn
      exact .multiply start plain (List.mem_singleton.mp drawn)
  | wideMultiply start class_ =>
      rw [class_] at drawn
      exact .wideMultiply start (by simpa [OpcodeClass.opcodes, OpcodeClass.wideOpcodes] using drawn)
  | target here class_ =>
      rw [class_] at drawn
      exact .target here (List.mem_singleton.mp drawn)
  | branch here class_ =>
      rw [class_] at drawn
      exact .branch here (List.mem_singleton.mp drawn)
  | other inside plain first retried =>
      cases pass with
      | first => rw [first] at drawn; exact .other inside plain drawn
      | retry =>
          rw [retried] at drawn
          refine .other inside plain ?_
          revert op
          decide

def multiplyLatency (cycle : Nat) : Nat := if cycle % 12 = 4 ∨ cycle % 12 = 8 then 4 else 3

theorem multiplyLatency_le (cycle : Nat) : multiplyLatency cycle ≤ 4 := by
  unfold multiplyLatency
  split <;> omega

theorem multiplyLatency_period (cycle : Nat) :
    multiplyLatency (cycle + 12) = multiplyLatency cycle := by
  simp [multiplyLatency]

-- How many registers can still be in flight some cycles ahead of the cursor: the
-- destinations of the multiplies of three cycles and of this one, and of an
-- instruction after the multiply of this cycle.
def load (cursor ahead : Nat) : Nat :=
  let earlier (back : Nat) : Nat :=
    if back + ahead < multiplyLatency (cursor / 3 + 12 - back) then 1 else 0
  earlier 1 + earlier 2 + earlier 3 +
    (if 0 < cursor % 3 ∧ ahead < multiplyLatency (cursor / 3) then 1 else 0) +
    (if cursor % 3 = 2 ∧ ahead = 0 then 1 else 0)

theorem load_le (cursor : Nat) : load cursor 0 ≤ 5 := by
  unfold load
  dsimp only
  repeat' split
  all_goals omega

theorem load_start_le {cursor : Nat} (start : cursor % 3 = 0) : load cursor 0 ≤ 3 := by
  simp only [load, start]
  repeat' split
  all_goals omega

theorem load_after_multiply {cursor width : Nat} (start : cursor % 3 = 0)
    (one : width = 1 ∨ width = 2) (ahead : Nat) :
    load cursor ahead + (if ahead < multiplyLatency (cursor / 3) then 1 else 0) ≤
      load (cursor + width) ahead := by
  have cycle : (cursor + width) / 3 = cursor / 3 := by omega
  have phase : 0 < (cursor + width) % 3 := by omega
  simp only [load, cycle, start, phase, true_and, Nat.lt_irrefl, false_and, if_false,
    Nat.reduceEqDiff]
  omega

theorem load_after_other {cursor : Nat} (inside : cursor % 3 = 1) (ahead : Nat) :
    load cursor ahead + (if ahead = 0 then 1 else 0) = load (cursor + 1) ahead := by
  have cycle : (cursor + 1) / 3 = cursor / 3 := by omega
  have phase : (cursor + 1) % 3 = 2 := by omega
  simp only [load, cycle, inside, phase, true_and]
  simp

theorem load_next_cycle {cursor next : Nat} (inside : cursor % 3 ≠ 0)
    (cycle : next / 3 = cursor / 3 + 1) (start : next % 3 = 0) (ahead : Nat) :
    load cursor (ahead + 1) = load next ahead := by
  have phase : 0 < cursor % 3 := by omega
  have done : ¬ 3 + (ahead + 1) < multiplyLatency (cursor / 3 + 12 - 3) := by
    have short := multiplyLatency_le (cursor / 3 + 12 - 3)
    omega
  have one : cursor / 3 + 1 + 12 - 1 = cursor / 3 + 12 := by omega
  have two : cursor / 3 + 1 + 12 - 2 = cursor / 3 + 12 - 1 := by omega
  have three : cursor / 3 + 1 + 12 - 3 = cursor / 3 + 12 - 2 := by omega
  simp only [load, cycle, start, phase, one, two, three, multiplyLatency_period, if_neg done,
    true_and, Nat.lt_irrefl, false_and, if_false, Nat.reduceEqDiff, Nat.succ_ne_zero, and_false]
  rw [show 1 + (ahead + 1) = 2 + ahead by omega, show 2 + (ahead + 1) = 3 + ahead by omega,
    Nat.add_comm ahead 1]
  omega

-- How many registers can have been written last by a wide multiply: a target
-- forgets the writers, and two wide multiplies follow before the next one.
def wideBound (cursor : Nat) : Nat :=
  if cursor % 36 ≤ 1 then 2 else if cursor % 36 ≤ 12 then 0 else if cursor % 36 ≤ 24 then 1 else 2

theorem wideBound_start {cursor : Nat} (start : cursor % 36 = 12 ∨ cursor % 36 = 24) :
    wideBound cursor ≤ 1 := by
  unfold wideBound
  repeat' split
  all_goals omega

structure Plain (op : Opcode) : Prop where
  width : op.microOps.subCycles = 1
  latency : op.latency = 1
  group : op.writerGroup ≠ .umulh ∧ op.writerGroup ≠ .smulh
  single : op.isMultiplication = false
  written : op.hasDestination = true

theorem other_plain (op : Opcode) (drawn : op ∈ OpcodeClass.normal.opcodes) : Plain op := by
  cases op with
  | mul | umulh | smulh | target | branch => exact absurd drawn (by decide)
  | _ => exact ⟨rfl, rfl, by decide, rfl, rfl⟩

-- What one instruction of the pattern does to the numbers kept along it, from
-- the cursor before it to the one after it.
structure Step (cursor next : Nat) (op : Opcode) : Prop where
  aligned : Aligned next
  index : index next = index cursor + 1
  cycle : next / 3 = cursor / 3 ∨ next / 3 = cursor / 3 + 1 ∧ next % 3 = 0
  load : ∀ ahead, load cursor (next / 3 - cursor / 3 + ahead) +
    (if op.hasDestination = true ∧ next / 3 - cursor / 3 + ahead < op.latency then 1 else 0) ≤
      load next ahead
  pending : op.hasDestination = true ∧ 3 ≤ op.latency ∨ cursor % 3 ≠ 0
  multiplies : (next + 2) / 3 = (cursor + 2) / 3 + if op.isMultiplication then 1 else 0
  wide : op ≠ .target → wideBound cursor +
    (if op.writerGroup = .umulh ∨ op.writerGroup = .smulh then 1 else 0) ≤ wideBound next

theorem index_single {cursor : Nat} (plain : cursor % 36 ≠ 1 ∧ cursor % 36 ≠ 12 ∧
    cursor % 36 ≠ 19 ∧ cursor % 36 ≠ 24) : index (cursor + 1) = index cursor + 1 := by
  unfold index doublesBefore
  repeat' split
  all_goals omega

theorem index_double {cursor : Nat} (double : cursor % 36 = 1 ∨ cursor % 36 = 12 ∨
    cursor % 36 = 19 ∨ cursor % 36 = 24) : index (cursor + 2) = index cursor + 1 := by
  unfold index doublesBefore
  repeat' split
  all_goals omega

theorem wideBound_single {cursor : Nat} (plain : cursor % 36 ≠ 1 ∧ cursor % 36 ≠ 12 ∧
    cursor % 36 ≠ 19 ∧ cursor % 36 ≠ 24) (aligned : Aligned cursor) :
    wideBound cursor ≤ wideBound (cursor + 1) := by
  obtain ⟨_, _, _, _⟩ := aligned
  unfold wideBound
  repeat' split
  all_goals omega

theorem wideBound_wide {cursor : Nat} (start : cursor % 36 = 12 ∨ cursor % 36 = 24) :
    wideBound cursor + 1 ≤ wideBound (cursor + 2) := by
  unfold wideBound
  repeat' split
  all_goals omega

theorem wideBound_branch {cursor : Nat} (here : cursor % 36 = 19) :
    wideBound cursor ≤ wideBound (cursor + 2) := by
  unfold wideBound
  repeat' split
  all_goals omega

theorem load_multiply {cursor width latency : Nat} (start : cursor % 3 = 0)
    (one : width = 1 ∨ width = 2) (takes : latency = multiplyLatency (cursor / 3)) (ahead : Nat) :
    load cursor ((cursor + width) / 3 - cursor / 3 + ahead) +
      (if (cursor + width) / 3 - cursor / 3 + ahead < latency then 1 else 0) ≤
        load (cursor + width) ahead := by
  rw [show (cursor + width) / 3 - cursor / 3 + ahead = ahead by omega, takes]
  exact load_after_multiply start one ahead

theorem load_last {cursor next latency : Nat} (inside : cursor % 3 ≠ 0)
    (cycle : next / 3 = cursor / 3 + 1) (start : next % 3 = 0) (short : latency ≤ 1) (ahead : Nat) :
    load cursor (next / 3 - cursor / 3 + ahead) +
      (if next / 3 - cursor / 3 + ahead < latency then 1 else 0) ≤ load next ahead := by
  rw [if_neg (by omega), show next / 3 - cursor / 3 + ahead = ahead + 1 by omega, Nat.add_zero]
  exact Nat.le_of_eq (load_next_cycle inside cycle start ahead)

theorem step_multiply {cursor : Nat} {op : Opcode} (aligned : Aligned cursor)
    (start : cursor % 3 = 0) (plain : cursor % 36 ≠ 12 ∧ cursor % 36 ≠ 24) (is : op = .mul) :
    Step cursor (cursor + op.microOps.subCycles) op := by
  have ⟨_, _, _, _⟩ := aligned
  subst is
  rw [show Opcode.mul.microOps.subCycles = 1 from rfl]
  have takes : Opcode.mul.latency = multiplyLatency (cursor / 3) :=
    (if_neg (show ¬ (cursor / 3 % 12 = 4 ∨ cursor / 3 % 12 = 8) by omega)).symm
  refine ⟨by unfold Aligned; omega, index_single (by omega), by omega, fun ahead => ?_,
    .inl ⟨rfl, by decide⟩, ?_, fun _ => wideBound_single (by omega) aligned⟩
  · simpa only [show Opcode.mul.hasDestination = true from rfl, true_and] using
      load_multiply start (.inl rfl) takes ahead
  · rw [show Opcode.mul.isMultiplication = true from rfl, if_pos rfl]
    omega

theorem step_wideMultiply {cursor : Nat} {op : Opcode}
    (start : cursor % 36 = 12 ∨ cursor % 36 = 24) (is : op = .smulh ∨ op = .umulh) :
    Step cursor (cursor + op.microOps.subCycles) op := by
  have takes : op.latency = multiplyLatency (cursor / 3) := by
    rw [show multiplyLatency (cursor / 3) = 4 from if_pos (by omega)]
    rcases is with rfl | rfl <;> rfl
  have width : op.microOps.subCycles = 2 := by rcases is with rfl | rfl <;> rfl
  have written : op.hasDestination = true := by rcases is with rfl | rfl <;> rfl
  have multiply : op.isMultiplication = true := by rcases is with rfl | rfl <;> rfl
  have wide : op.writerGroup = .umulh ∨ op.writerGroup = .smulh := by
    rcases is with rfl | rfl <;> simp [Opcode.writerGroup]
  have long : 3 ≤ op.latency := by rcases is with rfl | rfl <;> decide
  rw [width]
  refine ⟨by unfold Aligned; omega, index_double (by omega), by omega, fun ahead => ?_,
    .inl ⟨written, long⟩, ?_, fun _ => ?_⟩
  · simpa only [written, true_and] using load_multiply (by omega) (.inr rfl) takes ahead
  · rw [multiply, if_pos rfl]
    omega
  · rw [if_pos wide]
    exact wideBound_wide start

theorem step_control {cursor : Nat} {op : Opcode} (here : cursor % 36 = 1 ∨ cursor % 36 = 19)
    (width : op.microOps.subCycles = 2) (unwritten : op.hasDestination = false)
    (single : op.isMultiplication = false)
    (wide : op ≠ .target → wideBound cursor +
      (if op.writerGroup = .umulh ∨ op.writerGroup = .smulh then 1 else 0) ≤
        wideBound (cursor + 2)) :
    Step cursor (cursor + op.microOps.subCycles) op := by
  rw [width]
  refine ⟨by unfold Aligned; omega, index_double (by omega), by omega, fun ahead => ?_,
    .inr (by omega), ?_, wide⟩
  · simpa [unwritten] using
      load_last (show cursor % 3 ≠ 0 by omega) (by omega) (by omega) (Nat.zero_le 1) ahead
  · simp only [single, Bool.false_eq_true, if_false]
    omega

theorem step_other {cursor : Nat} {op : Opcode} (aligned : Aligned cursor) (inside : cursor % 3 ≠ 0)
    (plain : cursor % 36 ≠ 1 ∧ cursor % 36 ≠ 19) (drawn : op ∈ OpcodeClass.normal.opcodes) :
    Step cursor (cursor + op.microOps.subCycles) op := by
  have ⟨_, _, _, _⟩ := aligned
  have kind := other_plain op drawn
  rw [kind.width]
  refine ⟨by unfold Aligned; omega, index_single (by omega), by omega, fun ahead => ?_,
    .inr inside, ?_, fun _ => ?_⟩
  · simp only [kind.written, true_and, kind.latency]
    by_cases second : cursor % 3 = 1
    · rw [show (cursor + 1) / 3 - cursor / 3 + ahead = ahead by omega]
      simpa using Nat.le_of_eq (load_after_other second ahead)
    · exact load_last inside (by omega) (by omega) (Nat.le_refl 1) ahead
  · rw [kind.single]
    simp only [Bool.false_eq_true, if_false]
    omega
  · simpa [kind.group] using wideBound_single (by omega) aligned

theorem step {cursor : Nat} {pass : Pass} {op : Opcode} (aligned : Aligned cursor)
    (drawn : op ∈ (OpcodeClass.ofCursor cursor pass).opcodes) :
    Step cursor (cursor + op.microOps.subCycles) op := by
  cases settled drawn with
  | multiply start plain is => exact step_multiply aligned start plain is
  | wideMultiply start is => exact step_wideMultiply start is
  | target here is =>
      subst is
      exact step_control (.inl here) rfl rfl rfl (absurd rfl)
  | branch here is =>
      subst is
      exact step_control (.inr here) rfl rfl rfl fun _ => wideBound_branch here
  | other inside plain is => exact step_other aligned inside plain is

end Pattern

end ProgramHash
