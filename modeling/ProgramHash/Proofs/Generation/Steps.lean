import ProgramHash.Proofs.Generation.Hazards
import ProgramHash.Proofs.Generation.Packing
import ProgramHash.Proofs.Generation.Stalls

-- A step of a generator books one instruction that fits the state it is found in,
-- or nothing at all. What fails on the way leaves no trace but in the draws, in the
-- opcode drawn last and, where the cursor was stalled, in the cursor.
namespace ProgramHash

namespace Schedule

def stalled (s : Schedule) (n : Nat)
    (inside : (s.cursor + 3 * n) / subCyclesPerCycle < cycleLimit) : Schedule :=
  { s with cursor := s.cursor + 3 * n, inside }

theorem stalled_cycle (s : Schedule) (n : Nat)
    (inside : (s.cursor + 3 * n) / subCyclesPerCycle < cycleLimit) :
    (s.stalled n inside).cycle = s.cycle + n := Nat.add_mul_div_left s.cursor n (by decide)

theorem stall_stalled {s t : Schedule} (moved : s.stall? = some t) {n : Nat}
    (room : (t.cursor + 3 * n) / subCyclesPerCycle < cycleLimit) :
    ∃ inside, t.stalled n room = s.stalled (n + 1) inside := by
  obtain ⟨_, rfl⟩ := stall_some moved
  have sum : s.cursor + 3 + 3 * n = s.cursor + 3 * (n + 1) := by omega
  exact ⟨sum ▸ room, by simp only [stalled, sum]⟩

theorem stall_cycle {s t : Schedule} (moved : s.stall? = some t) : t.cycle = s.cycle + 1 := by
  obtain ⟨_, rfl⟩ := stall_some moved
  exact Nat.add_div_right s.cursor (by decide)

end Schedule

-- What an accepted instruction owes to the state it is found in: when it issues and
-- on which units, which registers it uses and what is noted for them.
structure Issue.Suits (issue : Issue) (s : Schedule) (l : Ledger) : Prop where
  later : s.cycle ≤ issue.slot.cycle
  units : ∃ busy, s.busy[issue.slot.cycle]? = some busy ∧
    issue.instruction.opcode.microOps.Assigned busy issue.slot.units
  ready : ∀ r, issue.instruction.Uses r → s.ready[r] ≤ issue.slot.cycle
  allowed : ∀ d, issue.instruction.destination? = some d →
    l.destinationAllowed issue.instruction.opcode issue.pass issue.writer
      issue.instruction.source? d = true
  nobody : issue.instruction.destination? = none → issue.writer = .nobody

namespace Generator

variable {σ : Type} [Draw σ] {limit : Nat} {g h k l : Generator σ} {issue : Issue}

theorem attempt_suits {pass : Pass} (made : g.attempt limit pass = .made issue h) :
    issue.Suits g.schedule g.ledger := by
  obtain ⟨_, planned, rfl, accepted, _⟩ := attempt_made made
  obtain ⟨busy, here, placed⟩ := Schedule.searchSlot_some planned
  refine ⟨Schedule.searchSlot_after planned, ⟨busy, here, MicroOps.place_assigned placed⟩, ?_, ?_,
    accepted.nobody⟩
  · rintro r (read | written)
    · exact Schedule.mem_readyAt.mp (RegisterSet.mem_of_sourcesFor (accepted.fits.ready r read))
    · exact Schedule.mem_readyAt.mp (accepted.allowed r written).1
  · intro d written
    exact (accepted.allowed d written).2

def StalledFor (n : Nat) (g h : Generator σ) : Prop :=
  ∃ draws lastDrawn stalls inside,
    h = { g with draws, lastDrawn, stalls, schedule := g.schedule.stalled n inside } ∧
    stalls.toList = g.stalls.toList ++ List.range' g.schedule.cycle n

theorem Stalled.stalledFor {cycles : List Nat} (stalled : Stalled limit g cycles h) :
    StalledFor cycles.length g h := by
  induction stalled with
  | @none g => exact ⟨_, _, _, g.schedule.inside, rfl, (List.append_nil _).symm⟩
  | stall first second moved _ ih =>
      obtain ⟨_, _, rfl⟩ := passes_refused first second
      obtain ⟨draws, lastDrawn, stalls, inside, rfl, noted⟩ := ih
      obtain ⟨inside, again⟩ := Schedule.stall_stalled moved inside
      refine ⟨draws, lastDrawn, stalls, inside, by rw [again]; rfl, ?_⟩
      rw [noted, Schedule.stall_cycle moved, List.length_cons, List.range'_succ]
      simp [noteStall]

def FoundBy (limit : Nat) (g : Generator σ) (issue : Issue) (h : Generator σ) : Pass → Prop
  | .first => g.attempt limit .first = .made issue h
  | .retry => ∃ k, g.attempt limit .first = .refused k ∧ k.attempt limit .retry = .made issue h

theorem Finds.foundBy (found : Finds limit g issue h) : FoundBy limit g issue h issue.pass := by
  rcases found with first | ⟨k, refused, second⟩
  · obtain ⟨_, _, pass, _⟩ := attempt_made first
    rw [pass]
    exact first
  · obtain ⟨_, _, pass, _⟩ := attempt_made second
    rw [pass]
    exact ⟨k, refused, second⟩

theorem Finds.suits (found : Finds limit g issue h) : issue.Suits g.schedule g.ledger := by
  rcases found with first | ⟨k, refused, second⟩
  · exact attempt_suits first
  · obtain ⟨schedule, ledger, _⟩ := attempt_refused refused
    rw [← schedule, ← ledger]
    exact attempt_suits second

theorem Finds.books (found : Finds limit g issue h) :
    ∃ draws, h = { g with
      draws
      lastDrawn := some issue.instruction.opcode
      schedule := g.schedule.book issue.slot issue.instruction } := by
  rcases found with first | ⟨k, refused, second⟩
  · obtain ⟨_, _, _, _, draws, same⟩ := attempt_made first
    exact ⟨draws, same⟩
  · obtain ⟨_, _, _, _, draws, rfl⟩ := attempt_made second
    obtain ⟨_, _, rfl⟩ := attempt_redraws refused
    exact ⟨draws, rfl⟩

end Generator

-- From any state a pass that fails has only drawn, and a step that succeeds stalls
-- some number of times and then books the instruction it returns, in units that
-- were free and with registers that were ready. The ledger waits for the commit,
-- which accepts whatever a step returns.
theorem steps_book_once (σ : Type) [Draw σ] (g : Generator σ) (limit : Nat) :
    (∀ pass h, g.attempt limit pass = .refused h →
      ∃ draws op, h = { g with draws, lastDrawn := some op }) ∧
    (∀ issue h, g.next limit = .made issue h →
      ∃ n inside k, Generator.StalledFor n g k ∧ Generator.FoundBy limit k issue h issue.pass ∧
        issue.Suits (g.schedule.stalled n inside) g.ledger ∧
        (g.schedule.stalled n inside).Booked issue.slot issue.instruction h.schedule ∧
        (∃ draws stalls,
          h = { g with
            draws
            lastDrawn := some issue.instruction.opcode
            stalls
            schedule := (g.schedule.stalled n inside).book issue.slot issue.instruction } ∧
          stalls.toList = g.stalls.toList ++ List.range' g.schedule.cycle n) ∧
        ∃ l passed, h.commit issue = .ok (l, passed)) ∧
    (∀ h, g.next limit = .refused h →
      ∃ n inside draws op stalls,
        h = { g with
          draws
          lastDrawn := some op
          stalls
          schedule := g.schedule.stalled n inside } ∧
        stalls.toList = g.stalls.toList ++ List.range' g.schedule.cycle (n + 1) ∧
        h.schedule.stall? = none) ∧
    (EveryLoopEnds σ limit → g.next limit ≠ .unended) := by
  refine ⟨fun pass h => Generator.attempt_redraws, fun issue h made => ?_, fun h refused => ?_,
    g.next_ne_unended⟩
  · obtain ⟨cycles, k, stalled, found⟩ := Generator.next_finds made
    have moved := stalled.stalledFor
    obtain ⟨_, _, stalls, inside, rfl, noted⟩ := stalled.stalledFor
    obtain ⟨draws, same⟩ := found.books
    have booked : (g.schedule.stalled cycles.length inside).Booked issue.slot issue.instruction
        h.schedule := by
      rw [same]
      exact Schedule.book_booked
    exact ⟨cycles.length, inside, _, moved, found.foundBy, found.suits, booked,
      ⟨draws, stalls, same, noted⟩, Generator.next_noted made⟩
  · obtain ⟨cycles, k, draws, op, stalled, stuck, rfl⟩ := Generator.next_gives_up refused
    obtain ⟨_, _, stalls, inside, rfl, noted⟩ := stalled.stalledFor
    refine ⟨cycles.length, inside, draws, op, _, rfl, ?_, stuck⟩
    rw [Array.toList_push, noted, Schedule.stalled_cycle, List.range'_concat, Nat.one_mul,
      List.append_assoc]

-- Registers that are ready one cycle after the cursor: both passes are refused, and
-- an instruction is found after one stall.
def Sweep.late : Generator Sweep :=
  { Generator.fresh ⟨0⟩ with schedule := { Schedule.initial with ready := .filled 1 } }

def Choice.isMade {σ α : Type} : Choice σ α → Bool
  | .made _ _ => true
  | .refused _ | .unended => false

def Choice.isRefused {σ α : Type} : Choice σ α → Bool
  | .refused _ => true
  | .made _ _ | .unended => false

theorem Choice.exists_made {σ α : Type} {c : Choice σ α} (made : c.isMade = true) :
    ∃ a s, c = .made a s := by
  cases c with
  | made a s => exact ⟨a, s, rfl⟩
  | refused | unended => cases made

theorem Choice.exists_refused {σ α : Type} {c : Choice σ α} (refused : c.isRefused = true) :
    ∃ s, c = .refused s := by
  cases c with
  | refused s => exact ⟨s, rfl⟩
  | made | unended => cases refused

theorem late_step_books_once :
    (∃ h, Sweep.late.attempt 4 .first = .refused h ∧
      ∃ draws op, h = { Sweep.late with draws, lastDrawn := some op }) ∧
    (∃ issue h, Sweep.late.next 4 = .made issue h ∧
      ∃ n inside, issue.Suits (Sweep.late.schedule.stalled n inside) Sweep.late.ledger ∧
        (Sweep.late.schedule.stalled n inside).Booked issue.slot issue.instruction h.schedule ∧
        h.ledger = Sweep.late.ledger ∧ ∃ l passed, h.commit issue = .ok (l, passed)) ∧
    (∃ h, Sweep.starved.next 4 = .refused h ∧
      ∃ n inside, h.schedule = Sweep.starved.schedule.stalled n inside) ∧
    EveryLoopEnds Sweep 4 ∧ Sweep.late.next 4 ≠ .unended := by
  obtain ⟨failed, succeeds, _, ends⟩ := steps_book_once Sweep Sweep.late 4
  obtain ⟨h, refused⟩ := Choice.exists_refused (c := Sweep.late.attempt 4 .first) (by decide +kernel)
  obtain ⟨issue, k, made⟩ := Choice.exists_made (c := Sweep.late.next 4) (by decide +kernel)
  obtain ⟨l, exhausted⟩ := Choice.exists_refused (c := Sweep.starved.next 4) (by decide +kernel)
  obtain ⟨n, within, _, _, _, suits, booked, ⟨_, _, same, _⟩, noted⟩ := succeeds issue k made
  obtain ⟨m, inside, _, _, _, left, _⟩ := (steps_book_once Sweep Sweep.starved 4).2.2.1 l exhausted
  exact ⟨⟨h, refused, failed .first h refused⟩,
    ⟨issue, k, made, n, within, suits, booked, by rw [same], noted⟩,
    ⟨l, exhausted, m, inside, by rw [left]⟩, Sweep.everyLoopEnds, ends Sweep.everyLoopEnds⟩

end ProgramHash
