import ProgramHash.Proofs.Generation.Rewriting
import ProgramHash.Proofs.Generation.SourceRule
import ProgramHash.Proofs.Generation.Steps

-- Registers in a run from scratch. A pass finds at least three that are ready, since no
-- more than five are ever in flight, and one at the start of a cycle finds five. The
-- rule for sources is about two of them, so that no run from scratch comes to use it.
namespace ProgramHash

namespace Generator

variable {σ : Type} [Draw σ] {limit : Nat} {g h k : Generator σ} {pass : Pass}

theorem OnTime.tries (onTime : OnTime g) (tried : Tries limit g pass k) : k.schedule = g.schedule := by
  cases tried with
  | first stalled => rw [onTime.not_stalled stalled]
  | retry stalled refused =>
      rw [onTime.not_stalled stalled] at refused
      exact (attempt_refused refused).1

structure Supplied (k : Generator σ) (op : Opcode) (slot : Slot) : Prop where
  planned : k.schedule.plan? op = some slot
  three : 3 ≤ (k.schedule.readyAt slot.cycle).size
  five : op.isMultiplication = true → 5 ≤ (k.schedule.readyAt slot.cycle).size

theorem OnTime.supplied (onTime : OnTime g) (tried : Tries limit g pass k) {op : Opcode} {draws : σ}
    (drawn : k.drawOpcode limit pass = some (op, draws)) : ∃ slot, k.Supplied op slot := by
  have schedule := onTime.tries tried
  obtain ⟨settled, follows⟩ := drawOpcode_some drawn
  rw [schedule] at settled
  have usual : pass = .first → op.mayFollow g.lastDrawn = true := by
    rintro rfl
    cases tried with
    | first stalled => rwa [onTime.not_stalled stalled] at follows
  obtain ⟨_, taken, _, planned, _⟩ := onTime.plan settled usual
  obtain ⟨three, five⟩ := onTime.available
  refine ⟨⟨g.schedule.cycle, taken⟩, ?_, ?_, fun multiply => ?_⟩
  · rw [schedule]
    exact planned
  · rw [schedule]
    exact three
  · rw [schedule]
    exact five ((Pattern.settled settled).isMultiplication_iff.mp multiply)

theorem RunTries.supplied {draws rest : σ} (tried : RunTries limit (fresh draws) pass k) {op : Opcode}
    (drawn : k.drawOpcode limit pass = some (op, rest)) : ∃ slot, k.Supplied op slot := by
  obtain ⟨issues, h, reached, tries⟩ := tried
  exact (reached.onTime (onTime_fresh draws)).1.supplied tries drawn

theorem RunTries.agrees {draws : σ} (tried : RunTries limit (fresh draws) pass k) :
    Agrees .none limit pass k := by
  intro op rest slot drawn planned
  obtain ⟨slot', supplied⟩ := tried.supplied drawn
  obtain rfl : slot' = slot := Option.some.inj (supplied.planned.symm.trans planned)
  exact (RegisterSet.sourcesFor_enough supplied.three op).symm

theorem draftUnder_none (draws : σ) (limit : Nat) :
    (fresh draws).draftUnder .none limit = (fresh draws).draft limit :=
  draftUnder_congr fun _ _ tried => tried.agrees

end Generator

-- Each pass of a run from scratch finds three registers, and one for a multiply finds
-- five, where its opcode is planned. So no source is ever withheld, and without the rule
-- every draft and every generated program is the same.
theorem registers_never_run_short :
    (∀ (σ : Type) [Draw σ] (draws : σ) (limit : Nat) (pass : Pass) (g : Generator σ) (op : Opcode)
      (rest : σ), Generator.RunTries limit (Generator.fresh draws) pass g →
        g.drawOpcode limit pass = some (op, rest) →
          ∃ slot, g.schedule.plan? op = some slot ∧
            3 ≤ (g.schedule.readyAt slot.cycle).size ∧
            (op.isMultiplication = true → 5 ≤ (g.schedule.readyAt slot.cycle).size) ∧
            (g.schedule.readyAt slot.cycle).sourcesFor op = g.schedule.readyAt slot.cycle) ∧
    (∀ (σ : Type) [Draw σ] (g : Generator σ) (limit : Nat),
      g.draftUnder RegisterSet.sourcesFor limit = g.draft limit) ∧
    (∀ (σ : Type) [Draw σ] (draws : σ) (limit : Nat),
      (Generator.fresh draws).draftUnder .none limit = (Generator.fresh draws).draft limit) ∧
    ∀ (key : SipState) (limit attempts salt : Nat),
      Program.generateUnder .none key limit attempts salt =
        Program.generateFrom key limit attempts salt := by
  refine ⟨?_, fun _ _ => Generator.draftUnder_sourcesFor, fun _ _ => Generator.draftUnder_none, ?_⟩
  · intro σ _ draws limit pass g op rest tried drawn
    obtain ⟨slot, planned, three, five⟩ := tried.supplied drawn
    exact ⟨slot, planned, three, five, RegisterSet.sourcesFor_enough three op⟩
  · intro key limit attempts salt
    exact Program.generateUnder_congr (fun _ => Generator.draftUnder_none _ limit) attempts salt

namespace Generator

variable {σ : Type} [Draw σ] {limit : Nat} {g h : Generator σ}

def after? (g : Generator σ) (limit : Nat) : Nat → Option (Generator σ)
  | 0 => some g
  | n + 1 =>
      match g.next limit with
      | .made issue h =>
          match h.commit issue with
          | .ok (k, true) => after? k limit n
          | _ => none
      | _ => none

theorem after_tries {n : Nat} (came : g.after? limit n = some h) : RunTries limit g .first h := by
  induction n generalizing g with
  | zero =>
      cases came
      exact ⟨[], _, .start, .first .none⟩
  | succ n ih =>
      unfold after? at came
      split at came
      · rename_i stepped
        split at came
        · rename_i passed
          exact (ih came).prepend stepped passed
        · cases came
      · cases came

def retried? (g : Generator σ) (limit : Nat) : Option (Generator σ) :=
  match g.attempt limit .first with
  | .refused h => some h
  | .made _ _ | .unended => none

theorem retried_some (left : g.retried? limit = some h) : g.attempt limit .first = .refused h := by
  unfold retried? at left
  split at left
  · rename_i refused
    cases left
    exact refused
  · cases left
  · cases left

def finding? (limit : Nat) (pass : Pass) (g : Generator σ) : Option (Opcode × Nat) := do
  let (op, _) ← g.drawOpcode limit pass
  let slot ← g.schedule.plan? op
  return (op, (g.schedule.readyAt slot.cycle).size)

theorem finding_some {pass : Pass} {op : Opcode} {n : Nat} (found : g.finding? limit pass = some (op, n)) :
    ∃ rest slot, g.drawOpcode limit pass = some (op, rest) ∧ g.schedule.plan? op = some slot ∧
      (g.schedule.readyAt slot.cycle).size = n := by
  obtain ⟨⟨drawn, rest⟩, drew, found⟩ := Option.bind_eq_some_iff.mp found
  obtain ⟨slot, planned, found⟩ := Option.bind_eq_some_iff.mp found
  cases found
  exact ⟨rest, slot, drew, planned, rfl⟩

end Generator

def Script.narrow : Script :=
  ⟨[2, 0, 2, 0, 2, 0, 0, 2, 0, 2, 0, 1, 2, 3, 0, 7], List.replicate 60 1⟩

def Script.Offers (draws : Script) (pass : Pass) (op : Opcode) (n : Nat) : Prop :=
  ∃ g rest slot, Generator.RunTries 4 (Generator.fresh draws) pass g ∧
    g.drawOpcode 4 pass = some (op, rest) ∧ g.schedule.plan? op = some slot ∧
    (g.schedule.readyAt slot.cycle).size = n ∧
    (g.schedule.readyAt slot.cycle).sourcesFor op = g.schedule.readyAt slot.cycle

theorem runs_offer_sources :
    Script.narrow.Offers .first .mul 5 ∧ Script.narrow.Offers .first .addShift 3 ∧
      Script.crowded.Offers .retry .addConst 4 := by
  have offers {draws : Script} {pass : Pass} {g : Generator Script} {op : Opcode} {n : Nat}
      (tried : Generator.RunTries 4 (Generator.fresh draws) pass g)
      (found : g.finding? 4 pass = some (op, n)) : draws.Offers pass op n := by
    obtain ⟨rest, slot, drawn, planned, counted⟩ := Generator.finding_some found
    obtain ⟨slot', again, _, _, kept⟩ :=
      registers_never_run_short.1 Script draws 4 pass g op rest tried drawn
    obtain rfl : slot' = slot := Option.some.inj (again.symm.trans planned)
    exact ⟨g, rest, _, tried, drawn, planned, counted, kept⟩
  have product : ((Generator.fresh Script.narrow).after? 4 18).bind (Generator.finding? 4 .first) =
      some (.mul, 5) := by decide +kernel
  have sum : ((Generator.fresh Script.narrow).after? 4 20).bind (Generator.finding? 4 .first) =
      some (.addShift, 3) := by decide +kernel
  have again : (((Generator.fresh Script.crowded).after? 4 15).bind (·.retried? 4)).bind
      (Generator.finding? 4 .retry) = some (.addConst, 4) := by decide +kernel
  obtain ⟨_, early, product⟩ := Option.bind_eq_some_iff.mp product
  obtain ⟨_, late, sum⟩ := Option.bind_eq_some_iff.mp sum
  obtain ⟨_, left, again⟩ := Option.bind_eq_some_iff.mp again
  obtain ⟨_, stuck, left⟩ := Option.bind_eq_some_iff.mp left
  have retried := (Generator.after_tries stuck).retry (Generator.retried_some left)
  exact ⟨offers (Generator.after_tries early) product, offers (Generator.after_tries late) sum,
    offers retried again⟩

-- Elsewhere the rule matters. With r0 and r5 left, a shifted sum may neither go to r5
-- nor, having read r0, to r0; without the rule it reads r5 and goes to r0.
def Script.stranded : Generator Script :=
  { Generator.fresh ⟨[7], [0, 1, 1]⟩ with
    schedule := { Schedule.initial with
      ready := .ofFn fun r => if r = 0 ∨ r = 5 then 0 else 1000
      cursor := 4
      inside := by decide } }

example : (Script.stranded.attempt 4 .first).isRefused = true ∧
    (Script.stranded.attemptUnder .none 4 .first).isMade = true := by decide +kernel

end ProgramHash
