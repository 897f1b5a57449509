import ProgramHash.Proofs.Generation.Pattern

namespace ProgramHash

def UnitSet.all : UnitSet := ⟨true, true, true⟩

namespace Pattern

-- The units a cycle has given away when the cursor stands in it. After the
-- multiply and one more instruction only p0 or only p5 is left, and p5 only
-- after a shifted sum.
structure UnitsAt (cursor : Nat) (last : Option Opcode) (busy : UnitSet) : Prop where
  start : cursor % 3 = 0 → busy = .none
  multiplied : cursor % 3 = 1 → busy = ⟨false, true, false⟩
  oneLeft : cursor % 3 = 2 →
    busy = ⟨false, true, true⟩ ∨ busy = ⟨true, true, false⟩ ∧ last = some .addShift

theorem place_second : ∀ op ∈ OpcodeClass.normal.opcodes,
    (op.microOps.place ⟨false, true, false⟩).map (UnitSet.union ⟨false, true, false⟩) =
      some (if op = .addShift then ⟨true, true, false⟩ else ⟨false, true, true⟩) := by decide

theorem place_third : ∀ op ∈ OpcodeClass.normal.opcodes,
    (op.microOps.place ⟨false, true, true⟩).map (UnitSet.union ⟨false, true, true⟩) = some .all := by
  decide

theorem place_third_shifted : ∀ op ∈ OpcodeClass.normal.opcodes, op ≠ .addShift →
    (op.microOps.place ⟨true, true, false⟩).map (UnitSet.union ⟨true, true, false⟩) = some .all := by
  decide

theorem not_shifted {cursor : Nat} {pass : Pass} {op : Opcode} (inside : cursor % 3 ≠ 0)
    (plain : cursor % 36 ≠ 1 ∧ cursor % 36 ≠ 19)
    (drawn : op ∈ (OpcodeClass.ofCursor cursor pass).opcodes)
    (follows : pass = .first → op.mayFollow (some .addShift) = true) : op ≠ .addShift := by
  rintro rfl
  cases pass with
  | first => cases follows rfl
  | retry =>
      cases kind cursor with
      | other _ _ _ retried => rw [retried] at drawn; revert drawn; decide
      | multiply start => exact inside start
      | wideMultiply start => omega
      | target here => exact plain.1 here
      | branch here => exact plain.2 here

theorem place_here {cursor : Nat} {last : Option Opcode} {busy : UnitSet} {pass : Pass} {op : Opcode}
    (units : UnitsAt cursor last busy)
    (drawn : op ∈ (OpcodeClass.ofCursor cursor pass).opcodes)
    (follows : pass = .first → op.mayFollow last = true) :
    ∃ after, (op.microOps.place busy).map busy.union = some after ∧
      ((cursor + op.microOps.subCycles) / 3 = cursor / 3 →
        UnitsAt (cursor + op.microOps.subCycles) (some op) after) ∧
      ((cursor + op.microOps.subCycles) / 3 ≠ cursor / 3 → after = .all) := by
  cases settled drawn with
  | multiply start plain is =>
      subst is
      rw [units.start start]
      refine ⟨⟨false, true, false⟩, rfl, fun _ => ?_, fun left => ?_⟩
      · rw [show Opcode.mul.microOps.subCycles = 1 from rfl]
        exact ⟨by omega, fun _ => rfl, by omega⟩
      · rw [show Opcode.mul.microOps.subCycles = 1 from rfl] at left
        omega
  | wideMultiply start is =>
      have width : op.microOps.subCycles = 2 := by rcases is with rfl | rfl <;> rfl
      rw [units.start (by omega), width]
      refine ⟨⟨false, true, true⟩, ?_, fun _ => ⟨by omega, by omega, fun _ => .inl rfl⟩, by omega⟩
      rcases is with rfl | rfl <;> rfl
  | target here is =>
      subst is
      rw [units.multiplied (by omega), show Opcode.target.microOps.subCycles = 2 from rfl]
      exact ⟨.all, rfl, by omega, fun _ => rfl⟩
  | branch here is =>
      subst is
      rw [units.multiplied (by omega), show Opcode.branch.microOps.subCycles = 2 from rfl]
      exact ⟨.all, rfl, by omega, fun _ => rfl⟩
  | other inside plain is =>
      rw [(other_plain op is).width]
      by_cases second : cursor % 3 = 1
      · rw [units.multiplied second]
        refine ⟨_, place_second op is, fun _ => ⟨by omega, by omega, fun _ => ?_⟩, by omega⟩
        by_cases shifted : op = .addShift
        · exact .inr ⟨if_pos shifted, by rw [shifted]⟩
        · exact .inl (if_neg shifted)
      · rcases units.oneLeft (by omega) with rfl | ⟨rfl, rfl⟩
        · exact ⟨.all, place_third op is, by omega, fun _ => rfl⟩
        · have plainOp := not_shifted inside plain drawn follows
          exact ⟨.all, place_third_shifted op is plainOp, by omega, fun _ => rfl⟩

end Pattern

namespace Ledger

def wideWriters (l : Ledger) : Nat :=
  Register.all.countP fun r => l.writers[r].group = .umulh ∨ l.writers[r].group = .smulh

theorem wideWriters_forget (l : Ledger) : l.forget.wideWriters = 0 := by
  simp [wideWriters, forget, Writer.nobody]

theorem wideWriters_set_le (l : Ledger) (d : Register) (w : Writer) (n : UInt64) :
    Ledger.wideWriters ⟨l.writers.set d w, n⟩ ≤
      l.wideWriters + if w.group = .umulh ∨ w.group = .smulh then 1 else 0 := by
  have same : ∀ r ∈ Register.all, r ≠ d →
      decide ((l.writers.set d w)[r].group = .umulh ∨ (l.writers.set d w)[r].group = .smulh) =
        decide (l.writers[r].group = .umulh ∨ l.writers[r].group = .smulh) := by
    intro r _ other
    simp [other]
  split
  · exact countP_le_succ_of_off Register.nodup_all same
  · rename_i plain
    refine countP_le_of_off same fun wide => absurd ?_ plain
    simpa using wide

end Ledger

namespace Generator

variable {σ : Type}

-- The state of a generator that has never stalled nor put anything off: every
-- earlier cycle is full, no later one has been touched, and no more registers
-- are in flight than the multiplies of the pattern put there.
structure OnTime (g : Generator σ) : Prop where
  aligned : Pattern.Aligned g.schedule.cursor
  past : ∀ cycle < g.schedule.cycle, g.schedule.busy[cycle]? = some .all
  present : ∃ busy, g.schedule.busy[g.schedule.cycle]? = some busy ∧
    Pattern.UnitsAt g.schedule.cursor g.lastDrawn busy
  future : ∀ cycle, g.schedule.cycle < cycle → cycle < 196 →
    g.schedule.busy[cycle]? = some .none
  loads : ∀ ahead, g.schedule.inFlight (g.schedule.cycle + ahead) ≤
    Pattern.load g.schedule.cursor ahead
  pending : g.schedule.cursor % 3 ≠ 0 → ∃ r : Register, g.schedule.cycle + 3 ≤ g.schedule.ready[r]
  wide : g.ledger.wideWriters ≤ Pattern.wideBound g.schedule.cursor
  multiplies : g.ledger.multiplies = UInt64.ofNat ((g.schedule.cursor + 2) / 3)
  stalls : g.stalls = #[]

theorem onTime_fresh (draws : σ) : OnTime (fresh draws) where
  aligned := show Pattern.Aligned 0 by simp [Pattern.Aligned]
  past := fun cycle before => by simp [fresh, Schedule.initial, Schedule.cycle] at before
  present := ⟨.none, by simp [fresh, Schedule.initial, Schedule.cycle], by simp,
    by simp [fresh, Schedule.initial], by simp [fresh, Schedule.initial]⟩
  future := fun cycle _ inside => by simp [fresh, Schedule.initial, inside]
  loads := fun ahead => by
    have none : (fresh draws).schedule.inFlight ((fresh draws).schedule.cycle + ahead) = 0 :=
      Schedule.inFlight_zero.mpr fun r => by simp [fresh, Schedule.initial]
    omega
  pending := fun inside => absurd rfl inside
  wide := by simp [Ledger.wideWriters, fresh, Ledger.initial, Writer.nobody]
  multiplies := by simp [fresh, Schedule.initial, Ledger.initial]
  stalls := rfl

structure Issued (g : Generator σ) (issue : Issue) (h : Generator σ) : Prop where
  drawn : issue.instruction.opcode ∈ (OpcodeClass.ofCursor g.schedule.cursor issue.pass).opcodes
  follows : issue.pass = .first → issue.instruction.opcode.mayFollow g.lastDrawn = true
  planned : g.schedule.plan? issue.instruction.opcode = some issue.slot
  accepted : (g.opening issue.pass issue.instruction.opcode issue.slot).Accepts
    issue.instruction issue.writer
  schedule : h.schedule = g.schedule.book issue.slot issue.instruction
  ledger : h.ledger = g.ledger
  lastDrawn : h.lastDrawn = some issue.instruction.opcode
  stalls : h.stalls = g.stalls

theorem OnTime.plan {g : Generator σ} (onTime : OnTime g) {pass : Pass} {op : Opcode}
    (drawn : op ∈ (OpcodeClass.ofCursor g.schedule.cursor pass).opcodes)
    (follows : pass = .first → op.mayFollow g.lastDrawn = true) :
    ∃ busy taken, g.schedule.busy[g.schedule.cycle]? = some busy ∧
      g.schedule.plan? op = some ⟨g.schedule.cycle, taken⟩ ∧
      ((g.schedule.cursor + op.microOps.subCycles) / 3 = g.schedule.cycle →
        Pattern.UnitsAt (g.schedule.cursor + op.microOps.subCycles) (some op) (busy.union taken)) ∧
      ((g.schedule.cursor + op.microOps.subCycles) / 3 ≠ g.schedule.cycle →
        busy.union taken = .all) := by
  obtain ⟨busy, here, units⟩ := onTime.present
  obtain ⟨after, placed, staying, leaving⟩ := Pattern.place_here units drawn follows
  obtain ⟨taken, found, rfl⟩ := Option.map_eq_some_iff.mp placed
  have inside : g.schedule.cycle < 196 := by
    have room := g.schedule.cursor_lt
    simp only [Schedule.cycle, Schedule.subCyclesPerCycle]
    omega
  refine ⟨busy, taken, here, Schedule.slotFrom_here inside ?_, staying, leaving⟩
  simp [Schedule.slotAt?, here, found]

theorem OnTime.available {g : Generator σ} (onTime : OnTime g) :
    3 ≤ (g.schedule.readyAt g.schedule.cycle).size ∧
      (g.schedule.cursor % 3 = 0 → 5 ≤ (g.schedule.readyAt g.schedule.cycle).size) := by
  have load := onTime.loads 0
  have total := g.schedule.readyAt_size g.schedule.cycle
  have most := Pattern.load_le g.schedule.cursor
  rw [Nat.add_zero] at load
  refine ⟨by omega, fun start => ?_⟩
  have few := Pattern.load_start_le start
  omega

structure Finished (k : Generator σ) : Prop where
  latency : k.schedule.latency = 194
  multiplies : k.ledger.multiplies = 192
  stalls : k.stalls = #[]

variable {g h : Generator σ}

namespace Issued

variable {issue : Issue}

theorem step (onTime : OnTime g) (issued : Issued g issue h) :
    Pattern.Step g.schedule.cursor
      (g.schedule.cursor + issue.instruction.opcode.microOps.subCycles) issue.instruction.opcode :=
  Pattern.step onTime.aligned issued.drawn

theorem slot (onTime : OnTime g) (issued : Issued g issue h) :
    ∃ busy taken, issue.slot = ⟨g.schedule.cycle, taken⟩ ∧
      g.schedule.busy[g.schedule.cycle]? = some busy ∧
      ((g.schedule.cursor + issue.instruction.opcode.microOps.subCycles) / 3 = g.schedule.cycle →
        Pattern.UnitsAt (g.schedule.cursor + issue.instruction.opcode.microOps.subCycles)
          (some issue.instruction.opcode) (busy.union taken)) ∧
      ((g.schedule.cursor + issue.instruction.opcode.microOps.subCycles) / 3 ≠ g.schedule.cycle →
        busy.union taken = .all) := by
  obtain ⟨busy, taken, here, planned, staying, leaving⟩ := onTime.plan issued.drawn issued.follows
  have same := issued.planned
  rw [planned, Option.some.injEq] at same
  exact ⟨busy, taken, same.symm, here, staying, leaving⟩

theorem slot_cycle (onTime : OnTime g) (issued : Issued g issue h) :
    issue.slot.cycle = g.schedule.cycle := by
  obtain ⟨_, _, slot, _⟩ := issued.slot onTime
  rw [slot]

theorem destination_ready (issued : Issued g issue h) {d : Register}
    (written : issue.instruction.destination? = some d) :
    g.schedule.ready[d] ≤ issue.slot.cycle :=
  Schedule.mem_readyAt.mp (issued.accepted.allowed d written).1

theorem loads (onTime : OnTime g) (issued : Issued g issue h) (ahead : Nat) :
    h.schedule.inFlight
        ((g.schedule.cursor + issue.instruction.opcode.microOps.subCycles) / 3 + ahead) ≤
      Pattern.load (g.schedule.cursor + issue.instruction.opcode.microOps.subCycles) ahead := by
  have step := issued.step onTime
  generalize g.schedule.cursor + issue.instruction.opcode.microOps.subCycles = next at step ⊢
  have cycle : g.schedule.cycle = g.schedule.cursor / 3 := rfl
  have later : next / 3 + ahead = g.schedule.cycle + (next / 3 - g.schedule.cursor / 3 + ahead) := by
    have := step.cycle
    omega
  refine Nat.le_trans ?_ (step.load ahead)
  have before := onTime.loads (next / 3 - g.schedule.cursor / 3 + ahead)
  have written := issue.instruction.destination_isSome
  rw [issued.schedule, later]
  cases destination : issue.instruction.destination? with
  | none =>
      rw [Schedule.inFlight_book_plain destination]
      exact Nat.le_trans before (Nat.le_add_right _ _)
  | some d =>
      rw [destination] at written
      have booked := @Schedule.inFlight_book g.schedule issue.slot issue.instruction
        (g.schedule.cycle + (next / 3 - g.schedule.cursor / 3 + ahead))
      rw [issued.slot_cycle onTime] at booked
      simp only [← written, Option.isSome_some, true_and]
      simp only [Nat.add_lt_add_iff_left] at booked
      omega

-- The multiply of the cycle stays in flight: nothing later in the cycle may
-- write its register.
theorem pending (onTime : OnTime g) (issued : Issued g issue h) :
    ∃ r : Register, g.schedule.cycle + 3 ≤ h.schedule.ready[r] := by
  have slot := issued.slot_cycle onTime
  rw [issued.schedule]
  rcases (issued.step onTime).pending with ⟨written, long⟩ | inside
  · rw [← issue.instruction.destination_isSome] at written
    obtain ⟨d, destination⟩ := Option.isSome_iff_exists.mp written
    refine ⟨d, ?_⟩
    rw [Schedule.book_ready_same destination, slot]
    omega
  · obtain ⟨r, late⟩ := onTime.pending inside
    -- What issues now found its destination ready, so that it is another register.
    have other : issue.instruction.destination? ≠ some r := fun destination => by
      have early := issued.destination_ready destination
      omega
    exact ⟨r, by rwa [Schedule.book_booked.ready, if_neg other]⟩

theorem record (onTime : OnTime g) (issued : Issued g issue h) :
    ∃ recorded, g.ledger.record issue.instruction issue.writer = .ok recorded ∧
      recorded.multiplies = UInt64.ofNat
        ((g.schedule.cursor + issue.instruction.opcode.microOps.subCycles + 2) / 3) ∧
      recorded.wideWriters ≤ g.ledger.wideWriters +
        (if issue.instruction.opcode.writerGroup = .umulh ∨
          issue.instruction.opcode.writerGroup = .smulh then 1 else 0) := by
  have counted : g.ledger.counted issue.instruction = UInt64.ofNat
      ((g.schedule.cursor + issue.instruction.opcode.microOps.subCycles + 2) / 3) := by
    rw [(issued.step onTime).multiplies, UInt64.ofNat_add, ← onTime.multiplies, Ledger.counted]
    split <;> simp
  have group : issue.writer.group = issue.instruction.opcode.writerGroup :=
    issued.accepted.fits.proposed.group
  unfold Ledger.record
  cases destination : issue.instruction.destination? with
  | none =>
      rw [if_pos (issued.accepted.nobody destination)]
      exact ⟨_, rfl, counted, Nat.le_add_right _ _⟩
  | some d => exact ⟨_, rfl, counted, group ▸ Ledger.wideWriters_set_le _ _ _ _⟩

theorem units (onTime : OnTime g) (issued : Issued g issue h) {next : Nat}
    (moved : next = g.schedule.cursor + issue.instruction.opcode.microOps.subCycles)
    (room : next ≤ 576) :
    (∀ cycle < next / 3, h.schedule.busy[cycle]? = some .all) ∧
      (∃ busy, h.schedule.busy[next / 3]? = some busy ∧
        Pattern.UnitsAt next (some issue.instruction.opcode) busy) ∧
      ∀ cycle, next / 3 < cycle → cycle < 196 → h.schedule.busy[cycle]? = some .none := by
  obtain ⟨busy, taken, slot, here, staying, leaving⟩ := issued.slot onTime
  have step := (issued.step onTime).cycle
  rw [← moved] at staying leaving step
  have cycle : g.schedule.cycle = g.schedule.cursor / 3 := rfl
  have same : h.schedule.busy[g.schedule.cycle]? = some (busy.union taken) := by
    have booked := @Schedule.book_busy_same g.schedule issue.slot issue.instruction busy
      (by rw [slot]; change g.schedule.cycle < 196; omega)
      (by rw [slot]; exact here)
    rw [slot] at booked
    rw [issued.schedule, slot]
    exact booked
  have other (c : Nat) (apart : c ≠ g.schedule.cycle) :
      h.schedule.busy[c]? = g.schedule.busy[c]? := by
    rw [issued.schedule]
    exact Schedule.book_busy_other (by rw [slot]; exact apart)
  rcases step with stays | ⟨leaves, start⟩
  · refine ⟨fun c before => ?_, ⟨_, ?_, staying stays⟩, fun c after inside => ?_⟩
    · rw [other c (by omega)]
      exact onTime.past c (by omega)
    · rw [stays, ← cycle]
      exact same
    · rw [other c (by omega)]
      exact onTime.future c (by omega) inside
  · refine ⟨fun c before => ?_, ⟨.none, ?_, fun _ => rfl, by omega, by omega⟩,
      fun c after inside => ?_⟩
    · by_cases last : c = g.schedule.cycle
      · rw [last, same, leaving (by omega)]
      · rw [other c last]
        exact onTime.past c (by omega)
    · rw [other _ (by omega)]
      exact onTime.future _ (by omega) (by omega)
    · rw [other c (by omega)]
      exact onTime.future c (by omega) inside

theorem onTime_moved (onTime : OnTime g) (issued : Issued g issue h) {recorded : Ledger} {next : Nat}
    (moved : next = g.schedule.cursor + issue.instruction.opcode.microOps.subCycles)
    (inside : next / Schedule.subCyclesPerCycle < Schedule.cycleLimit)
    (multiplies : recorded.multiplies = UInt64.ofNat ((next + 2) / 3))
    (wide : recorded.wideWriters ≤ g.ledger.wideWriters +
      (if issue.instruction.opcode.writerGroup = .umulh ∨
        issue.instruction.opcode.writerGroup = .smulh then 1 else 0)) :
    OnTime { h with
      ledger := if issue.instruction = .target then recorded.forget else recorded
      schedule := { h.schedule with cursor := next, inside } } := by
  have step := issued.step onTime
  have room : next < 576 := (Nat.div_lt_iff_lt_mul (by decide)).mp inside
  obtain ⟨past, present, future⟩ := issued.units onTime moved (Nat.le_of_lt room)
  have loads := issued.loads onTime
  obtain ⟨r, late⟩ := issued.pending onTime
  rw [← moved] at step loads
  refine ⟨step.aligned, past, ?_, future, loads, fun inside => ⟨r, ?_⟩, ?_, ?_,
    issued.stalls.trans onTime.stalls⟩
  · change ∃ busy, _ ∧ Pattern.UnitsAt next h.lastDrawn busy
    rw [issued.lastDrawn]
    exact present
  · have same : next / 3 = g.schedule.cycle := by
      rcases step.cycle with same | ⟨_, start⟩
      · exact same
      · exact absurd start inside
    change next / 3 + 3 ≤ _
    rwa [same]
  · dsimp only
    split
    · rw [Ledger.wideWriters_forget]
      exact Nat.zero_le _
    · rename_i kept
      exact Nat.le_trans wide (Nat.le_trans (Nat.add_le_add_right onTime.wide _)
        (step.wide fun target => kept (Instruction.eq_target target)))
  · dsimp only
    split
    · exact multiplies
    · exact multiplies

theorem commit (onTime : OnTime g) (issued : Issued g issue h) :
    (∃ k, h.commit issue = .ok (k, true) ∧ OnTime k ∧
        Pattern.index k.schedule.cursor = Pattern.index g.schedule.cursor + 1) ∨
      ∃ k, h.commit issue = .ok (k, false) ∧ Finished k ∧
        Pattern.index g.schedule.cursor = 511 := by
  obtain ⟨recorded, written, multiplies, wide⟩ := issued.record onTime
  have step := issued.step onTime
  have cursor : h.schedule.cursor = g.schedule.cursor := by rw [issued.schedule]; rfl
  unfold Generator.commit
  rw [issued.ledger, written]
  simp only [Schedule.pass_eq, cursor]
  by_cases inside : (g.schedule.cursor + issue.instruction.opcode.microOps.subCycles) /
      Schedule.subCyclesPerCycle < Schedule.cycleLimit
  · rw [dif_pos inside]
    exact .inl ⟨_, rfl, issued.onTime_moved onTime rfl inside multiplies wide, step.index⟩
  · rw [dif_neg inside]
    have last : g.schedule.cursor + issue.instruction.opcode.microOps.subCycles = 576 := by
      have := g.schedule.cursor_lt
      have := step.cycle
      simp only [Schedule.subCyclesPerCycle, Schedule.cycleLimit] at inside
      omega
    have loads := issued.loads onTime
    obtain ⟨r, late⟩ := issued.pending onTime
    rw [last] at step loads multiplies
    refine .inr ⟨_, rfl, ⟨?_, ?_, issued.stalls.trans onTime.stalls⟩, ?_⟩
    · have done : h.schedule.inFlight 194 = 0 := Nat.le_zero.mp (loads 2)
      have most := Schedule.latency_le.mpr (Schedule.inFlight_zero.mp done)
      have least := Schedule.latency_le.mp (Nat.le_refl h.schedule.latency) r
      have cycle : g.schedule.cycle = g.schedule.cursor / 3 := rfl
      have := step.cycle
      change h.schedule.latency = 194
      omega
    · dsimp only
      split
      · exact multiplies
      · exact multiplies
    · exact Nat.succ.inj step.index.symm

end Issued

end Generator

end ProgramHash
