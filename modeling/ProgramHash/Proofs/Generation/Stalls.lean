import ProgramHash.Proofs.Generation.History

-- There are just as many instructions in the pattern as a program needs. A stall
-- costs two of them wherever it falls, since three thirds of a cycle hold no more
-- than one instruction of two thirds, and a later start costs one at least.
namespace ProgramHash

namespace Pattern

theorem index_pos {cursor : Nat} (moved : 0 < cursor) : 0 < index cursor := by
  unfold index doublesBefore
  repeat' split
  all_goals omega

-- An instruction takes one number of the pattern, also where a stall has left the
-- cursor in the middle of a place for two thirds.
theorem index_drawn {cursor : Nat} {pass : Pass} {op : Opcode}
    (drawn : op ∈ (OpcodeClass.ofCursor cursor pass).opcodes) :
    index (cursor + op.microOps.subCycles) = index cursor + 1 := by
  cases settled drawn with
  | multiply start plain is =>
      subst is
      exact index_single (by omega)
  | wideMultiply start is =>
      have width : op.microOps.subCycles = 2 := by rcases is with rfl | rfl <;> rfl
      rw [width]
      exact index_double (by omega)
  | target here is =>
      subst is
      exact index_double (by omega)
  | branch here is =>
      subst is
      exact index_double (by omega)
  | other inside plain is =>
      rw [(other_plain op is).width]
      exact index_single (by omega)

theorem index_stall (cursor : Nat) : index cursor + 2 ≤ index (cursor + 3) := by
  unfold index doublesBefore
  repeat' split
  all_goals omega

theorem index_stalls (cursor n : Nat) : index cursor + 2 * n ≤ index (cursor + 3 * n) := by
  induction n with
  | zero => exact Nat.le_refl _
  | succ n ih =>
      have next := index_stall (cursor + 3 * n)
      rw [Nat.mul_succ, Nat.mul_succ, ← Nat.add_assoc cursor]
      omega

end Pattern

namespace Schedule

def hasNext (cycle : Nat) : Bool := cycle + 1 < cycleLimit

theorem stall_isSome (s : Schedule) : s.stall?.isSome = hasNext s.cycle := by
  have next : (s.cursor + 3) / subCyclesPerCycle = s.cycle + 1 := Nat.add_div_right _ (by decide)
  rw [stall_eq, hasNext, ← next]
  split
  · rename_i inside
    exact (decide_eq_true inside).symm
  · rename_i outside
    exact (decide_eq_false outside).symm

end Schedule

namespace Generator

variable {σ : Type} [Draw σ] {limit : Nat} {g h k l : Generator σ} {issue : Issue}

-- The stalls before an instruction, with the cycles they skip. Each comes of two
-- refused passes and moves the cursor.
inductive Stalled (limit : Nat) : Generator σ → List Nat → Generator σ → Prop where
  | none {g : Generator σ} : Stalled limit g [] g
  | stall {g h k l : Generator σ} {schedule : Schedule} {cycles : List Nat} :
      g.attempt limit .first = .refused h → h.attempt limit .retry = .refused k →
      k.schedule.stall? = some schedule → Stalled limit { k.noteStall with schedule } cycles l →
      Stalled limit g (g.schedule.cycle :: cycles) l

theorem attempt_redraws {pass : Pass} (refused : g.attempt limit pass = .refused h) :
    ∃ draws op, h = { g with draws, lastDrawn := some op } := by
  obtain ⟨op, draws, _, same, _⟩ := attempt_blocked refused
  exact ⟨draws, op, same⟩

theorem passes_refused (first : g.attempt limit .first = .refused h)
    (second : h.attempt limit .retry = .refused k) :
    ∃ draws op, k = { g with draws, lastDrawn := some op } := by
  obtain ⟨_, _, rfl⟩ := attempt_redraws first
  obtain ⟨draws, op, rfl⟩ := attempt_redraws second
  exact ⟨draws, op, rfl⟩

namespace Stalled

variable {cycles : List Nat}

theorem noted (stalled : Stalled limit g cycles l) :
    l.stalls.toList = g.stalls.toList ++ cycles := by
  induction stalled with
  | none => exact (List.append_nil _).symm
  | stall first second moved _ ih =>
      obtain ⟨_, _, rfl⟩ := passes_refused first second
      rw [ih]
      simp [noteStall]

theorem cursor (stalled : Stalled limit g cycles l) :
    l.schedule.cursor = g.schedule.cursor + 3 * cycles.length := by
  induction stalled with
  | none => rfl
  | @stall g h k l schedule cycles first second moved _ ih =>
      obtain ⟨_, _, rfl⟩ := passes_refused first second
      obtain ⟨_, rfl⟩ := Schedule.stall_some moved
      have later : l.schedule.cursor = g.schedule.cursor + 3 + 3 * cycles.length := ih
      rw [later, List.length_cons]
      omega

theorem moved (stalled : Stalled limit g cycles l) : ∀ c ∈ cycles, Schedule.hasNext c = true := by
  induction stalled with
  | none => exact fun _ member => (List.not_mem_nil member).elim
  | stall first second moved _ ih =>
      obtain ⟨_, _, rfl⟩ := passes_refused first second
      rintro c (_ | ⟨_, member⟩)
      · rw [← Schedule.stall_isSome, moved]
        rfl
      · exact ih c member

end Stalled

theorem OnTime.not_stalled (onTime : OnTime g) {cycles : List Nat} (stalled : Stalled limit g cycles k) :
    k = g := by
  cases stalled with
  | none => rfl
  | stall first second => exact absurd second (onTime.retry_not_refused first)

def Finds (limit : Nat) (g : Generator σ) (issue : Issue) (h : Generator σ) : Prop :=
  g.attempt limit .first = .made issue h ∨
    ∃ k, g.attempt limit .first = .refused k ∧ k.attempt limit .retry = .made issue h

theorem Finds.stays (found : Finds limit g issue h) :
    h.stalls = g.stalls ∧ h.schedule.cursor = g.schedule.cursor ∧
      issue.instruction.opcode ∈ (OpcodeClass.ofCursor g.schedule.cursor issue.pass).opcodes := by
  rcases found with first | ⟨k, refused, second⟩
  · obtain ⟨⟨drawn, _⟩, _, pass, _, _, rfl⟩ := attempt_made first
    exact ⟨rfl, rfl, pass ▸ drawn⟩
  · obtain ⟨⟨drawn, _⟩, _, pass, _, _, rfl⟩ := attempt_made second
    obtain ⟨schedule, _, stalls⟩ := attempt_refused refused
    rw [schedule] at drawn
    exact ⟨stalls, by rw [Schedule.book_cursor, schedule], pass ▸ drawn⟩

theorem next_finds (made : g.next limit = .made issue h) :
    ∃ cycles k, Stalled limit g cycles k ∧ Finds limit k issue h := by
  fun_induction g.next limit with
  | case1 => cases made
  | case2 g issue h first => exact ⟨[], g, .none, .inl (made ▸ first)⟩
  | case3 => cases made
  | case4 g h first issue k second => exact ⟨[], g, .none, .inr ⟨h, first, made ▸ second⟩⟩
  | case5 => cases made
  | case6 g h first k second schedule moved ih =>
      obtain ⟨cycles, l, stalled, found⟩ := ih made
      exact ⟨_, l, stalled.stall first second moved, found⟩

theorem next_gives_up (refused : g.next limit = .refused h) :
    ∃ cycles k draws op, Stalled limit g cycles k ∧ k.schedule.stall? = none ∧
      h = { k with draws, lastDrawn := some op, stalls := k.stalls.push k.schedule.cycle } := by
  fun_induction g.next limit with
  | case1 => cases refused
  | case2 => cases refused
  | case3 => cases refused
  | case4 => cases refused
  | case5 g h first k second stuck =>
      cases refused
      obtain ⟨draws, op, rfl⟩ := passes_refused first second
      exact ⟨[], g, draws, op, .none, stuck, rfl⟩
  | case6 g h first k second schedule moved ih =>
      obtain ⟨cycles, l, draws, op, stalled, found⟩ := ih refused
      exact ⟨_, l, draws, op, stalled.stall first second moved, found⟩

theorem next_counts (made : g.next limit = .made issue h) :
    ∃ cycles, h.stalls.toList = g.stalls.toList ++ cycles ∧
      (∀ c ∈ cycles, Schedule.hasNext c = true) ∧
      Pattern.index g.schedule.cursor + 2 * cycles.length ≤ Pattern.index h.schedule.cursor ∧
      issue.instruction.opcode ∈ (OpcodeClass.ofCursor h.schedule.cursor issue.pass).opcodes := by
  obtain ⟨cycles, k, stalled, found⟩ := next_finds made
  obtain ⟨stalls, cursor, drawn⟩ := found.stays
  refine ⟨cycles, by rw [stalls, stalled.noted], stalled.moved, ?_, cursor ▸ drawn⟩
  rw [cursor, stalled.cursor]
  exact Pattern.index_stalls _ _

theorem next_noted (made : g.next limit = .made issue h) :
    ∃ k passed, h.commit issue = .ok (k, passed) := by
  obtain ⟨_, _, _, _, _, found⟩ := next_made made
  obtain ⟨_, _, _, accepted, _⟩ := attempt_made found
  obtain ⟨_, written⟩ := accepted.recorded h.ledger
  exact commit_recorded written

theorem run_ne_faulted (room : Nat) (fault : Fault) : (g.run limit room).ending ≠ .faulted fault := by
  induction room generalizing g with
  | zero => simp [run]
  | succ room ih =>
      unfold run
      split
      · simp
      · simp
      · rename_i made
        obtain ⟨k, passed, noted⟩ := next_noted made
        rw [noted]
        cases passed with
        | false => simp
        | true => exact ih

def Lost (g : Generator σ) (stalls : Array Nat) (issued : Nat) : Prop :=
  ∃ noted, stalls.toList = g.stalls.toList ++ noted ∧
    issued + noted.length + noted.countP Schedule.hasNext ≤
      max 1 (512 - Pattern.index g.schedule.cursor)

omit [Draw σ] in
theorem lost_start (g : Generator σ) : Lost g g.stalls 0 :=
  ⟨[], (List.append_nil _).symm, Nat.zero_le _⟩

theorem lost_gives_up (refused : g.next limit = .refused h) : Lost g h.stalls 0 := by
  obtain ⟨cycles, k, _, _, stalled, stuck, rfl⟩ := next_gives_up refused
  have last : Schedule.hasNext k.schedule.cycle = false := by
    rw [← Schedule.stall_isSome, stuck]
    rfl
  have moved := List.countP_eq_length.mpr stalled.moved
  refine ⟨cycles ++ [k.schedule.cycle], by simp [stalled.noted], ?_⟩
  simp only [List.countP_append, moved, List.countP_singleton, last, List.length_append,
    List.length_singleton, Bool.false_eq_true, if_false]
  have skipped := Pattern.index_stalls g.schedule.cursor cycles.length
  rw [← stalled.cursor] at skipped
  have inside := Pattern.index_lt k.schedule.cursor_lt
  omega

theorem lost_last (made : g.next limit = .made issue h) : Lost g h.stalls 1 := by
  obtain ⟨cycles, noted, moving, skipped, _⟩ := next_counts made
  refine ⟨cycles, noted, ?_⟩
  rw [List.countP_eq_length.mpr moving]
  have inside := Pattern.index_lt h.schedule.cursor_lt
  omega

theorem lost_step {stalls : Array Nat} {issued : Nat} (made : g.next limit = .made issue h)
    (passed : h.commit issue = .ok (k, true)) (rest : Lost k stalls issued) :
    Lost g stalls (issued + 1) := by
  obtain ⟨cycles, noted, moving, skipped, drawn⟩ := next_counts made
  obtain ⟨later, noted', bound⟩ := rest
  obtain ⟨_, _, _, _, kept⟩ := commit_notes passed
  obtain ⟨_, moved⟩ := (commit_moves passed).resolve_right (by simp)
  obtain ⟨_, schedule⟩ := Schedule.pass_some moved
  have cursor : Pattern.index k.schedule.cursor = Pattern.index h.schedule.cursor + 1 := by
    rw [schedule]
    exact Pattern.index_drawn drawn
  have inside := Pattern.index_lt k.schedule.cursor_lt
  refine ⟨cycles ++ later, by rw [noted', kept, noted, List.append_assoc], ?_⟩
  rw [List.countP_append, List.length_append, List.countP_eq_length.mpr moving]
  omega

theorem run_lost (g : Generator σ) (limit room : Nat) :
    Lost g (g.run limit room).generator.stalls (g.run limit room).issues.length := by
  induction room generalizing g with
  | zero => exact lost_start g
  | succ room ih =>
      unfold run
      cases stepped : g.next limit with
      | unended => exact lost_start g
      | refused h => exact lost_gives_up stepped
      | made issue h =>
          obtain ⟨k, passed, done⟩ := next_noted stepped
          obtain ⟨_, _, _, _, kept⟩ := commit_notes done
          simp only [done]
          cases passed with
          | false => exact kept ▸ lost_last stepped
          | true => exact lost_step stepped done (ih k)

end Generator

def Draft.moves {σ : Type} (d : Draft σ) (start : Generator σ) : Nat :=
  (d.generator.stalls.toList.drop start.stalls.size).countP Schedule.hasNext

theorem Draft.verdict_short {σ : Type} {d : Draft σ} (ended : d.ending ≠ .unended)
    (noted : ∀ fault, d.ending ≠ .faulted fault) (short : d.issues.length ≠ 512) :
    d.verdict = .rejected (.length d.issues.length) := by
  have violated : d.generator.ledger.violation? d.generator.schedule d.issues.length =
      some (.length d.issues.length) := if_pos short
  unfold verdict
  cases ending : d.ending with
  | unended => exact absurd ending ended
  | faulted fault => exact absurd ending (noted fault)
  | full | outOfRoom => simp only [violated]

namespace Generator

variable {σ : Type} [Draw σ] {g : Generator σ} {limit : Nat}

theorem draft_lost (g : Generator σ) (limit : Nat) :
    (g.draft limit).issues.length + 2 * (g.draft limit).moves g ≤
        max 1 (512 - Pattern.index g.schedule.cursor) ∧
      ((g.draft limit).issues.length = 512 →
        g.schedule.cursor = 0 ∧ (g.draft limit).generator.stalls = g.stalls) := by
  obtain ⟨noted, record, bound⟩ := run_lost g limit Ledger.programSize
  have added : (g.draft limit).generator.stalls.toList.drop g.stalls.size = noted := by
    rw [draft, record, ← Array.length_toList, List.drop_left]
  have few : noted.countP Schedule.hasNext ≤ noted.length := List.countP_le_length
  rw [← draft] at bound record
  refine ⟨by rw [Draft.moves, added]; omega, fun full => ⟨?_, ?_⟩⟩
  · refine Classical.byContradiction fun moved => ?_
    have late := Pattern.index_pos (Nat.pos_of_ne_zero moved)
    omega
  · have none : noted = [] := List.eq_nil_of_length_eq_zero (by omega)
    rw [none, List.append_nil] at record
    exact Array.toList_inj.mp record

end Generator

-- From any state whatever, a run that stalls or does not start at the start of the
-- pattern comes to too few instructions, and this is what it is rejected for.
theorem stalled_runs_are_rejected (σ : Type) [Draw σ] (g : Generator σ) (limit : Nat) :
    let d := g.draft limit
    (EveryLoopEnds σ limit → d.ending ≠ .unended) ∧
    (d.ending ≠ .unended →
      (∀ more, limit ≤ more → g.draft more = d) ∧
      d.issues.length + 2 * d.moves g ≤ 512 ∧
      (0 < g.schedule.cursor → d.issues.length + 2 * d.moves g ≤ 511) ∧
      (d.verdict = .accepted → g.schedule.cursor = 0 ∧ d.generator.stalls = g.stalls) ∧
      (0 < g.schedule.cursor ∨ d.generator.stalls ≠ g.stalls →
        d.verdict = .rejected (.length d.issues.length))) ∧
    ∀ s : Schedule, s.stall?.isSome = Schedule.hasNext s.cycle := by
  intro d
  obtain ⟨bound, full⟩ := Generator.draft_lost g limit
  have short (ended : d.ending ≠ .unended) (few : d.issues.length ≠ 512) :
      d.verdict = .rejected (.length d.issues.length) :=
    Draft.verdict_short ended (Generator.run_ne_faulted _) few
  refine ⟨fun ends => g.run_ne_unended ends _, fun ended => ⟨?_, ?_, ?_, ?_, ?_⟩, Schedule.stall_isSome⟩
  · intro more larger
    exact g.draft_extends larger ended
  · exact Nat.le_trans bound (by omega)
  · intro late
    have behind := Pattern.index_pos late
    exact Nat.le_trans bound (by omega)
  · intro accepted
    refine full (Classical.byContradiction fun few => ?_)
    rw [short ended few] at accepted
    cases accepted
  · intro mishap
    refine short ended fun length => ?_
    obtain ⟨start, kept⟩ := full length
    rcases mishap with late | stalled
    · omega
    · exact stalled kept

-- Registers that are never ready refuse every pass. Three cycles from the end the
-- cursor moves twice, and a third stall is refused.
def Sweep.starved : Generator Sweep :=
  { Generator.fresh ⟨0⟩ with
    schedule := { Schedule.initial with
      ready := .filled 1000
      cursor := 567
      inside := by decide } }

theorem starved_run_is_rejected :
    EveryLoopEnds Sweep 4 ∧ 0 < Sweep.starved.schedule.cursor ∧
      (Sweep.starved.draft 4).generator.stalls = #[189, 190, 191] ∧
      (Sweep.starved.draft 4).moves Sweep.starved = 2 ∧
      (Sweep.starved.draft 4).issues.length + 2 * (Sweep.starved.draft 4).moves Sweep.starved ≤ 511 ∧
      (Sweep.starved.draft 4).verdict = .rejected (.length 0) ∧
      ((Generator.fresh (⟨0⟩ : Sweep)).draft 4).verdict = .accepted ∧
      ((Generator.fresh (⟨0⟩ : Sweep)).draft 4).generator.stalls = #[] := by
  obtain ⟨ends, starved, _⟩ := stalled_runs_are_rejected Sweep Sweep.starved 4
  obtain ⟨_, fresh, _⟩ := stalled_runs_are_rejected Sweep (Generator.fresh ⟨0⟩) 4
  have nothing : (Sweep.starved.draft 4).issues.length = 0 := by decide +kernel
  have stalls : (Sweep.starved.draft 4).generator.stalls = #[189, 190, 191] := by decide +kernel
  have stalled : (Sweep.starved.draft 4).generator.stalls ≠ Sweep.starved.stalls := by
    rw [stalls]
    decide
  have moves : (Sweep.starved.draft 4).moves Sweep.starved = 2 := by
    rw [Draft.moves, stalls]
    decide
  obtain ⟨_, _, bound, _, rejected⟩ := starved (ends Sweep.everyLoopEnds)
  have accepted := Draft.verdict_accepted.mpr Sweep.draft_ends
  obtain ⟨_, _, _, kept, _⟩ := fresh Sweep.draft_ends
  exact ⟨Sweep.everyLoopEnds, by decide, stalls, moves, bound (by decide),
    nothing ▸ rejected (.inr stalled), accepted, (kept accepted).2⟩

end ProgramHash
