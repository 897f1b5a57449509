import ProgramHash.Proofs.Generation.History

-- A schedule keeps one ready cycle for a register, that of its latest writer. It
-- stands for all earlier writers, since nothing is written or read before it is
-- ready.
namespace ProgramHash

theorem RegisterSet.mem_of_sourcesFor {s : RegisterSet} {op : Opcode} {r : Register}
    (member : r ∈ (s.sourcesFor op).members) : r ∈ s.members := by
  unfold sourcesFor at member
  split at member
  · exact (List.mem_filter.mp member).1
  · exact member

def Instruction.Uses (i : Instruction) (r : Register) : Prop :=
  i.source? = some r ∨ i.destination? = some r

def Issue.finish (a : Issue) : Nat := a.slot.cycle + a.instruction.opcode.latency

namespace Generator

variable {σ : Type} [Draw σ] {limit : Nat} {g h k : Generator σ} {issue : Issue} {issues : List Issue}

theorem next_finds_ready (made : g.next limit = .made issue h) {r : Register}
    (used : issue.instruction.Uses r) : g.schedule.ready[r] ≤ issue.slot.cycle := by
  obtain ⟨k, _, ready, _, _, found⟩ := next_made made
  obtain ⟨_, _, _, accepted, _⟩ := attempt_made found
  rw [← ready]
  rcases used with read | written
  · exact Schedule.mem_readyAt.mp (RegisterSet.mem_of_sourcesFor (accepted.fits.ready r read))
  · exact Schedule.mem_readyAt.mp (accepted.allowed r written).1

theorem next_leaves_ready (made : g.next limit = .made issue h) (r : Register) :
    (issue.instruction.destination? = some r → h.schedule.ready[r] = issue.finish) ∧
      (issue.instruction.destination? ≠ some r → h.schedule.ready[r] = g.schedule.ready[r]) := by
  obtain ⟨k, _, ready, _, _, found⟩ := next_made made
  obtain ⟨_, _, _, _, draws, rfl⟩ := attempt_made found
  rw [← ready, Schedule.book_booked.ready r]
  exact ⟨fun written => if_pos written, fun other => if_neg other⟩

omit [Draw σ] in
theorem commit_ready {passed : Bool} (noted : h.commit issue = .ok (k, passed)) :
    k.schedule.ready = h.schedule.ready := by
  rcases commit_moves noted with ⟨_, moved⟩ | ⟨_, _, same⟩
  · obtain ⟨_, same⟩ := Schedule.pass_some moved
    rw [same]
  · rw [same]

theorem next_ready_increases (made : g.next limit = .made issue h) {r : Register}
    (written : issue.instruction.destination? = some r) :
    g.schedule.ready[r] < h.schedule.ready[r] := by
  have before := next_finds_ready made (.inr written)
  have slow : 0 < issue.instruction.opcode.latency := by
    cases issue.instruction.opcode <;> decide
  rw [(next_leaves_ready made r).1 written, Issue.finish]
  omega

-- The ready cycles of a schedule against what was issued before: no result is
-- later than its register says, and a register says when its latest result is there.
structure Accounts (g : Generator σ) (issues : List Issue) (s : Schedule) : Prop where
  covered : ∀ a ∈ issues, ∀ r, a.instruction.destination? = some r → a.finish ≤ s.ready[r]
  attained : ∀ r : Register, s.ready[r] = g.schedule.ready[r] ∨
    ∃ a ∈ issues, a.instruction.destination? = some r ∧ s.ready[r] = a.finish

theorem Accounts.next (accounts : Accounts g issues h.schedule)
    (made : h.next limit = .made issue k) : Accounts g (issues ++ [issue]) k.schedule where
  covered := by
    intro a member r written
    rcases List.mem_append.mp member with earlier | latest
    · have before := accounts.covered a earlier r written
      by_cases again : issue.instruction.destination? = some r
      · exact Nat.le_trans before (Nat.le_of_lt (next_ready_increases made again))
      · rwa [(next_leaves_ready made r).2 again]
    -- The result of the latest is what the register says from now on.
    · cases List.mem_singleton.mp latest
      exact Nat.le_of_eq ((next_leaves_ready made r).1 written).symm
  attained := by
    intro r
    by_cases written : issue.instruction.destination? = some r
    · exact .inr ⟨issue, by simp, written, (next_leaves_ready made r).1 written⟩
    · rw [(next_leaves_ready made r).2 written]
      rcases accounts.attained r with untouched | ⟨a, member, earlier, same⟩
      · exact .inl untouched
      · exact .inr ⟨a, List.mem_append_left _ member, earlier, same⟩

theorem Reached.accounts (reached : Reached limit g issues h) : Accounts g issues h.schedule := by
  induction reached with
  | start => exact ⟨fun _ member => (List.not_mem_nil member).elim, fun _ => .inl rfl⟩
  | step _ made passed ih =>
      obtain ⟨covered, attained⟩ := ih.next made
      have same := commit_ready passed
      exact ⟨by rwa [same], by rwa [same]⟩

theorem run_waits {room i j : Nat} {a b : Issue} {r : Register} (earlier : i < j)
    (first : (g.run limit room).issues[i]? = some a)
    (second : (g.run limit room).issues[j]? = some b)
    (written : a.instruction.destination? = some r) (used : b.instruction.Uses r) :
    a.finish ≤ b.slot.cycle := by
  obtain ⟨h, made, reached, next⟩ := run_issued second
  have member : a ∈ (g.run limit room).issues.take j :=
    List.mem_of_getElem? ((List.getElem?_take_of_lt earlier).trans first)
  exact Nat.le_trans (reached.accounts.covered a member r written) (next_finds_ready next used)

end Generator

theorem Schedule.exists_latency {s : Schedule} (positive : 0 < s.latency) :
    ∃ r : Register, s.ready[r] = s.latency := by
  refine Classical.byContradiction fun none => ?_
  have all := Schedule.latency_le.mp (Nat.le_refl s.latency)
  have fewer : s.latency ≤ s.latency - 1 := Schedule.latency_le.mpr fun r => by
    have := all r
    have : s.ready[r] ≠ s.latency := fun same => none ⟨r, same⟩
    omega
  omega

section Drafts

variable {σ : Type} [Draw σ] {draws : σ} {limit : Nat}

namespace Generator

theorem draft_accounts (ended : ((fresh draws).draft limit).ending ≠ .unended) :
    Accounts (fresh draws) ((fresh draws).draft limit).issues
      ((fresh draws).draft limit).generator.schedule := by
  obtain ⟨before, last, h, made, issues, reached, next, _, _, stopped⟩ := draft_completed ended
  obtain ⟨_, _, same⟩ := (commit_moves stopped).resolve_left (by simp)
  rw [issues, same]
  exact reached.accounts.next next

theorem draft_latency (ended : ((fresh draws).draft limit).ending ≠ .unended) :
    ((fresh draws).draft limit).generator.schedule.latency = 194 := by
  rcases draft_ended draws limit with unended | ⟨_, _, finished⟩
  · exact absurd unended ended
  · exact finished.latency

omit [Draw σ] in
theorem finish_plain {g h : Generator σ} {issue : Issue} (onTime : OnTime g)
    (issued : Issued g issue h) (plain : issue.instruction.destination? = none) :
    issue.finish ≤ 194 := by
  have kind := issue.instruction.destination_isSome
  have short : issue.instruction.opcode.latency = 1 := by
    rw [plain] at kind
    cases op : issue.instruction.opcode with
    | target | branch => rfl
    | _ => rw [op] at kind; cases kind
  have inside := g.schedule.cursor_lt
  rw [Issue.finish, short, issued.slot_cycle onTime, Schedule.cycle, Schedule.subCyclesPerCycle]
  omega

theorem draft_finish_le (ended : ((fresh draws).draft limit).ending ≠ .unended) {a : Issue}
    (member : a ∈ ((fresh draws).draft limit).issues) :
    a.finish ≤ ((fresh draws).draft limit).generator.schedule.latency := by
  cases written : a.instruction.destination? with
  | some r =>
      exact Nat.le_trans ((draft_accounts ended).covered a member r written)
        (Schedule.latency_le.mp (Nat.le_refl _) r)
  | none =>
      obtain ⟨n, here⟩ := List.getElem?_of_mem member
      obtain ⟨h, made, _, _, onTime, issued, _⟩ := draft_issued here
      rw [draft_latency ended]
      exact finish_plain onTime issued written

theorem draft_finish_last (ended : ((fresh draws).draft limit).ending ≠ .unended) :
    ∃ a ∈ ((fresh draws).draft limit).issues,
      a.finish = ((fresh draws).draft limit).generator.schedule.latency := by
  have late := draft_latency ended
  obtain ⟨r, last⟩ := Schedule.exists_latency (s := ((fresh draws).draft limit).generator.schedule)
    (by omega)
  rcases (draft_accounts ended).attained r with untouched | ⟨a, member, _, same⟩
  · rw [show (fresh draws).schedule.ready[r] = 0 from Bank.read_filled 0 r] at untouched
    omega
  · exact ⟨a, member, by omega⟩

end Generator

def Draft.issuedAt (d : Draft σ) (n : Nat) : Nat := (d.issues[n]?.map fun a => a.slot.cycle).getD 0

omit [Draw σ] in
theorem Draft.getElem_program {d : Draft σ} {n : Nat} {x : Instruction}
    (here : d.program[n]? = some x) :
    ∃ a, d.issues[n]? = some a ∧ a.instruction = x ∧ a.finish = d.issuedAt n + x.opcode.latency := by
  rw [program, List.getElem?_map] at here
  obtain ⟨a, there, rfl⟩ := Option.map_eq_some_iff.mp here
  exact ⟨a, there, rfl, by simp [issuedAt, there, Issue.finish]⟩

def HazardFree (program : List Instruction) (issuedAt : Nat → Nat) : Prop :=
  ∀ (i j : Nat) (x y : Instruction) (r : Register), i < j → program[i]? = some x →
    program[j]? = some y → x.destination? = some r → (y.source? = some r ∨ y.destination? = some r) →
      issuedAt i + x.opcode.latency ≤ issuedAt j

structure FinishesAt (program : List Instruction) (issuedAt : Nat → Nat) (cycle : Nat) : Prop where
  all : ∀ n x, program[n]? = some x → issuedAt n + x.opcode.latency ≤ cycle
  last : ∃ n x, program[n]? = some x ∧ issuedAt n + x.opcode.latency = cycle

theorem Draft.hazardFree (g : Generator σ) (limit room : Nat) :
    HazardFree (g.run limit room).program (g.run limit room).issuedAt := by
  intro i j x y r earlier first second written used
  obtain ⟨a, one, rfl, finish⟩ := getElem_program first
  obtain ⟨b, two, rfl, _⟩ := getElem_program second
  rw [← finish, show (g.run limit room).issuedAt j = b.slot.cycle by simp [issuedAt, two]]
  exact Generator.run_waits earlier one two written used

theorem Draft.finishesAt (ended : ((Generator.fresh draws).draft limit).ending ≠ .unended) :
    FinishesAt ((Generator.fresh draws).draft limit).program
      ((Generator.fresh draws).draft limit).issuedAt
      ((Generator.fresh draws).draft limit).generator.schedule.latency where
  all := by
    intro n x here
    obtain ⟨a, there, rfl, finish⟩ := getElem_program here
    rw [← finish]
    exact Generator.draft_finish_le ended (List.mem_of_getElem? there)
  last := by
    obtain ⟨a, member, same⟩ := Generator.draft_finish_last ended
    obtain ⟨n, there⟩ := List.getElem?_of_mem member
    have here : ((Generator.fresh draws).draft limit).program[n]? = some a.instruction := by
      rw [program, List.getElem?_map, there]
      rfl
    obtain ⟨b, again, _, finish⟩ := getElem_program here
    rw [there, Option.some.injEq] at again
    subst again
    exact ⟨n, _, here, finish.symm.trans same⟩

end Drafts

theorem Opcode.latency_values : Opcode.mul.latency = 3 ∧ Opcode.umulh.latency = 4 ∧
    Opcode.smulh.latency = 4 ∧ ∀ op : Opcode, op.isMultiplication = false → op.latency = 1 := by
  refine ⟨rfl, rfl, rfl, fun op plain => ?_⟩
  cases op with
  | mul | umulh | smulh => cases plain
  | _ => rfl

-- Every write puts off the cycle its register is ready at, so that the eight ready
-- cycles tell when the whole program has finished.
theorem generated_programs_hazard_free :
    (∀ (σ : Type) [Draw σ] (draws : σ) (limit : Nat),
      let d := (Generator.fresh draws).draft limit
      HazardFree d.program d.issuedAt ∧
        (∀ n issue r, d.issues[n]? = some issue → issue.instruction.destination? = some r →
          ∃ h made, Generator.Reached limit (Generator.fresh draws) (d.issues.take n) h ∧
            h.next limit = .made issue made ∧ h.schedule.ready[r] < made.schedule.ready[r] ∧
            made.schedule.ready[r] = issue.slot.cycle + issue.instruction.opcode.latency) ∧
        (d.ending ≠ .unended → d.program.length = 512 ∧
          FinishesAt d.program d.issuedAt d.generator.schedule.latency)) ∧
    (∀ (key : SipState) (limit attempts salt : Nat) (p : Program),
      (Program.generateFrom key limit attempts salt).2 = .ok p →
        let d := (Generator.fresh (CounterStream.ofSalt key (UInt32.ofNat salt))).draft limit
        HazardFree p.toList d.issuedAt ∧ p.size = 512 ∧
          FinishesAt p.toList d.issuedAt d.generator.schedule.latency) ∧
    Opcode.mul.latency = 3 ∧ Opcode.umulh.latency = 4 ∧ Opcode.smulh.latency = 4 ∧
      ∀ op : Opcode, op.isMultiplication = false → op.latency = 1 := by
  refine ⟨fun σ _ draws limit => ⟨Draft.hazardFree _ _ _, ?_, ?_⟩, ?_, Opcode.latency_values⟩
  · intro n issue r here written
    obtain ⟨h, made, reached, next, _⟩ := Generator.draft_issued here
    exact ⟨h, made, reached, next, Generator.next_ready_increases next written,
      (Generator.next_leaves_ready next r).1 written⟩
  · intro ended
    exact ⟨(List.length_map _).trans (Generator.draft_length ended), Draft.finishesAt ended⟩
  · intro key limit attempts salt p generated
    obtain ⟨accepted, rfl⟩ := Program.generateFrom_ok generated
    have ended := Draft.verdict_accepted.mp accepted
    refine ⟨Draft.hazardFree _ _ _, ?_, Draft.finishesAt ended⟩
    rw [Program.size, Program.ofList, List.size_toArray, Draft.program, List.length_map]
    exact Generator.draft_length ended

theorem sweep_program_hazard_free :
    ((Generator.fresh (⟨0⟩ : Sweep)).draft 4).ending ≠ .unended ∧
      FinishesAt ((Generator.fresh (⟨0⟩ : Sweep)).draft 4).program
        ((Generator.fresh (⟨0⟩ : Sweep)).draft 4).issuedAt
        ((Generator.fresh (⟨0⟩ : Sweep)).draft 4).generator.schedule.latency :=
  ⟨Sweep.draft_ends, ((generated_programs_hazard_free.1 Sweep ⟨0⟩ 4).2.2 Sweep.draft_ends).2⟩

end ProgramHash
