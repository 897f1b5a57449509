import ProgramHash.Proofs.Generation.Attempts
import ProgramHash.Proofs.Outcomes

namespace ProgramHash

theorem Schedule.pass_none {s : Schedule} {op : Opcode} (blocked : s.pass? op = none) :
    576 ≤ s.cursor + op.microOps.subCycles := by
  rw [pass_eq] at blocked
  refine Nat.le_of_not_lt fun room => ?_
  rw [dif_pos ((Nat.div_lt_iff_lt_mul (by decide)).mpr room)] at blocked
  cases blocked

namespace Generator

theorem commit_cases {σ : Type} {h k : Generator σ} {issue : Issue} {passed : Bool}
    (noted : h.commit issue = .ok (k, passed)) :
    ∃ recorded schedule, h.ledger.record issue.instruction issue.writer = .ok recorded ∧
      k = { h with
        schedule := schedule
        ledger := if issue.instruction = .target then recorded.forget else recorded } ∧
      ((passed = true ∧ h.schedule.pass? issue.instruction.opcode = some schedule) ∨
        (passed = false ∧ h.schedule.pass? issue.instruction.opcode = none ∧
          schedule = h.schedule)) := by
  obtain ⟨recorded, written, rest⟩ := bind_ok.mp noted
  cases moved : h.schedule.pass? issue.instruction.opcode with
  | some schedule =>
      simp only [moved] at rest
      cases rest
      exact ⟨recorded, schedule, written, rfl, .inl ⟨rfl, rfl⟩⟩
  | none =>
      simp only [moved] at rest
      cases rest
      exact ⟨recorded, h.schedule, written, rfl, .inr ⟨rfl, rfl, rfl⟩⟩

theorem commit_moves {σ : Type} {h k : Generator σ} {issue : Issue} {passed : Bool}
    (noted : h.commit issue = .ok (k, passed)) :
    (passed = true ∧ h.schedule.pass? issue.instruction.opcode = some k.schedule) ∨
      (passed = false ∧ h.schedule.pass? issue.instruction.opcode = none ∧
        k.schedule = h.schedule) := by
  obtain ⟨_, _, _, rfl, moves⟩ := commit_cases noted
  exact moves

theorem commit_notes {σ : Type} {h k : Generator σ} {issue : Issue} {passed : Bool}
    (noted : h.commit issue = .ok (k, passed)) :
    ∃ recorded, h.ledger.record issue.instruction issue.writer = .ok recorded ∧
      k.ledger = (if issue.instruction = .target then recorded.forget else recorded) ∧
      k.lastDrawn = h.lastDrawn ∧ k.stalls = h.stalls := by
  obtain ⟨recorded, _, written, rfl, _⟩ := commit_cases noted
  exact ⟨recorded, written, rfl, rfl, rfl⟩

theorem commit_recorded {σ : Type} {h : Generator σ} {issue : Issue} {recorded : Ledger}
    (written : h.ledger.record issue.instruction issue.writer = .ok recorded) :
    ∃ k passed, h.commit issue = .ok (k, passed) := by
  unfold commit
  rw [written]
  simp only [bind, Except.bind]
  split <;> exact ⟨_, _, rfl⟩

variable {σ : Type} [Draw σ] {limit : Nat} {g h k : Generator σ}

-- The states in which a generator stands at an instruction, with what it has
-- issued on the way there.
inductive Reached (limit : Nat) (g : Generator σ) : List Issue → Generator σ → Prop where
  | start : Reached limit g [] g
  | step {before : List Issue} {issue : Issue} {h made k : Generator σ} :
      Reached limit g before h → h.next limit = .made issue made →
      made.commit issue = .ok (k, true) → Reached limit g (before ++ [issue]) k

theorem Reached.prepend {issue : Issue} {issues : List Issue} {made : Generator σ}
    (first : g.next limit = .made issue made) (passed : made.commit issue = .ok (h, true))
    (reached : Reached limit h issues k) : Reached limit g (issue :: issues) k := by
  induction reached with
  | start => exact Reached.start.step first passed
  | step _ next passed ih => exact ih.step next passed

theorem run_issued {room n : Nat} {issue : Issue}
    (here : (g.run limit room).issues[n]? = some issue) :
    ∃ h made, Reached limit g ((g.run limit room).issues.take n) h ∧
      h.next limit = .made issue made := by
  induction room generalizing g n with
  | zero => cases here
  | succ room ih =>
      unfold run at here ⊢
      cases stepped : g.next limit with
      | unended => simp [stepped] at here
      | refused h => simp [stepped] at here
      | made first made =>
          simp only [stepped] at here ⊢
          cases n with
          | zero =>
              refine ⟨g, made, .start, ?_⟩
              split at here <;> (cases here; exact stepped)
          | succ n =>
              split at here
              · cases here
              · cases here
              · rename_i k passed
                obtain ⟨h, made', reached, next⟩ := ih here
                exact ⟨h, made', reached.prepend stepped passed, next⟩

theorem run_outOfRoom {room : Nat} (ended : (g.run limit room).ending = .outOfRoom) :
    (∃ h, Reached limit g (g.run limit room).issues h ∧
      h.next limit = .refused (g.run limit room).generator) ∨
    ∃ before issue h made, (g.run limit room).issues = before ++ [issue] ∧
      Reached limit g before h ∧ h.next limit = .made issue made ∧
      made.commit issue = .ok ((g.run limit room).generator, false) := by
  induction room generalizing g with
  | zero => cases ended
  | succ room ih =>
      unfold run at ended ⊢
      cases stepped : g.next limit with
      | unended => simp [stepped] at ended
      | refused h => exact .inl ⟨g, .start, stepped⟩
      | made issue made =>
          simp only [stepped] at ended ⊢
          split at ended
          · cases ended
          · rename_i k stopped
            exact .inr ⟨[], issue, g, made, rfl, .start, stepped, stopped⟩
          · rename_i k passed
            rcases ih ended with ⟨h, reached, refused⟩ | ⟨before, last, h, made', same, reached, next, stopped⟩
            · exact .inl ⟨h, reached.prepend stepped passed, refused⟩
            · exact .inr ⟨issue :: before, last, h, made', congrArg _ same,
                reached.prepend stepped passed, next, stopped⟩

theorem OnTime.issued {issue : Issue} (onTime : OnTime g) (made : g.next limit = .made issue h) :
    Issued g issue h := by
  have found : g.next limit = .unended ∨ _ := onTime.next
  rw [made] at found
  rcases found with stopped | ⟨_, _, same, issued⟩
  · cases stopped
  · cases same
    exact issued

theorem Reached.onTime {issues : List Issue} (onTime : OnTime g) (reached : Reached limit g issues h) :
    OnTime h ∧ Pattern.index h.schedule.cursor = Pattern.index g.schedule.cursor + issues.length := by
  induction reached with
  | start => exact ⟨onTime, rfl⟩
  | step _ next passed ih =>
      obtain ⟨before, count⟩ := ih
      rcases (before.issued next).commit before with ⟨k, same, after, moved⟩ | ⟨k, same, _⟩
      · rw [passed] at same
        cases same
        refine ⟨after, ?_⟩
        rw [moved, count, List.length_append, List.length_singleton, Nat.add_assoc]
      · rw [passed] at same
        cases same

theorem next_made {issue : Issue} (made : g.next limit = .made issue h) :
    ∃ k : Generator σ, k.schedule.busy = g.schedule.busy ∧ k.schedule.ready = g.schedule.ready ∧
      g.schedule.cursor ≤ k.schedule.cursor ∧ k.ledger = g.ledger ∧
      k.attempt limit issue.pass = .made issue h := by
  fun_induction g.next limit with
  | case1 => cases made
  | case2 g issue h first =>
      cases made
      obtain ⟨_, _, pass, _⟩ := attempt_made first
      exact ⟨g, rfl, rfl, Nat.le_refl _, rfl, pass ▸ first⟩
  | case3 => cases made
  | case4 g h first issue k second =>
      cases made
      obtain ⟨schedule, ledger, _⟩ := attempt_refused first
      obtain ⟨_, _, pass, _⟩ := attempt_made second
      exact ⟨h, by rw [schedule], by rw [schedule], Nat.le_of_eq (by rw [schedule]), ledger,
        pass ▸ second⟩
  | case5 => cases made
  | case6 g h first k second schedule moved ih =>
      obtain ⟨before, ledgerBefore, _⟩ := attempt_refused first
      obtain ⟨between, ledgerBetween, _⟩ := attempt_refused second
      obtain ⟨_, rfl⟩ := Schedule.stall_some moved
      obtain ⟨l, busy, ready, later, ledger, found⟩ := ih made
      have same : k.schedule = g.schedule := between.trans before
      have passed : g.schedule.cursor ≤ k.schedule.cursor + 3 := same ▸ Nat.le_add_right _ 3
      have kept : k.schedule.busy = g.schedule.busy ∧ k.schedule.ready = g.schedule.ready := by
        rw [same]
        exact ⟨rfl, rfl⟩
      exact ⟨l, busy.trans kept.1, ready.trans kept.2, Nat.le_trans passed later,
        ledger.trans (ledgerBetween.trans ledgerBefore), found⟩

end Generator

section Drafts

variable {σ : Type} [Draw σ] {draws : σ} {limit : Nat}

namespace Generator

theorem index_fresh {σ : Type} (draws : σ) : Pattern.index (fresh draws).schedule.cursor = 0 :=
  show Pattern.index 0 = 0 by decide

theorem draft_issued {n : Nat} {issue : Issue}
    (here : ((fresh draws).draft limit).issues[n]? = some issue) :
    ∃ h made, Reached limit (fresh draws) (((fresh draws).draft limit).issues.take n) h ∧
      h.next limit = .made issue made ∧ OnTime h ∧ Issued h issue made ∧
      Pattern.index h.schedule.cursor = n := by
  unfold draft at here ⊢
  obtain ⟨h, made, reached, next⟩ := run_issued here
  obtain ⟨onTime, count⟩ := reached.onTime (onTime_fresh draws)
  have inside := (List.getElem?_eq_some_iff.mp here).1
  refine ⟨h, made, reached, next, onTime, onTime.issued next, ?_⟩
  rw [count, List.length_take_of_le (Nat.le_of_lt inside),
    index_fresh draws, Nat.zero_add]

theorem draft_length (ended : ((fresh draws).draft limit).ending ≠ .unended) :
    ((fresh draws).draft limit).issues.length = 512 := by
  rcases draft_ended draws limit with unended | ⟨_, length, _⟩
  · exact absurd unended ended
  · exact length

theorem draft_completed (ended : ((fresh draws).draft limit).ending ≠ .unended) :
    ∃ before last h made, ((fresh draws).draft limit).issues = before ++ [last] ∧
      Reached limit (fresh draws) before h ∧ h.next limit = .made last made ∧ OnTime h ∧
      Issued h last made ∧
      made.commit last = .ok (((fresh draws).draft limit).generator, false) := by
  have stopped : ((fresh draws).draft limit).ending = .outOfRoom := by
    rcases draft_ended draws limit with unended | ⟨stopped, _⟩
    · exact absurd unended ended
    · exact stopped
  rcases run_outOfRoom stopped with ⟨h, reached, refused⟩ | ⟨before, last, h, made, same, reached, next, passed⟩
  · obtain ⟨onTime, _⟩ := reached.onTime (onTime_fresh draws)
    have found : h.next limit = .unended ∨ _ := onTime.next
    rw [refused] at found
    rcases found with unended | ⟨_, _, made, _⟩
    · cases unended
    · cases made
  · obtain ⟨onTime, _⟩ := reached.onTime (onTime_fresh draws)
    exact ⟨before, last, h, made, same, reached, next, onTime, onTime.issued next, passed⟩

end Generator

theorem Draft.verdict_accepted :
    ((Generator.fresh draws).draft limit).verdict = .accepted ↔
      ((Generator.fresh draws).draft limit).ending ≠ .unended := by
  rw [verdict_fresh]
  split <;> simp [*]

theorem Program.generateFrom_ok {key : SipState} {attempts salt : Nat} {p : Program}
    (generated : (generateFrom key limit attempts salt).2 = .ok p) :
    ((Generator.fresh (CounterStream.ofSalt key (UInt32.ofNat salt))).draft limit).verdict =
        .accepted ∧
      p = ofList
        ((Generator.fresh (CounterStream.ofSalt key (UInt32.ofNat salt))).draft limit).program := by
  cases attempts with
  | zero => cases generated
  | succ attempts =>
      rw [Draft.verdict_accepted]
      by_cases ended : ((Generator.fresh (CounterStream.ofSalt key (UInt32.ofNat salt))).draft
        limit).ending = .unended
      · have verdict := Draft.verdict_fresh (CounterStream.ofSalt key (UInt32.ofNat salt)) limit
        rw [if_pos ended] at verdict
        unfold generateFrom at generated
        simp only [verdict] at generated
        cases generated
      · rw [generateFrom_ended (Nat.succ_pos attempts) ended] at generated
        cases generated
        exact ⟨ended, rfl⟩

end Drafts

end ProgramHash
