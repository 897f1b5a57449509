import ProgramHash.Proofs.Generation.Punctual

namespace ProgramHash

theorem RegisterSet.sourcesFor_enough {s : RegisterSet} (enough : 3 ≤ s.size) (op : Opcode) :
    s.sourcesFor op = s := by
  unfold RegisterSet.sourcesFor
  rw [if_neg (by omega)]

theorem Writer.mayReplace_false {w last : Writer} {pass : Pass}
    (refused : w.mayReplace pass last = false) :
    last = w ∧ ¬ (w.group = .mul ∧ pass = .retry) := by
  unfold Writer.mayReplace at refused
  split at refused
  · rename_i same
    exact ⟨same, by simpa [← same] using refused⟩
  · cases refused

namespace Opening

theorem blocked_writers {o : Opening} (enough : 3 ≤ o.available.size) (blocked : o.Blocked) :
    ∃ w source, o.Fits w source ∧ ∀ d ∈ o.available.members,
      (o.op = .addShift → d ≠ Ledger.shiftedSumExcluded) →
      (o.op.allowsSourceAsDestination = false → source ≠ some d) →
        o.ledger.writers[d] = w ∧ ¬ (w.group = .mul ∧ o.pass = .retry) := by
  rcases blocked with ⟨_, none⟩ | ⟨w, source, fits, nowhere⟩
  · rw [RegisterSet.sourcesFor_enough enough] at none
    simp [RegisterSet.size, none] at enough
  · refine ⟨w, source, fits, fun d available five apart => Writer.mayReplace_false ?_⟩
    cases replaceable : w.mayReplace o.pass o.ledger.writers[d] with
    | false => rfl
    | true =>
        refine absurd ⟨available, ?_⟩ (nowhere d)
        simp only [Ledger.destinationAllowed, replaceable, Bool.and_true, Bool.and_eq_true,
          Bool.not_eq_true', decide_eq_false_iff_not]
        refine ⟨fun both => five both.1 both.2, fun both => apart ?_ both.2⟩
        simpa using both.1

theorem mul_not_blocked {o : Opening} (enough : 3 ≤ o.available.size) (op : o.op = .mul)
    (pass : o.pass = .retry) : ¬ o.Blocked := by
  intro blocked
  obtain ⟨w, source, fits, everywhere⟩ := blocked_writers enough blocked
  obtain ⟨r, rfl, _⟩ : ∃ r, source = some r ∧ w = .withSource o.op.writerGroup r := by
    have proposed := fits.proposed
    rw [op] at proposed ⊢
    exact proposed
  obtain ⟨d, available, apart, _⟩ := Schedule.exists_ready_avoiding enough r r
  have group := fits.proposed.group
  refine (everywhere d available (by simp [op]) ?_).2 ⟨by rw [group, op]; rfl, pass⟩
  intro _ same
  exact apart (Option.some.inj same).symm

theorem wide_not_blocked {o : Opening} (enough : 3 ≤ o.available.size)
    (op : o.op = .umulh ∨ o.op = .smulh) (few : o.ledger.wideWriters ≤ 1) : ¬ o.Blocked := by
  intro blocked
  obtain ⟨w, source, fits, everywhere⟩ := blocked_writers enough blocked
  have wide : w.group = .umulh ∨ w.group = .smulh := by
    rw [fits.proposed.group]
    rcases op with op | op <;> simp [op, Opcode.writerGroup]
  have written (d : Register) (available : d ∈ o.available.members) :
      o.ledger.writers[d].group = .umulh ∨ o.ledger.writers[d].group = .smulh := by
    rw [(everywhere d available (by rcases op with op | op <;> simp [op])
      (by rcases op with op | op <;> simp [op, Opcode.allowsSourceAsDestination])).1]
    exact wide
  obtain ⟨x, one, _⟩ := Schedule.exists_ready_avoiding enough 0 0
  obtain ⟨y, two, apart, _⟩ := Schedule.exists_ready_avoiding enough x x
  have pair : [x, y].Nodup := by simpa using apart.symm
  have within : [x, y] ⊆ Register.all.filter fun r =>
      o.ledger.writers[r].group = .umulh ∨ o.ledger.writers[r].group = .smulh := by
    intro r member
    refine List.mem_filter.mpr ⟨Register.mem_all r, decide_eq_true (written r ?_)⟩
    rcases List.mem_cons.mp member with rfl | last
    · exact one
    · exact List.mem_singleton.mp last ▸ two
  have many : 2 ≤ o.ledger.wideWriters := by
    rw [Ledger.wideWriters, List.countP_eq_length_filter]
    exact pair.length_le_of_subset within
  omega

theorem constant_writers {o : Opening} (enough : 3 ≤ o.available.size)
    (op : o.op ∈ OpcodeClass.immediate.opcodes) (blocked : o.Blocked) :
    ∀ d ∈ o.available.members, o.ledger.writers[d].group = o.op.writerGroup := by
  obtain ⟨w, source, fits, everywhere⟩ := blocked_writers enough blocked
  intro d available
  have plain : o.op ≠ .addShift ∧ o.op.allowsSourceAsDestination = true := by
    revert op
    generalize o.op = op
    revert op
    decide
  rw [(everywhere d available (absurd · plain.1) (by simp [plain.2])).1, fits.proposed.group]

theorem blocked_group {o : Opening} (enough : 3 ≤ o.available.size) (blocked : o.Blocked) :
    ∃ d ∈ o.available.members, o.ledger.writers[d].group = o.op.writerGroup := by
  obtain ⟨w, source, fits, everywhere⟩ := blocked_writers enough blocked
  obtain ⟨d, available, five, apart⟩ :=
    Schedule.exists_ready_avoiding enough Ledger.shiftedSumExcluded (source.getD 0)
  refine ⟨d, available, ?_⟩
  rw [(everywhere d available (fun _ => five) fun _ same => apart (by rw [same]; rfl)).1,
    fits.proposed.group]

theorem retry_group : ∀ op ∈ OpcodeClass.normal.opcodes, ∀ retried ∈ OpcodeClass.immediate.opcodes,
    retried.mayFollow (some op) = true → op.writerGroup ≠ retried.writerGroup := by decide

-- Where a first pass is blocked, a retry with another opcode is not: the registers
-- cannot all have been written last in two different ways.
theorem retry_not_blocked {o p : Opening} (enough : 3 ≤ o.available.size)
    (available : p.available = o.available) (ledger : p.ledger = o.ledger)
    (op : o.op ∈ OpcodeClass.normal.opcodes) (retried : p.op ∈ OpcodeClass.immediate.opcodes)
    (follows : p.op.mayFollow (some o.op) = true) (blocked : o.Blocked) : ¬ p.Blocked := by
  intro again
  obtain ⟨d, member, first⟩ := blocked_group enough blocked
  have second := constant_writers (available ▸ enough) retried again d (available ▸ member)
  rw [ledger, first] at second
  exact retry_group _ op _ retried follows second

end Opening

namespace Generator

variable {σ : Type} {g : Generator σ}

theorem OnTime.not_both_blocked (onTime : OnTime g) {op retried : Opcode} {one two : UnitSet}
    (first : op ∈ (OpcodeClass.ofCursor g.schedule.cursor .first).opcodes)
    (second : retried ∈ (OpcodeClass.ofCursor g.schedule.cursor .retry).opcodes)
    (follows : retried.mayFollow (some op) = true)
    (written : retried.hasDestination = true)
    (blocked : (g.opening .first op ⟨g.schedule.cycle, one⟩).Blocked) :
    ¬ (g.opening .retry retried ⟨g.schedule.cycle, two⟩).Blocked := by
  obtain ⟨enough, _⟩ := onTime.available
  cases Pattern.kind g.schedule.cursor with
  | multiply _ _ drawn =>
      rw [drawn] at second
      exact Opening.mul_not_blocked enough (List.mem_singleton.mp second) rfl
  | wideMultiply start drawn =>
      rw [drawn] at second
      have wide : retried = .umulh ∨ retried = .smulh := by
        simpa [OpcodeClass.opcodes, OpcodeClass.wideOpcodes, or_comm] using second
      exact Opening.wide_not_blocked enough wide (Nat.le_trans onTime.wide (Pattern.wideBound_start start))
  | target _ drawn =>
      rw [drawn] at second
      cases List.mem_singleton.mp second
      cases written
  | branch _ drawn =>
      rw [drawn] at second
      cases List.mem_singleton.mp second
      cases written
  | other _ _ usual retry =>
      rw [usual] at first
      rw [retry] at second
      exact Opening.retry_not_blocked (o := g.opening .first op ⟨g.schedule.cycle, one⟩) enough rfl rfl
        first second follows blocked

variable [Draw σ] {limit : Nat}

theorem OnTime.retry_not_refused (onTime : OnTime g) {h k : Generator σ}
    (first : g.attempt limit .first = .refused h) : h.attempt limit .retry ≠ .refused k := by
  intro second
  obtain ⟨op, _, ⟨drawn, follows⟩, rfl, blocked⟩ := attempt_blocked first
  obtain ⟨retried, _, ⟨redrawn, again⟩, rfl, stuck⟩ := attempt_blocked second
  obtain ⟨_, one, _, plannedFirst, _⟩ := onTime.plan drawn fun _ => follows
  obtain ⟨_, two, _, plannedSecond, _⟩ := onTime.plan redrawn fun first => (Pass.noConfusion first)
  obtain ⟨written, nowhere⟩ := stuck _ plannedSecond
  exact onTime.not_both_blocked drawn redrawn again written (blocked _ plannedFirst).2 nowhere

-- A generator on time does not stall: one of the two passes finds an instruction,
-- or a loop of rejected draws does not end.
theorem OnTime.next (onTime : OnTime g) :
    g.next limit = .unended ∨ ∃ issue h, g.next limit = .made issue h ∧ Issued g issue h := by
  unfold Generator.next
  split
  · exact .inl rfl
  · rename_i issue h first
    obtain ⟨⟨drawn, follows⟩, planned, pass, accepted, draws, rfl⟩ := attempt_made first
    refine .inr ⟨issue, _, rfl, ?_⟩
    exact ⟨pass ▸ drawn, fun _ => follows, planned, pass ▸ accepted, rfl, rfl, rfl, rfl⟩
  · rename_i h first
    split
    · exact .inl rfl
    · rename_i issue k second
      obtain ⟨op, draws, _, rfl, _⟩ := attempt_blocked first
      obtain ⟨⟨redrawn, _⟩, planned, pass, accepted, rest, rfl⟩ := attempt_made second
      refine .inr ⟨issue, _, rfl, ?_⟩
      refine ⟨pass ▸ redrawn, fun first => ?_, planned, pass ▸ accepted, rfl, rfl, rfl, rfl⟩
      rw [pass] at first
      cases first
    · rename_i k second
      exact absurd second (onTime.retry_not_refused first)

theorem OnTime.run (onTime : OnTime g) {room : Nat}
    (left : Pattern.index g.schedule.cursor + room = 512) :
    (g.run limit room).ending = .unended ∨
      (g.run limit room).ending = .outOfRoom ∧ (g.run limit room).issues.length = room ∧
        Finished (g.run limit room).generator := by
  induction room generalizing g with
  | zero =>
      have := Pattern.index_lt g.schedule.cursor_lt
      omega
  | succ room ih =>
      unfold Generator.run
      rcases onTime.next with stopped | ⟨issue, h, made, issued⟩
      · rw [stopped]
        exact .inl rfl
      · rw [made]
        rcases issued.commit onTime with ⟨k, passed, onTime', next⟩ | ⟨k, passed, finished, last⟩
        · simp only [passed]
          rcases ih onTime' (by omega) with stopped | ⟨ended, length, finished⟩
          · exact .inl stopped
          · exact .inr ⟨ended, congrArg (· + 1) length, finished⟩
        · simp only [passed]
          have one : room = 0 := by omega
          subst one
          exact .inr ⟨trivial, rfl, finished⟩

theorem draft_ended (draws : σ) (limit : Nat) :
    ((fresh draws).draft limit).ending = .unended ∨
      ((fresh draws).draft limit).ending = .outOfRoom ∧
        ((fresh draws).draft limit).issues.length = 512 ∧
        Finished ((fresh draws).draft limit).generator :=
  (onTime_fresh draws).run (show Pattern.index 0 + 512 = 512 by decide)

end Generator

theorem Generator.Finished.accepted {σ : Type} {d : Draft σ} (finished : Finished d.generator)
    (ended : d.ending = .outOfRoom) (length : d.issues.length = 512) : d.verdict = .accepted := by
  have none : d.generator.ledger.violation? d.generator.schedule d.issues.length = .none := by
    rw [Ledger.violation?, length, finished.latency, finished.multiplies]
    rfl
  simp [Draft.verdict, ended, none]

end ProgramHash
