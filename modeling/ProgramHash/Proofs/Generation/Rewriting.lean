import ProgramHash.Proofs.Generation.Hazards

-- The ledger shows of every register how it was written last since the latest
-- target, and no instruction goes where it would repeat the writer it finds. The
-- writers themselves do not appear in a program, but apart from the upper halves an
-- instruction tells the writer it was noted with.
namespace ProgramHash

def Issue.leaves (a : Issue) (r : Register) (w : Writer) : Writer :=
  if a.instruction = .target then .nobody
  else if a.instruction.destination? = some r then a.writer else w

namespace Writer

def after (w : Writer) (r : Register) (issues : List Issue) : Writer :=
  issues.foldl (fun w a => a.leaves r w) w

theorem after_untouched {r : Register} {issues : List Issue}
    (untouched : ∀ a ∈ issues, a.instruction ≠ .target ∧ a.instruction.destination? ≠ some r)
    (w : Writer) : w.after r issues = w := by
  induction issues with
  | nil => rfl
  | cons a issues ih =>
      obtain ⟨kept, other⟩ := untouched a List.mem_cons_self
      have same : a.leaves r w = w := (if_neg kept).trans (if_neg other)
      rw [after, List.foldl_cons, same]
      exact ih fun b member => untouched b (List.mem_cons_of_mem a member)

theorem after_append (w : Writer) (r : Register) (before : List Issue) (a : Issue) (rest : List Issue) :
    w.after r (before ++ a :: rest) = (a.leaves r (w.after r before)).after r rest := by
  rw [after, List.foldl_append, List.foldl_cons]
  rfl

theorem after_written {r : Register} {issues : List Issue} {i : Nat} {a : Issue}
    (here : issues[i]? = some a) (written : a.instruction.destination? = some r)
    (untouched : ∀ k b, i < k → issues[k]? = some b →
      b.instruction ≠ .target ∧ b.instruction.destination? ≠ some r) (w : Writer) :
    w.after r issues = a.writer := by
  obtain ⟨inside, rfl⟩ := List.getElem?_eq_some_iff.mp here
  have kept : issues[i].instruction ≠ .target := fun target => by rw [target] at written; cases written
  have last (v : Writer) : issues[i].leaves r v = issues[i].writer := (if_neg kept).trans (if_pos written)
  have parts := after_append w r (issues.take i) issues[i] (issues.drop (i + 1))
  rw [← List.drop_eq_getElem_cons, List.take_append_drop, last] at parts
  rw [parts]
  refine after_untouched (fun b member => ?_) _
  obtain ⟨n, there⟩ := List.getElem?_of_mem member
  rw [List.getElem?_drop] at there
  exact untouched _ b (by omega) there

theorem mayReplace_itself {w : Writer} {pass : Pass} (replaces : w.mayReplace pass w = true) :
    w.group = .mul ∧ pass = .retry := by
  simpa [mayReplace] using replaces

end Writer

theorem Opcode.Proposes.told {op : Opcode} {w : Writer} {source : Option Register}
    (proposed : op.Proposes w source) (narrow : op.writerGroup ≠ .umulh ∧ op.writerGroup ≠ .smulh) :
    w = source.elim ⟨op.writerGroup, 0⟩ (.withSource op.writerGroup) := by
  cases op with
  | umulh => exact absurd rfl narrow.1
  | smulh => exact absurd rfl narrow.2
  | target | branch | addConst | xorConst | rotate =>
      obtain ⟨rfl, rfl⟩ := proposed
      rfl
  | mul | addShift | sub | xor =>
      obtain ⟨r, rfl, rfl⟩ := proposed
      rfl

theorem Ledger.record_writers {l recorded : Ledger} {i : Instruction} {w : Writer}
    (noted : l.record i w = .ok recorded) (r : Register) :
    recorded.writers[r] = if i.destination? = some r then w else l.writers[r] := by
  unfold record at noted
  cases written : i.destination? with
  | some d =>
      rw [written] at noted
      cases noted
      rw [Bank.read_set]
      simp only [Option.some.injEq, eq_comm]
  | none =>
      rw [written] at noted
      dsimp only at noted
      split at noted
      · cases noted
        exact (if_neg (by simp)).symm
      · cases noted

namespace Generator

variable {σ : Type} [Draw σ] {limit : Nat} {g h k : Generator σ} {issue : Issue} {issues : List Issue}

theorem next_writes (made : g.next limit = .made issue h) :
    h.ledger = g.ledger ∧ issue.instruction.opcode.Proposes issue.writer issue.instruction.source? ∧
      ∀ r, issue.instruction.destination? = some r →
        issue.writer.mayReplace issue.pass g.ledger.writers[r] = true := by
  obtain ⟨k, _, _, _, ledger, found⟩ := next_made made
  obtain ⟨_, _, _, accepted, _, rfl⟩ := attempt_made found
  refine ⟨ledger, accepted.fits.proposed, fun r written => ?_⟩
  have allowed := (accepted.allowed r written).2
  rw [← ledger]
  exact (Bool.and_eq_true_iff.mp allowed).2

omit [Draw σ] in
theorem commit_writers {passed : Bool} (noted : h.commit issue = .ok (k, passed)) (r : Register) :
    k.ledger.writers[r] = issue.leaves r h.ledger.writers[r] := by
  obtain ⟨recorded, written, ledger, _⟩ := commit_notes noted
  rw [ledger, Issue.leaves]
  split
  · exact Bank.read_filled _ r
  · exact Ledger.record_writers written r

theorem Reached.writers (reached : Reached limit g issues h) (r : Register) :
    h.ledger.writers[r] = g.ledger.writers[r].after r issues := by
  induction reached with
  | start => rfl
  | step _ made passed ih =>
      rw [commit_writers passed, (next_writes made).1, ih, Writer.after_append]
      rfl

-- Two writes of a register with neither a target nor another write of it between
-- them: equal groups and sources make equal writers, which only a retried product
-- may have.
theorem run_rewrites {room i j : Nat} {a b : Issue} {r : Register} (earlier : i < j)
    (first : (g.run limit room).issues[i]? = some a)
    (second : (g.run limit room).issues[j]? = some b)
    (written : a.instruction.destination? = some r) (rewritten : b.instruction.destination? = some r)
    (between : ∀ k c, i < k → k < j → (g.run limit room).issues[k]? = some c →
      c.instruction ≠ .target ∧ c.instruction.destination? ≠ some r)
    (group : a.instruction.opcode.writerGroup = b.instruction.opcode.writerGroup)
    (narrow : b.instruction.opcode.writerGroup ≠ .umulh ∧ b.instruction.opcode.writerGroup ≠ .smulh)
    (source : a.instruction.source? = b.instruction.source?) :
    b.instruction.opcode.writerGroup = .mul ∧ b.pass = .retry := by
  obtain ⟨h, made, reached, next⟩ := run_issued second
  obtain ⟨before, made', _, next'⟩ := run_issued first
  obtain ⟨_, proposed, replaces⟩ := next_writes next
  obtain ⟨_, proposed', _⟩ := next_writes next'
  have found : h.ledger.writers[r] = a.writer := by
    rw [reached.writers]
    refine Writer.after_written ((List.getElem?_take_of_lt earlier).trans first) written ?_ _
    intro k c after there
    rw [List.getElem?_take] at there
    split at there
    · rename_i inside
      exact between k c after inside there
    · cases there
  have same : a.writer = b.writer := by
    rw [proposed'.told (group ▸ narrow), proposed.told narrow, group, source]
  have repeated := replaces r rewritten
  rw [found, same] at repeated
  exact proposed.group ▸ Writer.mayReplace_itself repeated

end Generator

structure Rewrites (program : List Instruction) (i j : Nat) (x y : Instruction) (r : Register) :
    Prop where
  earlier : i < j
  first : program[i]? = some x
  second : program[j]? = some y
  written : x.destination? = some r
  rewritten : y.destination? = some r
  between : ∀ k z, i < k → k < j → program[k]? = some z →
    z ≠ .target ∧ z.destination? ≠ some r

structure WritesAnew (x y : Instruction) (pass : Pass) : Prop where
  constant : ∀ op ∈ [Opcode.addConst, .xorConst, .rotate], ¬ (x.opcode = op ∧ y.opcode = op)
  xor : x.opcode = .xor → y.opcode = .xor → x.source? ≠ y.source?
  sum : x.opcode ∈ [Opcode.addShift, .sub] → y.opcode ∈ [Opcode.addShift, .sub] →
    x.source? ≠ y.source?
  product : x.opcode = .mul → y.opcode = .mul → x.source? = y.source? → pass = .retry

def EveryWriteAnew (program : List Instruction) (passAt : Nat → Pass) : Prop :=
  ∀ i j x y r, Rewrites program i j x y r → WritesAnew x y (passAt j)

def Draft.passAt {σ : Type} (d : Draft σ) (n : Nat) : Pass := (d.issues[n]?.map Issue.pass).getD .first

theorem Instruction.source_constant {i : Instruction}
    (constant : i.opcode ∈ [Opcode.addConst, .xorConst, .rotate]) : i.source? = none := by
  cases i with
  | addConst | xorConst | rotate => rfl
  | _ => revert constant; simp [opcode]

theorem Generator.run_writes_anew {σ : Type} [Draw σ] (g : Generator σ) (limit room : Nat) :
    EveryWriteAnew (g.run limit room).program (g.run limit room).passAt := by
  rintro i j x y r ⟨earlier, first, second, written, rewritten, between⟩
  obtain ⟨a, one, rfl, _⟩ := Draft.getElem_program first
  obtain ⟨b, two, rfl, _⟩ := Draft.getElem_program second
  have pass : (g.run limit room).passAt j = b.pass := by rw [Draft.passAt, two]; rfl
  have repeats := run_rewrites earlier one two written rewritten fun k c after before there =>
    between k c.instruction after before (by rw [Draft.program, List.getElem?_map, there]; rfl)
  rw [pass]
  refine ⟨?_, ?_, ?_, ?_⟩
  · rintro op kind ⟨same, same'⟩
    have source : a.instruction.source? = b.instruction.source? := by
      rw [Instruction.source_constant (same ▸ kind), Instruction.source_constant (same' ▸ kind)]
    have group : ∀ op ∈ [Opcode.addConst, .xorConst, .rotate],
        (op.writerGroup ≠ .umulh ∧ op.writerGroup ≠ .smulh) ∧ op.writerGroup ≠ .mul := by decide
    rw [same, same'] at repeats
    obtain ⟨narrow, plain⟩ := group op kind
    exact plain (repeats rfl narrow source).1
  · intro same same' source
    rw [same, same'] at repeats
    cases (repeats rfl (by decide) source).1
  · intro same same' source
    have group : ∀ op ∈ [Opcode.addShift, .sub], op.writerGroup = .addSub := by decide
    rw [group _ same, group _ same'] at repeats
    cases (repeats rfl (by decide) source).1
  · intro same same' source
    rw [same, same'] at repeats
    exact (repeats rfl (by decide) source).2

-- No write of a generated program is redundant, nor is one of a run from any other
-- state.
theorem generated_programs_write_anew :
    (∀ (σ : Type) [Draw σ] (g : Generator σ) (limit room : Nat),
      EveryWriteAnew (g.run limit room).program (g.run limit room).passAt) ∧
    ∀ (key : SipState) (limit attempts salt : Nat) (p : Program),
      (Program.generateFrom key limit attempts salt).2 = .ok p →
        EveryWriteAnew p.toList
          ((Generator.fresh (CounterStream.ofSalt key (UInt32.ofNat salt))).draft limit).passAt := by
  refine ⟨fun σ _ g limit room => g.run_writes_anew limit room, ?_⟩
  intro key limit attempts salt p generated
  obtain ⟨_, rfl⟩ := Program.generateFrom_ok generated
  exact Generator.run_writes_anew _ limit _

structure Script where
  bytes : List UInt8
  halves : List UInt32

namespace Script

instance : Draw Script :=
  ⟨fun s => (s.bytes.headD 0, { s with bytes := s.bytes.tail }),
    fun s => (s.halves.headD 0, { s with halves := s.halves.tail })⟩

-- Products keep four registers busy while the other four are rotated in turn. The
-- last rotation finds nowhere to go, and a sum with a constant takes its place.
def crowded : Script :=
  ⟨[2, 0, 2, 0, 2, 0, 1, 0, 2, 0, 2],
    [7, 0, 6, 0, 1, 0, 1, 1, 5, 0, 1, 0, 1, 0, 5, 1, 1, 0, 1, 0, 9, 5, 0, 1, 1, 4, 0, 1, 0, 1, 1, 0]⟩

theorem crowded_program : ((Generator.fresh crowded).run 4 16).program =
    [.mul 0 7, .target, .mul 1 7, .addConst 2 1, .rotate 4 1, .mul 2 7, .addConst 3 1, .rotate 5 1,
      .mul 3 7, .addConst 0 1, .rotate 6 1, .umulh 0 7, .rotate 7 1, .mul 1 6, .addConst 2 1,
      .addConst 4 1] := by decide +kernel

end Script

theorem crowded_program_writes_anew :
    Rewrites ((Generator.fresh Script.crowded).run 4 16).program 2 13 (.mul 1 7) (.mul 1 6) 1 ∧
      WritesAnew (.mul 1 7) (.mul 1 6) (((Generator.fresh Script.crowded).run 4 16).passAt 13) := by
  have rewrites : Rewrites ((Generator.fresh Script.crowded).run 4 16).program 2 13 (.mul 1 7)
      (.mul 1 6) 1 := by
    rw [Script.crowded_program]
    refine ⟨by decide, rfl, rfl, rfl, rfl, ?_⟩
    intro k z after before here
    have between : k = 3 ∨ k = 4 ∨ k = 5 ∨ k = 6 ∨ k = 7 ∨ k = 8 ∨ k = 9 ∨ k = 10 ∨ k = 11 ∨ k = 12 := by
      omega
    rcases between with rfl | rfl | rfl | rfl | rfl | rfl | rfl | rfl | rfl | rfl <;>
      (cases here; exact ⟨by decide, by decide⟩)
  exact ⟨rewrites, generated_programs_write_anew.1 Script _ 4 16 _ _ _ _ _ rewrites⟩

end ProgramHash
