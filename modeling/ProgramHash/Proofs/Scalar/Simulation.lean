import ProgramHash.Proofs.Layout
import ProgramHash.Proofs.Scalar.Blocks

namespace ProgramHash.ScalarCode

open Machine

-- The programs whose code means what they mean: the sums with a shift can be
-- encoded, and no mask is empty.
def Compilable (program : List Instruction) : Prop :=
  ∀ i ∈ program, Encodable i ∧ ∀ mask, i = .branch mask → mask ≠ 0

theorem emit_branch {s t : State} {mask : UInt32} (done : emit s (.branch mask) = .ok t) :
    ∃ (target : Nat) (d : Int32), s.target = some target ∧
      t.assembly = s.assembly.putAll (branchPieces mask d) ∧
      (t.assembly.offset : Int) + d.toInt = target := by
  simp only [emit] at done
  split at done
  · rename_i target noted
    obtain ⟨assembly, jumped, rfl⟩ := map_ok.mp done
    obtain ⟨d, same, reaches⟩ := emitBranch_pieces jumped
    exact ⟨target, d, noted, same, reaches⟩
  · cases done

theorem emit_other {s t : State} {i : Instruction} (straight : i.opcode ≠ .branch)
    (done : emit s i = .ok t) : t.assembly = s.assembly.putAll (pieces i) := by
  cases i with
  | branch mask => exact absurd rfl straight
  | _ => cases done; rfl

theorem prologue_fit : ∀ piece ∈ prologue.map Piece.plain, piece.Fits := by
  intro piece member
  obtain ⟨op, inside, rfl⟩ := List.mem_map.mp member
  simp only [prologue, List.mem_append, List.mem_map, List.mem_cons, List.not_mem_nil, or_false] at inside
  rcases inside with (⟨g, _, rfl⟩ | ⟨r, _, rfl⟩) | rfl | rfl
  · exact ⟨trivial, by simp, .inr rfl⟩
  · exact ⟨show low file.val ≠ indexedOperand by decide, by simp, .inr rfl⟩
  · exact ⟨trivial, by simp, .inr rfl⟩
  · exact ⟨trivial, by simp, .inr rfl⟩

def epiloguePieces : List Piece :=
  (Register.all.map fun r => .plain (.store file (fileOffset r) (home r))) ++
    saved.reverse.map fun g => .plain (.pop g)

theorem epiloguePieces_fit : ∀ piece ∈ epiloguePieces, piece.Fits := by
  intro piece member
  simp only [epiloguePieces, List.mem_append, List.mem_map] at member
  rcases member with ⟨r, _, rfl⟩ | ⟨g, _, rfl⟩
  · exact ⟨show low file.val ≠ indexedOperand by decide, by simp, .inr rfl⟩
  · exact ⟨trivial, by simp, .inr rfl⟩

theorem emit_epilogue (a : Assembly) :
    a.emitAll epilogue = (a.putAll epiloguePieces).emit Operation.ret.encode := by
  rw [Assembly.emitAll_pieces]
  simp only [epilogue, List.map_append, List.map_map, Assembly.putAll_append, epiloguePieces]
  rfl

theorem pieces_few (i : Instruction) : (pieces i).length ≤ 3 := by
  cases i <;> simp [pieces]

theorem emptyAssembly : (Assembly.empty 1).WellFormed := Assembly.wellFormed_empty (by decide)

theorem opened_pieces : opened.assembly = (Assembly.empty 1).putAll (prologue.map .plain) :=
  Assembly.emitAll_pieces _ _

theorem closes {program : List Instruction} (compilable : Compilable program) :
    Closes (fun s item => emit s item.1) opened State.assembly program 14 5 1 epilogue
      epiloguePieces where
  atStart := by
    rw [opened_pieces]
    exact Assembly.putAll_wellFormed emptyAssembly prologue_fit
  small := by
    rw [opened_pieces]
    exact (Assembly.small_empty 1).putAll (prologue.map .plain)
  emitted := by
    intro s t i k here done
    by_cases straight : i.opcode = .branch
    · cases i with
      | branch mask =>
          obtain ⟨_, d, _, same, _⟩ := emit_branch done
          exact ⟨_, branchPieces_fit mask d, Nat.le_refl 5, same⟩
      | _ => cases straight
    · exact ⟨_, pieces_fit (compilable i (List.mem_of_getElem? here)).1,
        Nat.le_trans (pieces_few i) (by decide), emit_other straight done⟩
  width := rfl
  fit := epiloguePieces_fit
  ends := emit_epilogue

section Branches

variable {image : Array UInt8} {pool : Nat} {a : Assembly} {entry p : Processor} {may : Bool}
  {v : Values} {mask : UInt32} {d : Int32}

theorem Mirrors.moved {q : Processor} (mirrors : Mirrors entry may v p) (gprs : q.gprs = p.gprs)
    (rest : q.memory = p.memory ∧ q.base = p.base ∧ q.stack = p.stack) : Mirrors entry may v q := by
  have writes : Writes [] p q := ⟨rest.1, rest.2.1, rest.2.2, fun g _ => by rw [gprs]⟩
  have half (g : Gpr) : q.half g = p.half g := by simp only [Processor.half, gprs]
  exact ⟨mirrors.keeps.written writes (by simp), fun r => by rw [gprs]; exact mirrors.file r,
    fun yes => (half _).trans (mirrors.upper yes), (half _).trans mirrors.flag⟩

def testPieces (mask : UInt32) : List Piece :=
  [.plain (.orHalf product branched), .constant (.testHalfPool product 0) mask.toUInt64]

def noteBranched : Operation := .orHalfImmediate branched (-1)

def takePieces (d : Int32) : List Piece :=
  [.plain (.jumpIfNonzero takeBranchSize), .plain noteBranched, .plain (.jump d)]

theorem branch_offset (a : Assembly) (mask : UInt32) (d : Int32) :
    (a.putAll (branchPieces mask d)).offset = a.offset + 18 := Assembly.putAll_size a _

theorem Mirrors.noted (mirrors : Mirrors entry may v p) {q : Processor}
    (same : q.memory = p.memory ∧ q.base = p.base ∧ q.stack = p.stack)
    (set : q.gprs = p.gprs.set branched (p.half branched ||| 0xffffffff).toUInt64) :
    Mirrors entry false v q := by
  have writes : Writes [branched] p q := writes_one same set
  refine ⟨mirrors.keeps.written writes (by decide), fun r => ?_, nofun, ?_⟩
  · rw [writes.others _ fun known => home_apart r (by rw [List.mem_singleton.mp known]; decide),
      mirrors.file]
  · rw [Processor.half, set, gprs_set_self, UInt32.toUInt32_toUInt64,
      show (0xffffffff : UInt32) = -1 from rfl, UInt32.or_neg_one]
    rfl

theorem takePieces_fit (d : Int32) : ∀ piece ∈ takePieces d, piece.Fits := fun piece member =>
  branchPieces_fit 0 d piece (List.mem_append_right (testPieces 0) member)

theorem taken_runs (formed : a.WellFormed) (lanes : a.lanes = 1)
    (linked : (a.putAll (takePieces d)).Linked image pool) (here : p.position = a.offset)
    (zero : p.zero = some true) (mirrors : Mirrors entry may v p) {target : Nat}
    (reaches : ((a.putAll (takePieces d)).offset : Int) + d.toInt = target) :
    ∃ q, Processor.Runs image (Processor.Within image pool 1) 3 p q ∧ q.position = target ∧
      Mirrors entry false v q := by
  let note := [Piece.plain (.jumpIfNonzero takeBranchSize), .plain noteBranched]
  have fit : ∀ piece ∈ note, piece.Fits := fun piece member =>
    takePieces_fit d piece (show piece ∈ note ++ [.plain (.jump d)] from List.mem_append_left _ member)
  have fitJump : (Piece.plain (.jump d)).Fits := takePieces_fit d _ (by simp [takePieces])
  have whole : a.putAll (takePieces d) = (a.putAll note).put (.plain (.jump d)) := rfl
  rw [whole] at linked reaches
  have formed' := Assembly.putAll_wellFormed formed fit
  have lanes' := (Assembly.putAll_extends (a := a) fit).lanes.trans lanes
  let m := p.passing (.jumpIfNonzero takeBranchSize)
  let q := { (m.passing noteBranched).setHalf branched (p.half branched ||| 0xffffffff) with
    zero := some ((p.half branched ||| 0xffffffff) = 0) }
  have falls : Processor.execute image m (.jumpIfNonzero takeBranchSize) = .ok m := by
    have set : m.zero = some true := zero
    simp only [Processor.execute, set, Processor.trap]
    rfl
  obtain ⟨first, behind⟩ := @runs_putAll image pool a p q note formed fit
    (linked.earlier formed' (Assembly.put_extends fitJump)) here ⟨m, falls, rfl, q, rfl, rfl, rfl⟩
  have leads : (Piece.plain (.jump d)).Does image pool 1 q { q with position := target } := by
    have past : ((q.passing (.jump d)).position : Int) + d.toInt = target := by
      rw [← reaches, Assembly.put_offset, ← behind]
      rfl
    change Processor.jumpTo _ _ = _
    rw [past, Processor.jumpTo, if_pos (Int.natCast_nonneg _)]
    rfl
  have second := runs_put formed' fitJump linked behind (by rw [lanes']; exact leads)
  rw [lanes'] at second
  rw [lanes] at first
  exact ⟨_, first.trans second, rfl, mirrors.noted ⟨rfl, rfl, rfl⟩ rfl⟩

theorem passed_runs (formed : a.WellFormed) (lanes : a.lanes = 1)
    (linked : (a.putAll (takePieces d)).Linked image pool) (here : p.position = a.offset)
    (zero : p.zero = some false) (mirrors : Mirrors entry may v p) :
    ∃ q, Processor.Runs image (Processor.Within image pool 1) 1 p q ∧
      q.position = (a.putAll (takePieces d)).offset ∧ Mirrors entry may v q := by
  have fit := takePieces_fit d
  have fitJump : (Piece.plain (.jumpIfNonzero takeBranchSize)).Fits := fit _ List.mem_cons_self
  let q := { p with position := (a.putAll (takePieces d)).offset }
  have leads : (Piece.plain (.jumpIfNonzero takeBranchSize)).Does image pool 1 p q := by
    have set : (p.passing (.jumpIfNonzero takeBranchSize)).zero = some false := zero
    have past : ((p.passing (.jumpIfNonzero takeBranchSize)).position : Int) +
        takeBranchSize.toInt = (a.putAll (takePieces d)).offset := by
      have size : (a.putAll (takePieces d)).offset = a.offset + 10 := Assembly.putAll_size a _
      change ((p.position + 2 : Nat) : Int) + 8 = _
      omega
    simp only [Piece.Does, Processor.execute, set, Processor.trap, bind, Except.bind]
    rw [if_neg Bool.false_ne_true, past, Processor.jumpTo, if_pos (Int.natCast_nonneg _)]
    rfl
  have first := runs_put formed fitJump
    (linked.earlier (Assembly.put_wellFormed formed fitJump)
      (Assembly.putAll_extends fun piece member => fit piece (List.mem_cons_of_mem _ member)))
    here (by rw [lanes]; exact leads)
  rw [lanes] at first
  exact ⟨q, first, rfl, mirrors.moved rfl ⟨rfl, rfl, rfl⟩⟩

-- The code of a branch either leads to its target, and no branch is taken again,
-- or to the code behind it.
theorem branch_runs (formed : a.WellFormed) (lanes : a.lanes = 1)
    (linked : (a.putAll (branchPieces mask d)).Linked image pool) (here : p.position = a.offset)
    (mirrors : Mirrors entry may v p) (nonempty : mask ≠ 0) {target : Nat}
    (reaches : ((a.putAll (branchPieces mask d)).offset : Int) + d.toInt = target) :
    ∃ n q, Processor.Runs image (Processor.Within image pool 1) n p q ∧
      if may = true ∧ mask &&& v.product = 0 then n = 5 ∧ q.position = target ∧ Mirrors entry false v q
      else n = 3 ∧ q.position = (a.putAll (branchPieces mask d)).offset ∧ Mirrors entry may v q := by
  have fit : ∀ piece ∈ testPieces mask, piece.Fits := fun piece member =>
    branchPieces_fit mask d piece (List.mem_append_left (takePieces d) member)
  rw [show branchPieces mask d = testPieces mask ++ takePieces d from rfl,
    Assembly.putAll_append] at linked reaches ⊢
  have formed' := Assembly.putAll_wellFormed formed fit
  have lanes' := (Assembly.putAll_extends (a := a) fit).lanes.trans lanes
  obtain ⟨m, tests, held, zero⟩ := @test_does image pool entry p may v mirrors mask nonempty
  obtain ⟨first, there⟩ := runs_putAll formed fit
    (linked.earlier formed' (Assembly.putAll_extends (takePieces_fit d))) here
    (by rw [lanes]; exact tests)
  rw [lanes] at first
  split
  · rename_i taken
    rw [decide_eq_true taken] at zero
    obtain ⟨q, second, reached, ready⟩ := taken_runs formed' lanes' linked there zero held reaches
    exact ⟨_, q, first.trans second, rfl, reached, ready⟩
  · rename_i staying
    rw [decide_eq_false staying] at zero
    obtain ⟨q, second, reached, ready⟩ := passed_runs formed' lanes' linked there zero held
    exact ⟨_, q, first.trans second, rfl, reached, ready⟩

end Branches

structure Laid (program : List Instruction) (image : Array UInt8) (pool : Nat) : Prop extends
    LaidOut (fun s item => emit s item.1) opened State.assembly program 14 5 1 epilogue epiloguePieces
      image pool where
  compilable : Compilable program

section Simulation

variable {program : List Instruction} {image : Array UInt8} {pool : Nat}

structure Follows (program : List Instruction) (entry : Processor) (e : Execution) (p : Processor) :
    Prop where
  inside : e.position ≤ program.length
  position : ∀ s, emitted? program e.position = .ok s → p.position = s.assembly.offset
  target : e.mayBranch = true → e.target = latestTarget? program e.position
  mirrors : Mirrors entry e.mayBranch e.values p

-- How far a run can have come: the branch back counts for the whole image once.
def clock (size : Nat) (e : Execution) (p : Processor) : Nat :=
  (if e.mayBranch then 0 else size) + p.position

variable {entry p : Processor} {e next : Execution}

theorem Follows.taking (laid : Laid program image pool) (follows : Follows program entry e p)
    (taking : e.Taking program) :
    ∃ n q t, Processor.Runs image (Processor.Within image pool 1) n p q ∧ e.target = some t ∧
      Follows program entry ⟨t, false, some t, e.values, e.steps + 1⟩ q ∧
      n + clock image.size e p ≤ image.size + q.position := by
  obtain ⟨mask, here, may, meets⟩ := taking
  obtain ⟨s, after, early, _, done, formed, lanes, linked⟩ := laid.instruction here
  obtain ⟨target, d, noted, same, reaches⟩ := emit_branch done
  have position := follows.position s early
  have room := Nat.le_trans linked.size linked.room
  have far := branch_offset s.assembly mask d
  have nonempty := (laid.compilable _ (List.mem_of_getElem? here)).2 mask rfl
  rw [← same] at far
  rw [same] at linked reaches
  obtain ⟨n, q, runs, result⟩ := branch_runs formed lanes linked position follows.mirrors nonempty reaches
  rw [if_pos ⟨may, meets⟩] at result
  obtain ⟨rfl, reached, ready⟩ := result
  obtain ⟨t, m, found, before, there⟩ := notes_targets.target_noted early noted
  change emitted? program t = .ok m at before
  have back : t ≤ program.length :=
    Nat.le_of_lt (Nat.lt_of_lt_of_le (latestTarget_lt found) follows.inside)
  refine ⟨5, q, t, runs, (follows.target may).trans found, ⟨back, ?_, nofun, ready⟩, ?_⟩
  · intro m' again
    rw [before, Except.ok.injEq] at again
    rw [reached, there, again]
  · simp only [clock, may, if_true, position]
    simp only [Assembly.offset] at far room ⊢
    omega

theorem Follows.forward (laid : Laid program image pool) (follows : Follows program entry e p)
    {i : Instruction} (here : program[e.position]? = some i) (staying : ¬ e.Taking program) :
    ∃ n q, Processor.Runs image (Processor.Within image pool 1) n p q ∧
      Follows program entry ⟨e.position + 1, e.mayBranch,
        if i = .target then some e.position else e.target, i.apply e.values, e.steps + 1⟩ q ∧
      n + p.position ≤ q.position := by
  obtain ⟨s, t, early, late, done, formed, lanes, linked⟩ := laid.instruction here
  have position := follows.position s early
  have inside := (List.getElem?_eq_some_iff.mp here).1
  have moves : ∃ n q, Processor.Runs image (Processor.Within image pool 1) n p q ∧
      n + p.position ≤ q.position ∧ q.position = t.assembly.offset ∧
      Mirrors entry e.mayBranch (i.apply e.values) q := by
    by_cases straight : i.opcode = .branch
    · cases i with
      | branch mask =>
          obtain ⟨target, d, _, same, reaches⟩ := emit_branch done
          have far := branch_offset s.assembly mask d
          have nonempty := (laid.compilable _ (List.mem_of_getElem? here)).2 mask rfl
          rw [← same] at far
          rw [same] at linked reaches
          obtain ⟨n, q, runs, result⟩ :=
            branch_runs formed lanes linked position follows.mirrors nonempty reaches
          rw [if_neg fun taken => staying ⟨mask, here, taken⟩, ← same] at result
          obtain ⟨rfl, reached, ready⟩ := result
          exact ⟨3, q, runs, by omega, reached, ready⟩
      | _ => cases straight
    · have same := emit_other straight done
      obtain ⟨q, all, ready⟩ := @pieces_do image pool entry p e.mayBranch e.values i follows.mirrors
      rw [same] at linked
      obtain ⟨runs, reached⟩ := runs_putAll formed
        (pieces_fit (laid.compilable i (List.mem_of_getElem? here)).1) linked position
        (by rw [lanes]; exact all)
      have size := s.assembly.putAll_offset (pieces i)
      rw [lanes] at runs
      exact ⟨_, q, runs, by omega, reached.trans (by rw [same]), ready⟩
  obtain ⟨n, q, runs, size, reached, ready⟩ := moves
  refine ⟨n, q, runs, ⟨inside, ?_, fun may => ?_, ready⟩, size⟩
  · intro t' again
    simp only at again
    rw [reached, Except.ok.inj (late.symm.trans again)]
  · simp only at may
    simp only [latestTarget?, here, Option.some.injEq, follows.target may]

theorem Follows.step (laid : Laid program image pool) (follows : Follows program entry e p)
    (stepped : e.step program.toArray = .next next) :
    ∃ n q, Processor.Runs image (Processor.Within image pool 1) n p q ∧
      Follows program entry next q ∧ n + clock image.size e p ≤ clock image.size next q := by
  by_cases taking : e.Taking program
  · obtain ⟨n, q, t, runs, noted, ready, bound⟩ := follows.taking laid taking
    rw [Execution.step_taking taking, noted, Progress.next.injEq] at stepped
    exact ⟨n, q, runs, stepped ▸ ready, by rw [← stepped]; exact bound⟩
  · have inside : e.position < program.length := by
      refine Nat.lt_of_not_le fun outside => ?_
      rw [Execution.step_outside outside] at stepped
      cases stepped
    have here := List.getElem?_eq_getElem inside
    obtain ⟨n, q, runs, ready, bound⟩ := follows.forward laid here taking
    rw [Execution.step_forward here taking, Progress.next.injEq] at stepped
    refine ⟨n, q, runs, stepped ▸ ready, ?_⟩
    rw [← stepped]
    simp only [clock]
    omega

theorem Follows.run (laid : Laid program image pool) (follows : Follows program entry e p)
    {last : Execution} (ended : Execution.run program.toArray e = .ok last) :
    ∃ n q, Processor.Runs image (Processor.Within image pool 1) n p q ∧
      Follows program entry last q ∧ program.length ≤ last.position ∧
      n + clock image.size e p ≤ clock image.size last q := by
  induction e using Execution.run.induct program.toArray generalizing p with
  | case1 e finished =>
      rw [Execution.run_finished finished, Except.ok.injEq] at ended
      subst ended
      exact ⟨0, p, .refl, follows, Execution.step_finished finished, by omega⟩
  | case2 e fault faulted =>
      rw [Execution.run_faulted faulted] at ended
      cases ended
  | case3 e next stepped ih =>
      rw [Execution.run_next stepped] at ended
      obtain ⟨m, q, first, ready, bound⟩ := follows.step laid stepped
      obtain ⟨n, r, second, arrived, beyond, bound'⟩ := ih ready ended
      exact ⟨m + n, r, first.trans second, arrived, beyond, by omega⟩

theorem Laid.starts (laid : Laid program image pool) {values : RegisterFile} {entry : Processor}
    (entered : Entered values entry) :
    ∃ n q, Processor.Runs image (Processor.Within image pool 1) n entry q ∧
      Follows program entry (.start values) q ∧ n ≤ q.position := by
  obtain ⟨s, done, _, _, linked⟩ := laid.upTo (Nat.zero_le _)
  cases done
  rw [opened_pieces] at linked
  obtain ⟨q, all, mirrors⟩ := @prologue_does image pool entry values entered
  obtain ⟨runs, reached⟩ := runs_putAll emptyAssembly prologue_fit linked entered.position all
  have size := (Assembly.empty 1).putAll_offset (prologue.map .plain)
  refine ⟨_, q, runs, ⟨Nat.zero_le _, fun s again => ?_, fun _ => rfl, mirrors⟩, by omega⟩
  cases again
  rw [reached, opened_pieces]

theorem Laid.returns (laid : Laid program image pool) {values : RegisterFile} {entry : Processor}
    (entered : Entered values entry) {last : Execution}
    (ended : Execution.run program.toArray (.start values) = .ok last) :
    ∃ q, Processor.run image (2 * image.size) entry = .returned q ∧
      Restored last.values.file entry q ∧
      ∀ r, Processor.Visits image entry r → Processor.Within image pool 1 r := by
  obtain ⟨l, p, first, start, early⟩ := laid.starts entered
  obtain ⟨m, q, second, arrived, beyond, bound⟩ := start.run laid ended
  obtain ⟨s, done, linked⟩ := laid.compiled
  have atEnd : last.position = program.length := Nat.le_antisymm arrived.inside beyond
  have here := arrived.position s (by rw [atEnd]; exact done)
  have soon : l + m ≤ image.size + q.position := by
    have counted : (if last.mayBranch then 0 else image.size) ≤ image.size := by split <;> omega
    simp only [clock, Execution.start, if_true] at bound
    omega
  obtain ⟨r, all, restored⟩ := @epilogue_does image pool q entry _ _ values entered arrived.mirrors
  obtain ⟨returned, within⟩ := runs_return (laid.formed done) (laid.lanes done) epiloguePieces_fit linked
    (first.trans second) soon here all restored.stack
  exact ⟨r, returned, restored, within⟩

end Simulation

end ProgramHash.ScalarCode
