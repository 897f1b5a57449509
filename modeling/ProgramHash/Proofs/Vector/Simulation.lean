import ProgramHash.Proofs.Layout
import ProgramHash.Proofs.Vector.Frame

namespace ProgramHash.VectorCode

open Machine

def Compilable (program : List Instruction) : Prop := ∀ i ∈ program, Encodable i

def bodyBefore (program : List Instruction) (k : Nat) : List Instruction :=
  match latestTarget? program k with
  | some t => (program.take k).drop (t + 1)
  | none => []

-- What an instruction does to a lane: a lane that takes a branch runs the body
-- before it once more, and branches no more.
def laneStep (program : List Instruction) (k : Nat) (s : Bool × Values) : Bool × Values :=
  match program[k]? with
  | some (.branch mask) =>
      if takes s.1 s.2 mask then (false, straightLine (bodyBefore program k) s.2) else s
  | some i => (s.1, i.apply s.2)
  | none => s

def laneAfter (program : List Instruction) (values : RegisterFile) : Nat → Bool × Values
  | 0 => (true, ⟨values, 0⟩)
  | k + 1 => laneStep program k (laneAfter program values k)

section Lanes

variable {program : List Instruction} {values : RegisterFile}

theorem laneStep_branch {k : Nat} {mask : UInt32} (here : program[k]? = some (.branch mask))
    (s : Bool × Values) : laneStep program k s =
      if takes s.1 s.2 mask then (false, straightLine (bodyBefore program k) s.2) else s := by
  simp [laneStep, here]

theorem laneStep_other {k : Nat} {i : Instruction} (here : program[k]? = some i)
    (straight : i.opcode ≠ .branch) (s : Bool × Values) : laneStep program k s = (s.1, i.apply s.2) := by
  cases i with
  | branch mask => exact absurd rfl straight
  | _ => simp [laneStep, here]

theorem laneAfter_early {k : Nat} (inside : k ≤ program.length)
    (staying : ∀ j < k, meetsZero program values j = false) :
    laneAfter program values k = (true, straightLine (program.take k) ⟨values, 0⟩) := by
  induction k with
  | zero => rfl
  | succ k ih =>
      have here := List.getElem?_eq_getElem (show k < program.length from inside)
      have before := ih (by omega) fun j early => staying j (by omega)
      rw [laneAfter, before, straightLine_take_succ here]
      by_cases straight : program[k].opcode = .branch
      · cases there : program[k] with
        | branch mask =>
            have blocked := staying k (by omega)
            rw [there] at here
            simp only [meetsZero, here] at blocked
            rw [laneStep_branch here, takes, if_neg]
            · rfl
            · simp only [Bool.true_and]
              rw [blocked]
              exact Bool.false_ne_true
        | _ => rw [there] at straight; cases straight
      · rw [laneStep_other here straight]

theorem laneAfter_settled {b k : Nat} {v : Values} (branched : laneAfter program values b = (false, v))
    (later : b ≤ k) (inside : k ≤ program.length) :
    laneAfter program values k = (false, straightLine ((program.take k).drop b) v) := by
  induction k with
  | zero =>
      cases Nat.le_zero.mp later
      rw [branched]
      simp [straightLine]
  | succ k ih =>
      by_cases last : b = k + 1
      · subst last
        rw [branched, List.drop_of_length_le (by rw [List.length_take]; omega)]
        rfl
      · have here := List.getElem?_eq_getElem (show k < program.length from inside)
        have before := ih (by omega) (by omega)
        have longer : (program.take (k + 1)).drop b = (program.take k).drop b ++ [program[k]] := by
          rw [List.take_add_one, here, List.drop_append_of_le_length (by rw [List.length_take]; omega)]
          rfl
        rw [laneAfter, before, longer, straightLine_append]
        by_cases straight : program[k].opcode = .branch
        · cases there : program[k] with
          | branch mask =>
              rw [there] at here
              rw [laneStep_branch here, takes, if_neg (by simp)]
              rfl
          | _ => rw [there] at straight; cases straight
        · rw [laneStep_other here straight]
          rfl

theorem laneAfter_foretold {v : Values} {n : Nat} (ended : foretold program values = .ok (v, n)) :
    (laneAfter program values program.length).2 = v := by
  unfold foretold at ended
  split at ended
  · rename_i missing
    cases ended
    rw [laneAfter_early (Nat.le_refl _) fun j _ => takenBranch_none missing j, List.take_length]
  · rename_i b found
    obtain ⟨inside, meets, earlier⟩ := takenBranch_some found
    obtain ⟨mask, here, zero⟩ := meetsZero_branch meets
    have before := laneAfter_early (Nat.le_of_lt inside) earlier
    split at ended
    · cases ended
    · rename_i t latest
      cases ended
      have branched : laneAfter program values (b + 1) = (false, straightLine
          ((program.take b).drop (t + 1)) (straightLine (program.take b) ⟨values, 0⟩)) := by
        rw [laneAfter, before, laneStep_branch here, takes, if_pos (by simpa using zero), bodyBefore, latest]
      rw [laneAfter_settled branched inside (Nat.le_refl _), List.take_length, withReplay,
        straightLine_append, straightLine_append]

end Lanes

section Emission

variable {program : List Instruction}

theorem emit_branch {s t : State} {mask : UInt32} {k : Nat}
    (done : emit program.toArray s (.branch mask, k) = .ok t) :
    ∃ (target : Nat) (d : Int32), s.target = some target ∧
      t.assembly = (s.assembly.putAll (guardPieces mask d)).putAll
        (takePieces ((program.take k).drop (target + 1))) ∧
      ((s.assembly.putAll (guardPieces mask d)).offset : Int) + d.toInt = t.assembly.offset := by
  simp only [emit] at done
  split at done
  · rename_i target noted
    have body : (program.toArray.extract (target + 1) k).toList = (program.take k).drop (target + 1) := by
      simp [List.extract_eq_take_drop, List.drop_take]
    rw [body] at done
    obtain ⟨assembly, jumped, rfl⟩ := map_ok.mp done
    obtain ⟨d, same, reaches⟩ := emitBranch_pieces jumped
    exact ⟨target, d, noted, same, reaches⟩
  · cases done

theorem emit_other {s t : State} {i : Instruction} {k : Nat} (straight : i.opcode ≠ .branch)
    (done : emit program.toArray s (i, k) = .ok t) :
    t.assembly = s.assembly.putAll (pieces none i) := by
  rw [← emitInstruction_pieces]
  cases i with
  | branch mask => exact absurd rfl straight
  | target =>
      simp only [emit, Except.ok.injEq] at done
      rw [← done]
      rfl
  | _ =>
      simp only [emit, Except.ok.injEq] at done
      rw [← done]

theorem emptyAssembly : (Assembly.empty 8).WellFormed := Assembly.wellFormed_empty (by decide)

theorem opened_pieces : opened.assembly = (Assembly.empty 8).putAll prologuePieces := prologue_pieces _

theorem pieces_few (mask : Option Opmask) (i : Instruction) : (pieces mask i).length ≤ 25 := by
  cases i <;> simp [pieces, upperProduct, unsignedProduct, signCorrection, shiftedSum]

theorem takePieces_few (body : List Instruction) : (takePieces body).length ≤ 25 * body.length + 1 := by
  have replayed : (replayPieces body).length ≤ 25 * body.length := by
    induction body with
    | nil => exact Nat.le_refl _
    | cons i body ih =>
        have few := pieces_few (some taking) i
        rw [replayPieces_cons, List.length_append, List.length_cons]
        omega
  simp only [takePieces, List.length_append, List.length_singleton]
  omega

theorem guardPieces_fit (mask : UInt32) (d : Int32) : ∀ piece ∈ guardPieces mask d, piece.Fits := by
  intro piece member
  rcases List.mem_append.mp member with tests | jumps
  · exact testPieces_fit mask piece tests
  · rw [List.mem_singleton.mp jumps]
    exact jump_fits d

theorem closes (program : List Instruction) :
    Closes (emit program.toArray) opened State.assembly program 11 (25 * program.length + 4) 8 epilogue
      epiloguePieces where
  atStart := by
    rw [opened_pieces]
    exact Assembly.putAll_wellFormed emptyAssembly prologuePieces_fit
  small := by
    rw [opened_pieces]
    exact (Assembly.small_empty 8).putAll prologuePieces
  emitted := by
    intro s t i k here done
    have inside := (List.getElem?_eq_some_iff.mp here).1
    by_cases straight : i.opcode = .branch
    · cases i with
      | branch mask =>
          obtain ⟨target, d, _, same, _⟩ := emit_branch done
          rw [← Assembly.putAll_append] at same
          refine ⟨_, ?_, ?_, same⟩
          · intro piece member
            rcases List.mem_append.mp member with guard | take
            · exact guardPieces_fit mask d piece guard
            · exact takePieces_fit _ piece take
          · have few := takePieces_few ((program.take k).drop (target + 1))
            have three : (guardPieces mask d).length = 3 := rfl
            simp only [List.length_append, List.length_drop, List.length_take] at few ⊢
            omega
      | _ => cases straight
    · have few := pieces_few none i
      exact ⟨_, pieces_fit i (.inl rfl), by omega, emit_other straight done⟩
  width := rfl
  fit := epiloguePieces_fit
  ends := emit_epilogue

end Emission

structure Laid (program : List Instruction) (image : Array UInt8) (pool : Nat) : Prop extends
    LaidOut (emit program.toArray) opened State.assembly program 11 (25 * program.length + 4) 8 epilogue
      epiloguePieces image pool where
  compilable : Compilable program

section Simulation

variable {program : List Instruction} {image : Array UInt8} {pool : Nat} {entry : Processor}
  {values : LaneFile}

-- The processor stands behind the first instructions, and every lane is where its
-- own interpreter is.
structure Follows (program : List Instruction) (values : LaneFile) (entry : Processor) (k : Nat)
    (p : Processor) : Prop where
  position : ∀ s, emitted? program k = .ok s → p.position = s.assembly.offset
  mirrors : Mirrors entry (fun l => (laneAfter program (values.lane l) k).1)
    (fun l => (laneAfter program (values.lane l) k).2) p

theorem Laid.starts (laid : Laid program image pool) (entered : Entered values entry) :
    ∃ n q, Processor.Runs image (Processor.Within image pool 8) n entry q ∧
      Follows program values entry 0 q ∧ n ≤ q.position := by
  obtain ⟨s, done, _, _, linked⟩ := laid.upTo (Nat.zero_le _)
  cases done
  rw [opened_pieces] at linked
  obtain ⟨q, all, mirrors⟩ := @prologue_does image pool entry values entered
  obtain ⟨runs, reached⟩ := runs_putAll emptyAssembly prologuePieces_fit linked entered.position all
  have size := (Assembly.empty 8).putAll_offset prologuePieces
  refine ⟨_, q, runs, ⟨?_, mirrors⟩, by omega⟩
  intro s again
  cases again
  rw [reached, opened_pieces]

theorem Follows.branch (laid : Laid program image pool) {k : Nat} {mask : UInt32}
    (here : program[k]? = some (.branch mask)) {p : Processor}
    (follows : Follows program values entry k p) {s t : State} (early : emitted? program k = .ok s)
    (done : emit program.toArray s (.branch mask, k) = .ok t) (formed : s.assembly.WellFormed)
    (lanes : s.assembly.lanes = 8) (linked : t.assembly.Linked image pool) :
    ∃ n q, Processor.Runs image (Processor.Within image pool 8) n p q ∧
      n + p.position ≤ q.position ∧ q.position = t.assembly.offset ∧
      Mirrors entry (fun l => (laneAfter program (values.lane l) (k + 1)).1)
        (fun l => (laneAfter program (values.lane l) (k + 1)).2) q := by
  have position := follows.position s early
  obtain ⟨target, d, noted, same, reaches⟩ := emit_branch done
  obtain ⟨_, _, latest, _, rfl⟩ := (notes_targets program.toArray).target_noted early noted
  have body : (program.take k).drop (target + 1) = bodyBefore program k := by
    rw [bodyBefore, latest]
  have encodable : ∀ i ∈ bodyBefore program k, Encodable i := by
    intro i member
    rw [← body] at member
    exact laid.compilable i (List.mem_of_mem_take (List.mem_of_mem_drop member))
  rw [body] at same
  rw [same] at linked reaches
  obtain ⟨n, q, runs, size, reached, ready⟩ :=
    branch_runs formed lanes linked position follows.mirrors encodable reaches
  refine ⟨n, q, runs, by omega, by rw [same]; exact reached, ready.keeps, ?_, ?_⟩
  · intro l
    have lane := ready.lanes l
    rw [laneAfter, laneStep_branch here]
    split at lane
    · rename_i taken
      rw [if_pos taken]
      exact lane
    · rename_i staying
      rw [if_neg staying]
      exact lane
  · intro l
    rw [laneAfter, laneStep_branch here, ready.may l]
    split
    · rename_i taken
      rw [taken, Bool.not_true, Bool.and_false]
    · rename_i staying
      rw [Bool.eq_false_iff.mpr staying, Bool.not_false, Bool.and_true]

theorem Follows.step (laid : Laid program image pool) {k : Nat} (inside : k < program.length)
    {p : Processor} (follows : Follows program values entry k p) :
    ∃ n q, Processor.Runs image (Processor.Within image pool 8) n p q ∧
      Follows program values entry (k + 1) q ∧ n + p.position ≤ q.position := by
  have here := List.getElem?_eq_getElem inside
  obtain ⟨s, t, early, late, done, formed, lanes, linked⟩ := laid.instruction here
  have moves : ∃ n q, Processor.Runs image (Processor.Within image pool 8) n p q ∧
      n + p.position ≤ q.position ∧ q.position = t.assembly.offset ∧
      Mirrors entry (fun l => (laneAfter program (values.lane l) (k + 1)).1)
        (fun l => (laneAfter program (values.lane l) (k + 1)).2) q := by
    by_cases straight : program[k].opcode = .branch
    · generalize program[k] = i at *
      cases i with
      | branch mask => exact follows.branch laid here early done formed lanes linked
      | _ => cases straight
    · have same := emit_other straight done
      obtain ⟨q, all, still, reflects⟩ := @instruction_does image pool p _ program[k]
        (laid.compilable _ (List.getElem_mem inside)) none (.inl rfl) follows.mirrors.lanes
      rw [same] at linked
      obtain ⟨runs, reached⟩ := runs_putAll formed (pieces_fit _ (.inl rfl)) linked
        (follows.position s early) (by rw [lanes]; exact all)
      have size := s.assembly.putAll_offset (pieces none program[k])
      have position := follows.position s early
      rw [lanes] at runs
      refine ⟨_, q, runs, by omega, by rw [same]; exact reached,
        follows.mirrors.keeps.trans still.toKeeps, ?_, ?_⟩
      · intro l
        simp only [laneAfter, laneStep_other here straight]
        exact reflects l
      · intro l
        simp only [laneAfter, laneStep_other here straight, still.masks]
        exact follows.mirrors.may l
  obtain ⟨n, q, runs, size, reached, ready⟩ := moves
  refine ⟨n, q, runs, ⟨?_, ready⟩, size⟩
  intro t' again
  rw [reached, Except.ok.inj (late.symm.trans again)]

theorem Follows.run (laid : Laid program image pool) (entered : Entered values entry) {k : Nat}
    (inside : k ≤ program.length) :
    ∃ n q, Processor.Runs image (Processor.Within image pool 8) n entry q ∧
      Follows program values entry k q ∧ n ≤ q.position := by
  induction k with
  | zero => exact laid.starts entered
  | succ k ih =>
      obtain ⟨m, p, first, follows, early⟩ := ih (by omega)
      obtain ⟨n, q, second, later, more⟩ := follows.step laid inside
      exact ⟨m + n, q, first.trans second, later, by omega⟩

theorem Laid.returns (laid : Laid program image pool) (entered : Entered values entry) :
    ∃ q result, Processor.run image (2 * image.size) entry = .returned q ∧
      Restored result entry q ∧
      (∀ l, result.lane l = (laneAfter program (values.lane l) program.length).2.file) ∧
      ∀ r, Processor.Visits image entry r → Processor.Within image pool 8 r := by
  obtain ⟨m, q, first, follows, early⟩ := Follows.run laid entered (Nat.le_refl _)
  obtain ⟨s, done, linked⟩ := laid.compiled
  obtain ⟨r, result, all, restored, values'⟩ :=
    @epilogue_does image pool q entry values _ _ entered follows.mirrors
  obtain ⟨returned, within⟩ := runs_return (laid.formed done) (laid.lanes done) epiloguePieces_fit
    linked first
    (Nat.le_add_left_of_le early) (follows.position s done) all restored.stack
  exact ⟨r, result, returned, restored, values', within⟩

end Simulation

end ProgramHash.VectorCode
