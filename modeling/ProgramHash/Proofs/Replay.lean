import ProgramHash.Compile.Scalar
import ProgramHash.Compile.Vector

namespace ProgramHash

-- The latest target among the first instructions of a program. It is settled by
-- the order of the instructions alone, before any of them is run.
def latestTarget? (program : List Instruction) : Nat → Option Nat
  | 0 => none
  | n + 1 => if program[n]? = some .target then some n else latestTarget? program n

theorem latestTarget_lt {program : List Instruction} {n t : Nat}
    (found : latestTarget? program n = some t) : t < n := by
  induction n with
  | zero => cases found
  | succ n ih =>
      unfold latestTarget? at found
      split at found
      · cases found; exact Nat.lt_succ_self _
      · exact Nat.lt_succ_of_lt (ih found)

theorem latestTarget_is_target {program : List Instruction} {n t : Nat}
    (found : latestTarget? program n = some t) : program[t]? = some .target := by
  induction n with
  | zero => cases found
  | succ n ih =>
      unfold latestTarget? at found
      split at found
      · cases found; assumption
      · exact ih found

theorem latestTarget_none_mono {program : List Instruction} {m n : Nat}
    (missing : latestTarget? program n = none) (earlier : m ≤ n) :
    latestTarget? program m = none := by
  induction n with
  | zero => rwa [Nat.le_zero.mp earlier]
  | succ n ih =>
      by_cases equal : m = n + 1
      · rwa [equal]
      · unfold latestTarget? at missing
        split at missing
        · cases missing
        · exact ih missing (by omega)

theorem straightLine_append (l m : List Instruction) (v : Values) :
    straightLine (l ++ m) v = straightLine m (straightLine l v) := List.foldl_append

theorem straightLine_take_succ {program : List Instruction} {n : Nat} {i : Instruction}
    (here : program[n]? = some i) (v : Values) :
    straightLine (program.take (n + 1)) v = i.apply (straightLine (program.take n) v) := by
  rw [List.take_add_one, here, straightLine_append]
  rfl

theorem straightLine_drop {program : List Instruction} {n : Nat} {i : Instruction}
    (here : program[n]? = some i) (v : Values) :
    straightLine (program.drop n) v = straightLine (program.drop (n + 1)) (i.apply v) := by
  obtain ⟨inside, rfl⟩ := List.getElem?_eq_some_iff.mp here
  rw [List.drop_eq_getElem_cons inside]
  rfl

def meetsZero (program : List Instruction) (file : RegisterFile) (b : Nat) : Bool :=
  match program[b]? with
  | some (.branch mask) => mask &&& (straightLine (program.take b) ⟨file, 0⟩).product = 0
  | _ => false

def takenBranch? (program : List Instruction) (file : RegisterFile) : Option Nat :=
  (List.range program.length).find? (meetsZero program file)

-- All instructions in order, with those after the target and before the branch
-- a second time when the branch is reached.
def withReplay (program : List Instruction) (t b : Nat) : List Instruction :=
  program.take b ++ (program.take b).drop (t + 1) ++ program.drop (b + 1)

def foretold (program : List Instruction) (file : RegisterFile) : Except Fault (Values × Nat) :=
  match takenBranch? program file with
  | none => .ok (straightLine program ⟨file, 0⟩, program.length)
  | some b =>
      match latestTarget? program b with
      | none => .error .branchTakenWithoutTarget
      | some t => .ok (straightLine (withReplay program t b) ⟨file, 0⟩,
          program.length + (b - t + 1))

theorem takenBranch_some {program : List Instruction} {file : RegisterFile} {b : Nat}
    (found : takenBranch? program file = some b) :
    b < program.length ∧ meetsZero program file b = true ∧
      ∀ k < b, meetsZero program file k = false := by
  obtain ⟨meets, inside, earlier⟩ := List.find?_range_eq_some.mp found
  exact ⟨List.mem_range.mp inside, meets, fun k before => by simpa using earlier k before⟩

theorem takenBranch_none {program : List Instruction} {file : RegisterFile}
    (missing : takenBranch? program file = none) (k : Nat) :
    meetsZero program file k = false := by
  by_cases inside : k < program.length
  · simpa using List.find?_eq_none.mp missing k (List.mem_range.mpr inside)
  · simp [meetsZero, List.getElem?_eq_none (Nat.le_of_not_lt inside)]

theorem meetsZero_branch {program : List Instruction} {file : RegisterFile} {b : Nat}
    (meets : meetsZero program file b = true) :
    ∃ mask, program[b]? = some (.branch mask) ∧
      mask &&& (straightLine (program.take b) ⟨file, 0⟩).product = 0 := by
  unfold meetsZero at meets
  split at meets
  · rename_i mask here
    exact ⟨mask, here, of_decide_eq_true meets⟩
  · cases meets

namespace Execution

def observed (e : Execution) : Values × Nat := (e.values, e.steps)

def Taking (program : List Instruction) (e : Execution) : Prop :=
  ∃ mask, program[e.position]? = some (.branch mask) ∧ e.mayBranch = true ∧
    mask &&& e.values.product = 0

inductive Reached (program : List Instruction) : Execution → Execution → Prop where
  | refl : Reached program e e
  | step : Reached program origin e → e.step program.toArray = .next next →
      Reached program origin next

theorem run_finished {program : Array Instruction} {e : Execution}
    (stepped : e.step program = .finished) : run program e = .ok e := by
  unfold run
  split <;> simp_all

theorem run_faulted {program : Array Instruction} {e : Execution} {fault : Fault}
    (stepped : e.step program = .faulted fault) : run program e = .error fault := by
  unfold run
  split <;> simp_all

theorem run_next {program : Array Instruction} {e next : Execution}
    (stepped : e.step program = .next next) : run program e = run program next := by
  conv => lhs; unfold run
  split <;> simp_all

theorem step_outside {program : List Instruction} {e : Execution}
    (outside : program.length ≤ e.position) : e.step program.toArray = .finished := by
  simp [step, Nat.not_lt.mpr outside]

theorem step_forward {program : List Instruction} {e : Execution} {i : Instruction}
    (here : program[e.position]? = some i) (staying : ¬ e.Taking program) :
    e.step program.toArray = .next ⟨e.position + 1, e.mayBranch,
      if i = .target then some e.position else e.target, i.apply e.values, e.steps + 1⟩ := by
  obtain ⟨inside, same⟩ := List.getElem?_eq_some_iff.mp here
  have room : e.position < program.toArray.size := by simpa using inside
  have read : program.toArray[e.position] = i := by simpa using same
  unfold step
  simp only [room, dite_true, read]
  cases i with
  | branch mask =>
      have blocked : ¬ (e.mayBranch = true ∧ mask &&& e.values.product = 0) :=
        fun taken => staying ⟨mask, here, taken⟩
      simp [blocked, Instruction.apply]
  | target => simp [Instruction.apply]
  | _ => simp

theorem step_taking {program : List Instruction} {e : Execution} (taking : e.Taking program) :
    e.step program.toArray = match e.target with
      | none => .faulted .branchTakenWithoutTarget
      | some t => .next { e with position := t, mayBranch := false, steps := e.steps + 1 } := by
  obtain ⟨mask, here, may, meets⟩ := taking
  obtain ⟨inside, same⟩ := List.getElem?_eq_some_iff.mp here
  have room : e.position < program.toArray.size := by simpa using inside
  have read : program.toArray[e.position] = .branch mask := by simpa using same
  unfold step
  simp only [room, dite_true, read]
  refine (if_pos ⟨may, meets⟩).trans ?_
  cases e.target <;> rfl

theorem step_finished {program : List Instruction} {e : Execution}
    (finished : e.step program.toArray = .finished) : program.length ≤ e.position := by
  refine Nat.le_of_not_lt fun inside => ?_
  by_cases taking : e.Taking program
  · rw [step_taking taking] at finished
    split at finished <;> cases finished
  · rw [step_forward (List.getElem?_eq_getElem inside) taking] at finished
    cases finished

theorem run_settled {program : List Instruction} {e : Execution} (settled : e.mayBranch = false)
    (inside : e.position ≤ program.length) :
    (run program.toArray e).map observed =
      .ok (straightLine (program.drop e.position) e.values,
        e.steps + (program.length - e.position)) := by
  generalize left : program.length - e.position = n
  induction n generalizing e with
  | zero =>
      have atEnd : e.position = program.length := by omega
      rw [run_finished (step_outside (by omega)), atEnd, List.drop_length]
      rfl
  | succ n ih =>
      have room : e.position < program.length := by omega
      have here := List.getElem?_eq_getElem room
      have staying : ¬ e.Taking program := by
        rintro ⟨_, _, may, _⟩
        rw [settled] at may
        cases may
      rw [run_next (step_forward here staying), straightLine_drop here]
      have later := ih (e := ⟨e.position + 1, e.mayBranch,
        if program[e.position] = .target then some e.position else e.target,
        program[e.position].apply e.values, e.steps + 1⟩) settled room (by simp only; omega)
      simpa only [Nat.add_assoc, Nat.add_comm 1 n] using later

-- The state of a run that has come to a place without taking a branch. Its
-- target is the latest one before that place.
def unbranched (program : List Instruction) (file : RegisterFile) (k : Nat) : Execution :=
  ⟨k, true, latestTarget? program k, straightLine (program.take k) ⟨file, 0⟩, k⟩

theorem unbranched_taking {program : List Instruction} {file : RegisterFile} {k : Nat} :
    (unbranched program file k).Taking program ↔ meetsZero program file k = true := by
  constructor
  · rintro ⟨mask, here, _, meets⟩
    simp only [unbranched] at here meets
    simp [meetsZero, here, meets]
  · intro meets
    obtain ⟨mask, here, zero⟩ := meetsZero_branch meets
    exact ⟨mask, here, rfl, zero⟩

theorem unbranched_step {program : List Instruction} {file : RegisterFile} {k : Nat}
    (inside : k < program.length) (staying : meetsZero program file k = false) :
    (unbranched program file k).step program.toArray = .next (unbranched program file (k + 1)) := by
  have here := List.getElem?_eq_getElem inside
  have blocked : ¬ (unbranched program file k).Taking program := by
    simp [unbranched_taking, staying]
  rw [step_forward here blocked]
  simp only [unbranched, latestTarget?, here, straightLine_take_succ here, Option.some.injEq]

theorem run_unbranched {program : List Instruction} {file : RegisterFile} {k : Nat}
    (inside : k ≤ program.length) (staying : ∀ j < k, meetsZero program file j = false) :
    run program.toArray (.start file) = run program.toArray (unbranched program file k) := by
  induction k with
  | zero => rfl
  | succ k ih =>
      rw [ih (by omega) (fun j before => staying j (by omega)),
        run_next (unbranched_step (by omega) (staying k (by omega)))]

theorem run_foretold (program : List Instruction) (file : RegisterFile) :
    (run program.toArray (.start file)).map observed = foretold program file := by
  unfold foretold
  split
  · rename_i missing
    rw [run_unbranched (Nat.le_refl _) (fun j _ => takenBranch_none missing j),
      run_finished (step_outside (Nat.le_refl _))]
    simp [unbranched, observed, Except.map]
  · rename_i b found
    obtain ⟨inside, meets, earlier⟩ := takenBranch_some found
    rw [run_unbranched (Nat.le_of_lt inside) earlier]
    have jump := step_taking (unbranched_taking.mpr meets)
    simp only [unbranched] at jump ⊢
    split
    · rename_i missing
      simp only [missing] at jump ⊢
      rw [run_faulted jump]
      rfl
    · rename_i t latest
      simp only [latest] at jump ⊢
      have back := latestTarget_lt latest
      obtain ⟨mask, here, _⟩ := meetsZero_branch meets
      rw [run_next jump, run_settled rfl (by simp; omega)]
      -- From the target on: the part before the branch, the branch, and the rest.
      have parts : program.drop t =
          .target :: ((program.take b).drop (t + 1) ++ .branch mask :: program.drop (b + 1)) := by
        obtain ⟨room, same⟩ := List.getElem?_eq_some_iff.mp here
        obtain ⟨targetRoom, target⟩ := List.getElem?_eq_some_iff.mp (latestTarget_is_target latest)
        rw [List.drop_eq_getElem_cons targetRoom, target, ← same, ← List.drop_eq_getElem_cons room]
        congr 1
        conv => lhs; rw [← List.take_append_drop b program]
        rw [List.drop_append_of_le_length (by simp; omega)]
      rw [parts]
      simp only [withReplay, straightLine_append]
      simp only [straightLine, List.foldl_cons, List.foldl_append, Instruction.apply,
        Except.ok.injEq, Prod.mk.injEq, true_and]
      omega

theorem reached_unbranched {program : List Instruction} {file : RegisterFile} {e : Execution}
    (reached : Reached program (.start file) e) (may : e.mayBranch = true) :
    e.position ≤ program.length ∧ e = unbranched program file e.position := by
  generalize begun : Execution.start file = origin at reached
  induction reached with
  | refl => subst begun; exact ⟨Nat.zero_le _, rfl⟩
  | @step e next _ stepped ih =>
      have before : e.mayBranch = true := by
        rcases step_progress stepped with ⟨_, after⟩ | ⟨same, _, _⟩
        · rw [after] at may; cases may
        · rw [← same]; exact may
      obtain ⟨inside, same⟩ := ih before
      have room : e.position < program.length := by
        refine Nat.lt_of_not_le fun outside => ?_
        rw [step_outside outside] at stepped
        cases stepped
      cases meets : meetsZero program file e.position with
      | false =>
          rw [same, unbranched_step room meets] at stepped
          cases stepped
          exact ⟨room, rfl⟩
      | true =>
          have jump := step_taking (unbranched_taking.mpr meets)
          rw [← same, stepped] at jump
          split at jump
          · cases jump
          · cases jump; cases may

end Execution

end ProgramHash
