import ProgramHash.Proofs.Outcomes
import ProgramHash.Proofs.Replay

namespace ProgramHash

namespace Machine.Assembly

theorem distance_error {start target : Nat} {fault : Fault}
    (failed : distance start target = .error fault) : fault = .outOfReach := by
  unfold distance at failed
  dsimp only at failed
  split at failed
  · cases failed
  · cases failed; rfl

theorem link_error {code : Array UInt8} {field target : Nat} {fault : Fault}
    (failed : link code field target = .error fault) : fault = .outOfReach :=
  distance_error (map_error.mp failed)

theorem bindTo_error {a : Assembly} {field target : Nat} {fault : Fault}
    (failed : a.bindTo field target = .error fault) : fault = .outOfReach :=
  link_error (map_error.mp failed)

theorem finish_error {a : Assembly} {fault : Fault} (failed : a.finish = .error fault) :
    fault = .outOfReach := by
  obtain ⟨_, _, _, _, _, stopped⟩ := foldlM_error_at (map_error.mp failed)
  exact link_error stopped

end Machine.Assembly

open Machine

def EveryBranchHasTarget (program : List Instruction) : Prop :=
  ∀ b mask, program[b]? = some (.branch mask) → latestTarget? program b ≠ none

-- Both compilers go through a program once and note where the latest target
-- stands, each in its own way. Only a branch can stop them.
section NotingTargets

variable {S τ : Type} (emit : S → Instruction × Nat → Except Fault S) (opened : S)
  (noted : S → Option τ) (place : S → Nat → τ)

structure NotesTargets : Prop where
  atStart : noted opened = none
  emitted : ∀ {s t i k}, emit s (i, k) = .ok t →
    noted t = if i = .target then some (place s k) else noted s
  failed : ∀ {s i k fault}, emit s (i, k) = .error fault → ∃ mask, i = .branch mask ∧
    fault = if (noted s).isNone then .branchWithoutTarget else .outOfReach
  stopped : ∀ {s k} mask, noted s = none → emit s (.branch mask, k) = .error .branchWithoutTarget

def stateAfter? (program : List Instruction) (k : Nat) : Except Fault S :=
  (program.zipIdx.take k).foldlM emit opened

variable {emit opened noted place}

theorem stateAfter_succ {program : List Instruction} {k : Nat} {i : Instruction}
    (here : program[k]? = some i) :
    stateAfter? emit opened program (k + 1) =
      stateAfter? emit opened program k >>= fun s => emit s (i, k) :=
  foldlM_take_succ (by simp [here])

theorem stateAfter_succ_ok {program : List Instruction} {k : Nat} {i : Instruction} {t : S}
    (here : program[k]? = some i) (done : stateAfter? emit opened program (k + 1) = .ok t) :
    ∃ s, stateAfter? emit opened program k = .ok s ∧ emit s (i, k) = .ok t := by
  rw [stateAfter_succ here] at done
  exact bind_ok.mp done

theorem stateAfter_beyond {program : List Instruction} {k : Nat} (beyond : program.length ≤ k) :
    stateAfter? emit opened program (k + 1) = stateAfter? emit opened program k := by
  unfold stateAfter?
  rw [List.take_of_length_le (by simp; omega), List.take_of_length_le (by simpa using beyond)]

theorem stateAfter_ok_of_le {program : List Instruction} {j k : Nat} {s : S} (earlier : j ≤ k)
    (done : stateAfter? emit opened program k = .ok s) :
    ∃ m, stateAfter? emit opened program j = .ok m := by
  obtain ⟨m, early⟩ := foldlM_ok_take done j
  rw [List.take_take, Nat.min_eq_left earlier] at early
  exact ⟨m, early⟩

theorem NotesTargets.none_iff (notes : NotesTargets emit opened noted place)
    {program : List Instruction} {k : Nat} {s : S}
    (done : stateAfter? emit opened program k = .ok s) :
    noted s = none ↔ latestTarget? program k = none := by
  induction k generalizing s with
  | zero => cases done; simp [notes.atStart, latestTarget?]
  | succ k ih =>
      by_cases inside : k < program.length
      · have here := List.getElem?_eq_getElem inside
        obtain ⟨m, before, last⟩ := stateAfter_succ_ok here done
        rw [notes.emitted last, latestTarget?, here]
        simp only [Option.some.injEq]
        split
        · simp
        · exact ih before
      · have beyond : program.length ≤ k := Nat.le_of_not_lt inside
        rw [stateAfter_beyond beyond] at done
        rw [latestTarget?, List.getElem?_eq_none beyond]
        simpa using ih done

-- What is noted after some instructions is the place of their latest target.
theorem NotesTargets.latest (notes : NotesTargets emit opened noted place)
    {program : List Instruction} {k t : Nat} {s m : S}
    (done : stateAfter? emit opened program k = .ok s)
    (found : latestTarget? program k = some t)
    (before : stateAfter? emit opened program t = .ok m) : noted s = some (place m t) := by
  induction k generalizing s with
  | zero => cases found
  | succ k ih =>
      unfold latestTarget? at found
      split at found
      · rename_i here
        cases found
        rw [stateAfter_succ here, before] at done
        simpa using notes.emitted done
      · rename_i other
        by_cases inside : k < program.length
        · have here := List.getElem?_eq_getElem inside
          obtain ⟨s', early, last⟩ := stateAfter_succ_ok here done
          rw [here, Option.some.injEq] at other
          rw [notes.emitted last, if_neg other]
          exact ih early found
        · rw [stateAfter_beyond (Nat.le_of_not_lt inside)] at done
          exact ih done found

theorem NotesTargets.target_noted (notes : NotesTargets emit opened noted place)
    {program : List Instruction} {k : Nat} {s : S} {x : τ}
    (done : stateAfter? emit opened program k = .ok s) (known : noted s = some x) :
    ∃ t m, latestTarget? program k = some t ∧ stateAfter? emit opened program t = .ok m ∧
      x = place m t := by
  cases found : latestTarget? program k with
  | none =>
      rw [(notes.none_iff done).mpr found] at known
      cases known
  | some t =>
      obtain ⟨m, before⟩ := stateAfter_ok_of_le (Nat.le_of_lt (latestTarget_lt found)) done
      rw [notes.latest done found before, Option.some.injEq] at known
      exact ⟨t, m, rfl, before, known.symm⟩

-- Why a compiler stops: for want of a target, or for a distance too far.
theorem NotesTargets.cause (notes : NotesTargets emit opened noted place)
    {program : List Instruction} {k : Nat} {e : Fault}
    (failed : stateAfter? emit opened program k = .error e) :
    ∃ j < k, ∃ mask s, program[j]? = some (.branch mask) ∧
      stateAfter? emit opened program j = .ok s ∧ emit s (.branch mask, j) = .error e ∧
      e = if latestTarget? program j = none then .branchWithoutTarget else .outOfReach := by
  obtain ⟨j, ⟨i, index⟩, m, there, early, stopped⟩ := foldlM_error_at failed
  have inside : j < k := by
    have room := (List.getElem?_eq_some_iff.mp there).1
    simp only [List.length_take] at room
    omega
  rw [List.take_take, Nat.min_eq_left (Nat.le_of_lt inside)] at early
  obtain ⟨mask, rfl, why⟩ := notes.failed stopped
  rw [List.getElem?_take_of_lt inside, List.getElem?_zipIdx] at there
  obtain ⟨_, place, same⟩ := Option.map_eq_some_iff.mp there
  rw [Nat.zero_add] at same
  cases same
  exact ⟨j, inside, mask, m, place, early, stopped,
    by simpa [Option.isNone_iff_eq_none, notes.none_iff early] using why⟩

theorem NotesTargets.missing_iff (notes : NotesTargets emit opened noted place)
    (program : List Instruction) :
    stateAfter? emit opened program program.length = .error .branchWithoutTarget ↔
      ¬ EveryBranchHasTarget program := by
  constructor
  · intro failed all
    obtain ⟨j, _, mask, _, here, _, _, why⟩ := notes.cause failed
    rw [if_neg (all j mask here)] at why
    cases why
  · intro some
    simp only [EveryBranchHasTarget, Classical.not_forall, Classical.not_not] at some
    obtain ⟨b, mask, here, missing⟩ := some
    have stopped : stateAfter? emit opened program (b + 1) = .error .branchWithoutTarget := by
      rw [stateAfter_succ here]
      cases before : stateAfter? emit opened program b with
      | ok s => exact notes.stopped mask ((notes.none_iff before).mpr missing)
      | error e =>
          obtain ⟨j, earlier, _, _, _, _, _, why⟩ := notes.cause before
          rw [if_pos (latestTarget_none_mono missing (Nat.le_of_lt earlier))] at why
          rw [why]
          rfl
    have inside := (List.getElem?_eq_some_iff.mp here).1
    unfold stateAfter? at stopped ⊢
    refine foldlM_error_of_take (k := b + 1) ?_
    rwa [List.take_take, Nat.min_eq_left inside]

theorem NotesTargets.compile_missing (notes : NotesTargets emit opened noted place)
    (program : List Instruction) (close : S → Assembly) :
    (stateAfter? emit opened program program.length >>= fun s => (close s).finish) =
        .error .branchWithoutTarget ↔ ¬ EveryBranchHasTarget program := by
  rw [← notes.missing_iff program]
  cases done : stateAfter? emit opened program program.length with
  | error e => simp [bind, Except.bind]
  | ok s =>
      refine ⟨fun failed => ?_, fun failed => by cases failed⟩
      cases Assembly.finish_error failed

theorem NotesTargets.compiles (notes : NotesTargets emit opened noted place)
    {program : List Instruction} (targeted : EveryBranchHasTarget program)
    (near : ∀ k mask s, program[k]? = some (.branch mask) →
      stateAfter? emit opened program k = .ok s → emit s (.branch mask, k) ≠ .error .outOfReach) :
    ∃ s, stateAfter? emit opened program program.length = .ok s := by
  cases done : stateAfter? emit opened program program.length with
  | ok s => exact ⟨s, rfl⟩
  | error e =>
      obtain ⟨j, _, mask, s, here, early, stopped, why⟩ := notes.cause done
      rw [if_neg (targeted j mask here)] at why
      exact absurd (why ▸ stopped) (near j mask s here early)

end NotingTargets

namespace ScalarCode

def opened : State := ⟨(Assembly.empty 1).emitAll prologue, none⟩

def emitted? (program : List Instruction) (k : Nat) : Except Fault State :=
  stateAfter? (fun s item => emit s item.1) opened program k

theorem compile_emitted (p : Program) :
    compile p = emitted? p.toList p.toList.length >>= fun s =>
      (s.assembly.emitAll epilogue).finish := by
  have numbered : p.toList.foldlM emit opened =
      (p.toList.zipIdx.map Prod.fst).foldlM emit opened := by simp
  unfold emitted? stateAfter?
  rw [List.take_of_length_le (by simp), ← List.foldlM_map, ← numbered]
  rfl

theorem emitBranch_error {a : Assembly} {mask : UInt32} {target : Nat} {fault : Fault}
    (failed : emitBranch a mask target = .error fault) : fault = .outOfReach := by
  unfold emitBranch at failed
  exact Assembly.bindTo_error failed

theorem emit_target {s t : State} {i : Instruction} (done : emit s i = .ok t) :
    t.target = if i = .target then some s.assembly.offset else s.target := by
  cases i with
  | branch mask =>
      simp only [emit] at done
      cases noted : s.target with
      | none => simp [noted] at done
      | some target =>
          rw [noted] at done
          cases jumped : emitBranch s.assembly mask target with
          | error e => simp [jumped, Except.map] at done
          | ok assembly =>
              simp only [jumped, Except.map, Except.ok.injEq] at done
              simp [← done]
  | target => cases done; rfl
  | _ => cases done; rfl

theorem emit_error {s : State} {i : Instruction} {fault : Fault} (failed : emit s i = .error fault) :
    ∃ mask, i = .branch mask ∧
      fault = if s.target.isNone then .branchWithoutTarget else .outOfReach := by
  cases i with
  | branch mask =>
      refine ⟨mask, rfl, ?_⟩
      simp only [emit] at failed
      cases noted : s.target with
      | none => rw [noted] at failed; cases failed; rfl
      | some target =>
          rw [noted] at failed
          cases jumped : emitBranch s.assembly mask target with
          | ok assembly => simp [jumped, Except.map] at failed
          | error e =>
              simp only [jumped, Except.map, Except.error.injEq] at failed
              subst failed
              simpa using emitBranch_error jumped
  | _ => cases failed

theorem notes_targets : NotesTargets (fun s item => emit s item.1) opened State.target
    (fun s _ => s.assembly.offset) where
  atStart := rfl
  emitted := emit_target
  failed := emit_error
  stopped mask none := by simp [emit, none]

theorem compile_missing_target (p : Program) :
    compile p = .error .branchWithoutTarget ↔ ¬ EveryBranchHasTarget p.toList := by
  rw [compile_emitted]
  exact notes_targets.compile_missing p.toList fun s => s.assembly.emitAll epilogue

end ScalarCode

namespace VectorCode

def opened : State := ⟨prologue (.empty 8), none⟩

def emitted? (program : List Instruction) (k : Nat) : Except Fault State :=
  stateAfter? (emit program.toArray) opened program k

theorem compile_emitted (p : Program) :
    compile p = emitted? p.toList p.toList.length >>= fun s =>
      (s.assembly.emitAll epilogue).finish := by
  unfold emitted? stateAfter?
  rw [List.take_of_length_le (by simp)]
  rfl

theorem emitBranch_error {a : Assembly} {mask : UInt32} {body : List Instruction} {fault : Fault}
    (failed : emitBranch a mask body = .error fault) : fault = .outOfReach := by
  unfold emitBranch at failed
  exact Assembly.bindTo_error failed

theorem emit_target {program : Array Instruction} {s t : State} {i : Instruction} {k : Nat}
    (done : emit program s (i, k) = .ok t) :
    t.target = if i = .target then some k else s.target := by
  cases i with
  | branch mask =>
      simp only [emit] at done
      cases noted : s.target with
      | none => simp [noted] at done
      | some target =>
          simp only [noted] at done
          generalize emitBranch s.assembly mask _ = jumped at done
          cases jumped with
          | error e => cases done
          | ok assembly => cases done; rfl
  | target => simp only [emit, Except.ok.injEq] at done; simp [← done]
  | _ => simp only [emit, Except.ok.injEq] at done; simp [← done]

theorem emit_error {program : Array Instruction} {s : State} {i : Instruction} {k : Nat}
    {fault : Fault} (failed : emit program s (i, k) = .error fault) :
    ∃ mask, i = .branch mask ∧
      fault = if s.target.isNone then .branchWithoutTarget else .outOfReach := by
  cases i with
  | branch mask =>
      refine ⟨mask, rfl, ?_⟩
      simp only [emit] at failed
      cases noted : s.target with
      | none => rw [noted] at failed; cases failed; rfl
      | some target =>
          simp only [noted] at failed
          generalize jumped : emitBranch s.assembly mask _ = result at failed
          cases result with
          | ok assembly => cases failed
          | error e =>
              cases failed
              simpa using emitBranch_error jumped
  | _ => simp only [emit] at failed; cases failed

theorem notes_targets (program : Array Instruction) :
    NotesTargets (emit program) opened State.target (fun _ k => k) where
  atStart := rfl
  emitted := emit_target
  failed := emit_error
  stopped mask none := by simp [emit, none]

theorem compile_missing_target (p : Program) :
    compile p = .error .branchWithoutTarget ↔ ¬ EveryBranchHasTarget p.toList := by
  rw [compile_emitted]
  exact (notes_targets p.toList.toArray).compile_missing p.toList fun s =>
    s.assembly.emitAll epilogue

end VectorCode

end ProgramHash
