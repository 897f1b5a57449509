import ProgramHash.Hasher
import ProgramHash.Proofs.Vector.Agreement

-- A batch is run in lanes or nonce by nonce, and neither way may tell. The lanes
-- are compared with going over the nonces by the interpreter: where one comes to
-- digests, so does the other, and to the same.
namespace ProgramHash

section Outcomes

variable {ε δ α β : Type}

namespace Reported

theorem andThen_ok {r : Reported ε α} {next : α → Reported ε β} {b : β} :
    (r.andThen next).2 = .ok b ↔ ∃ a, r.2 = .ok a ∧ (next a).2 = .ok b := by
  obtain ⟨events, result⟩ := r
  cases result <;> simp [andThen]

theorem mapError_ok {r : Reported ε α} {f : ε → δ} {a : α} :
    (r.mapError f).2 = .ok a ↔ r.2 = .ok a := ProgramHash.mapError_ok

end Reported

end Outcomes

def Program.digestOf (p : Program) (key : SipState) (nonce : Word) : Except Fault Word :=
  (p.interpret (.ofNonce key nonce)).map fun file => file.digest key

theorem Program.digestOf_ok {p : Program} {key : SipState} {nonce d : Word} :
    p.digestOf key nonce = .ok d ↔
      ∃ file, p.interpret (.ofNonce key nonce) = .ok file ∧ file.digest key = d := by
  unfold digestOf
  cases p.interpret (.ofNonce key nonce) <;> simp [Except.map]

theorem Program.digestOf_total {p : Program} (targeted : EveryBranchHasTarget p.toList) (key : SipState)
    (nonce : Word) : ∃ d, p.digestOf key nonce = .ok d := by
  obtain ⟨file, interpreted⟩ := interpret_ok targeted (.ofNonce key nonce)
  exact ⟨_, digestOf_ok.mpr ⟨file, interpreted, rfl⟩⟩

structure Answers {ε : Type} (single : Word → Except ε Word) (count : Nat) (first : Word)
    (digests : List Word) : Prop where
  length : digests.length = count
  each : ∀ (i : Nat) (d : Word), digests[i]? = some d → single (.ofNat (first.toNat + i)) = .ok d

namespace Answers

variable {ε δ : Type} {single : Word → Except ε Word} {other : Word → Except δ Word} {count : Nat}
  {first : Word} {ds : List Word}

theorem nth (answers : Answers single count first ds) (i : Nat) (inside : i < count) :
    ∃ d, ds[i]? = some d ∧ single (.ofNat (first.toNat + i)) = .ok d := by
  have here := List.getElem?_eq_getElem (answers.length ▸ inside)
  exact ⟨_, here, answers.each i _ here⟩

theorem mono (implies : ∀ n d, single n = .ok d → other n = .ok d)
    (answers : Answers single count first ds) : Answers other count first ds where
  length := answers.length
  each := fun i d here => implies _ d (answers.each i d here)

theorem congr (same : ∀ n d, single n = .ok d ↔ other n = .ok d) :
    Answers single count first ds ↔ Answers other count first ds :=
  ⟨mono fun n d => (same n d).mp, mono fun n d => (same n d).mpr⟩

theorem total (answered : ∀ n, ∃ d, single n = .ok d) (count : Nat) (first : Word) :
    ∃ ds, Answers single count first ds := by
  obtain ⟨digest, each⟩ := Classical.axiomOfChoice answered
  refine ⟨(List.range count).map fun i => digest (.ofNat (first.toNat + i)), by simp, ?_⟩
  intro i d here
  rw [List.getElem?_map] at here
  obtain ⟨j, there, rfl⟩ := Option.map_eq_some_iff.mp here
  obtain ⟨_, rfl⟩ := List.getElem?_eq_some_iff.mp there
  rw [List.getElem_range]
  exact each _

end Answers

-- What is relied on of a run of code: it comes to what the interpreter comes to,
-- and comes to nothing where the interpreter faults.
def ScalarCode.Runs (code : Array UInt8) (p : Program) : Prop :=
  ∀ file result, run code file = .ok result ↔ p.interpret file = .ok result

def VectorCode.Runs (code : Array UInt8) (p : Program) : Prop :=
  ∀ (files : Bank RegisterFile 8) (result : LaneFile), run code (.ofLanes files) = .ok result ↔
    ∀ l : Fin 8, p.interpret files[l] = .ok (result.lane l)

def Backend.Runs (p : Program) : Backend → Prop
  | .interpreter => True
  | .scalar code => ScalarCode.Runs code p
  | .vector single lanes => ScalarCode.Runs single p ∧ VectorCode.Runs lanes p

theorem VectorCode.Runs.total {code : Array UInt8} {p : Program} (runs : Runs code p)
    {files : Bank RegisterFile 8} (ends : ∀ l : Fin 8, ∃ file, p.interpret files[l] = .ok file) :
    ∃ result, run code (.ofLanes files) = .ok result := by
  obtain ⟨file, interpreted⟩ := Classical.axiomOfChoice ends
  refine ⟨.ofLanes (.ofFn file), (runs _ _).mpr fun l => ?_⟩
  rw [LaneFile.lane_ofLanes, Bank.read_ofFn]
  exact interpreted l

theorem Backend.run_ok {b : Backend} {p : Program} (runs : b.Runs p) {file result : RegisterFile} :
    b.run p file = .ok result ↔ p.interpret file = .ok result := by
  cases b with
  | interpreter => exact mapError_ok
  | scalar code => exact runs file result
  | vector single lanes => exact runs.1 file result

namespace Hasher

variable {h : Hasher}

theorem hash_ok (runs : h.backend.Runs h.program) {nonce d : Word} :
    h.hash nonce = .ok d ↔ h.program.digestOf h.registerKey nonce = .ok d := by
  rw [hash, bind_ok, Program.digestOf_ok]
  constructor
  · rintro ⟨file, ran, done⟩
    exact ⟨file, (Backend.run_ok runs).mp ran, Except.ok.inj done⟩
  · rintro ⟨file, interpreted, rfl⟩
    exact ⟨file, (Backend.run_ok runs).mpr interpreted, rfl⟩

section Lanes

variable {n : Nat} {inputs : Vector Word (n + 1)}

theorem laneFiles_repeat (key : SipState) (inputs : Vector Word (n + 1)) (l : Fin 8) :
    ∃ x, inputs.toList[l.val % (n + 1)]? = some x ∧ (laneFiles key inputs)[l] = .ofNonce key x := by
  have inside : l.val % (n + 1) < inputs.toList.length := by
    rw [Vector.length_toList]
    exact Nat.mod_lt _ (Nat.succ_pos n)
  refine ⟨_, List.getElem?_eq_getElem inside, ?_⟩
  rw [laneFiles, Bank.read_ofFn]
  rfl

theorem laneFiles_first {key : SipState} {l : Fin 8} {x : Word} (here : inputs.toList[l.val]? = some x) :
    (laneFiles key inputs)[l] = .ofNonce key x := by
  have inside : l.val < n + 1 := by simpa using (List.getElem?_eq_some_iff.mp here).1
  obtain ⟨y, there, same⟩ := laneFiles_repeat key inputs l
  rw [Nat.mod_eq_of_lt inside, here] at there
  cases there
  exact same

theorem readBack {f : Fin 8 → Word} {i : Nat} {d : Word}
    (here : (((List.finRange 8).take (n + 1)).map f)[i]? = some d) : ∃ l : Fin 8, l.val = i ∧ f l = d := by
  rw [List.getElem?_map] at here
  obtain ⟨l, there, same⟩ := Option.map_eq_some_iff.mp here
  obtain ⟨_, rfl⟩ := List.getElem?_eq_some_iff.mp there
  exact ⟨_, by simp, same⟩

variable {key : SipState} {p : Program} {single lanes : Array UInt8} {ds : List Word}

theorem lanes_answer (few : n < 8) (runs : VectorCode.Runs lanes p)
    (hashed : (Hasher.mk key p (.vector single lanes)).hashLanes inputs = .ok ds) :
    inputs.toList.mapM (p.digestOf key) = .ok ds := by
  obtain ⟨result, ran, done⟩ := bind_ok.mp hashed
  have interpreted : ∀ l : Fin 8, p.interpret (laneFiles key inputs)[l] = .ok (result.lane l) :=
    (runs _ result).mp ran
  cases done
  refine mapM_ok.mpr ⟨by simp; omega, fun i x d here there => ?_⟩
  obtain ⟨l, rfl, rfl⟩ := readBack there
  exact Program.digestOf_ok.mpr ⟨_, laneFiles_first here ▸ interpreted l, rfl⟩

theorem lanes_ok (few : n < 8) (runs : VectorCode.Runs lanes p) :
    (Hasher.mk key p (.vector single lanes)).hashLanes inputs = .ok ds ↔
      inputs.toList.mapM (p.digestOf key) = .ok ds := by
  refine ⟨lanes_answer few runs, fun digested => ?_⟩
  obtain ⟨length, each⟩ := mapM_ok.mp digested
  have ends (l : Fin 8) : ∃ file, p.interpret (laneFiles key inputs)[l] = .ok file := by
    obtain ⟨x, here, start⟩ := laneFiles_repeat key inputs l
    have inside : l.val % (n + 1) < ds.length := length ▸ (List.getElem?_eq_some_iff.mp here).1
    obtain ⟨file, interpreted, _⟩ :=
      Program.digestOf_ok.mp (each _ x _ here (List.getElem?_eq_getElem inside))
    exact ⟨file, start ▸ interpreted⟩
  obtain ⟨result, ran⟩ := runs.total ends
  -- The run comes to some digests, and going over the inputs comes to no others.
  obtain ⟨es, hashed⟩ : ∃ es, (Hasher.mk key p (.vector single lanes)).hashLanes inputs = .ok es :=
    ⟨_, bind_ok.mpr ⟨result, ran, rfl⟩⟩
  have same : Except.ok es = Except.ok ds := (lanes_answer few runs hashed).symm.trans digested
  rw [hashed, Except.ok.inj same]

theorem hashLanes_ok (few : n < 8) (runs : h.backend.Runs h.program) :
    h.hashLanes inputs = .ok ds ↔ inputs.toList.mapM h.hash = .ok ds := by
  have hashed {x d : Word} := @hash_ok h runs x d
  obtain ⟨key, p, backend⟩ := h
  cases backend with
  | vector single lanes =>
      rw [lanes_ok few runs.2, mapM_ok, mapM_ok]
      simp only [hashed]
  | interpreter | scalar code => exact Iff.rfl

theorem nonces_get {count : Nat} {first : Word} {i : Nat} (inside : i < count) :
    (nonces count first).toList[i]? = some (.ofNat (first.toNat + i)) := by
  simp [nonces, inside]

theorem batch_ok (few : n < 8) (runs : h.backend.Runs h.program) {first : Word} :
    h.hashLanes (nonces (n + 1) first) = .ok ds ↔ Answers h.hash (n + 1) first ds := by
  rw [hashLanes_ok few runs, mapM_ok, Vector.length_toList]
  constructor
  · rintro ⟨length, each⟩
    refine ⟨length, fun i d there => each i _ d (nonces_get ?_) there⟩
    rw [← length]
    exact (List.getElem?_eq_some_iff.mp there).1
  · rintro ⟨length, each⟩
    refine ⟨length, fun i x d here there => ?_⟩
    have inside : i < n + 1 := by simpa using (List.getElem?_eq_some_iff.mp here).1
    rw [nonces_get inside] at here
    cases here
    exact each i d there

end Lanes

end Hasher

end ProgramHash
