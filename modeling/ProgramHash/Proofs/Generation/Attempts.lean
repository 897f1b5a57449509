import ProgramHash.Hasher
import ProgramHash.Proofs.Generation.Completion
import ProgramHash.Proofs.Generation.Limits

namespace ProgramHash

namespace Draft

variable {σ : Type} [Draw σ]

theorem verdict_fresh (draws : σ) (limit : Nat) :
    ((Generator.fresh draws).draft limit).verdict =
      if ((Generator.fresh draws).draft limit).ending = .unended then .unended else .accepted := by
  rcases Generator.draft_ended draws limit with stopped | ⟨ended, length, finished⟩
  · rw [if_pos stopped, verdict, stopped]
  · rw [if_neg (by simp [ended])]
    exact finished.accepted ended length

end Draft

namespace Program

theorem generateFrom_succ (key : SipState) (limit attempts salt : Nat) :
    generateFrom key limit (attempts + 1) salt = generateFrom key limit 1 salt := by
  have verdict := Draft.verdict_fresh (CounterStream.ofSalt key (UInt32.ofNat salt)) limit
  unfold generateFrom
  split at verdict
  · simp only [verdict]
  · simp only [verdict]

theorem generateFrom_ended {key : SipState} {limit attempts salt : Nat} (allowed : 0 < attempts)
    (ended : ((Generator.fresh (CounterStream.ofSalt key (UInt32.ofNat salt))).draft limit).ending ≠
      .unended) :
    (generateFrom key limit attempts salt).2 = .ok (ofList
      ((Generator.fresh (CounterStream.ofSalt key (UInt32.ofNat salt))).draft limit).program) := by
  obtain ⟨left, rfl⟩ := Nat.exists_eq_add_of_le' allowed
  have verdict := Draft.verdict_fresh (CounterStream.ofSalt key (UInt32.ofNat salt)) limit
  rw [if_neg ended] at verdict
  unfold generateFrom
  simp only [verdict]

theorem generate_ended {key : SipState} {attempts : Nat} (allowed : 0 < attempts)
    (ended : ((Generator.fresh (CounterStream.ofSalt key 0)).draft drawLimit).ending ≠ .unended) :
    (generate key attempts).2 =
      .ok (ofList ((Generator.fresh (CounterStream.ofSalt key 0)).draft drawLimit).program) :=
  generateFrom_ended allowed ended

theorem generateFrom_exhausted {key : SipState} {limit attempts salt : Nat} :
    (generateFrom key limit attempts salt).2 = .error .everyAttemptRejected ↔ attempts = 0 := by
  constructor
  · intro exhausted
    cases attempts with
    | zero => rfl
    | succ attempts =>
        have verdict := Draft.verdict_fresh (CounterStream.ofSalt key (UInt32.ofNat salt)) limit
        unfold generateFrom at exhausted
        split at verdict
        · simp [verdict] at exhausted
        · simp [verdict] at exhausted
  · rintro rfl
    rfl

theorem generate_succ (key : SipState) (attempts : Nat) :
    generate key (attempts + 1) = generate key 1 := generateFrom_succ key drawLimit attempts 0

end Program

-- Where the loops end, generation meets every total at the first attempt, and so
-- the number of attempts changes neither the program nor the hash function.
theorem generation_never_rejected :
    (∀ (σ : Type) [Draw σ] (draws : σ) (limit : Nat),
      let d := (Generator.fresh draws).draft limit
      d.ending ≠ .unended →
        (∀ more, limit ≤ more → (Generator.fresh draws).draft more = d) ∧
        d.generator.stalls = #[] ∧ d.verdict = .accepted ∧ d.program.length = 512 ∧
        d.generator.schedule.latency = 194 ∧ d.generator.ledger.multiplies = 192) ∧
    (∀ (key : SipState) (limit attempts : Nat),
      let d := (Generator.fresh (CounterStream.ofSalt key 0)).draft limit
      d.ending ≠ .unended → 0 < attempts →
        (Program.generateFrom key limit attempts 0).2 = .ok (.ofList d.program)) ∧
    (∀ (key : SipState) (attempts : Nat),
      let d := (Generator.fresh (CounterStream.ofSalt key 0)).draft drawLimit
      d.ending ≠ .unended → 0 < attempts →
        (Program.generate key attempts).2 = .ok (.ofList d.program)) ∧
    (∀ (host : Host) (runtime : Runtime) (keys : KeyPair) (attempts : Nat), 0 < attempts →
      Hasher.build host ⟨runtime, attempts⟩ keys = Hasher.build host ⟨runtime, 1⟩ keys) ∧
    ∀ (key : SipState) (limit attempts salt : Nat),
      (Program.generateFrom key limit attempts salt).2 = .error .everyAttemptRejected ↔
        attempts = 0 := by
  refine ⟨?_, ?_, fun key attempts ended allowed => Program.generate_ended allowed ended, ?_,
    fun key limit attempts salt => Program.generateFrom_exhausted⟩
  · intro σ _ draws limit d ended
    rcases Generator.draft_ended draws limit with stopped | ⟨last, length, finished⟩
    · exact absurd stopped ended
    · exact ⟨fun more larger => Generator.draft_extends _ larger ended, finished.stalls,
        finished.accepted last length, (List.length_map _).trans length, finished.latency,
        finished.multiplies⟩
  · intro key limit attempts d ended allowed
    exact Program.generateFrom_ended allowed ended
  · intro host runtime keys attempts allowed
    obtain ⟨left, rfl⟩ := Nat.exists_eq_add_of_le' allowed
    simp only [Hasher.build, Program.generate_succ]

-- Bytes in turn, so that every opcode and every bit comes up, and halves that are
-- never zero under a mask: each loop ends within four draws.
structure Sweep where
  place : Fin 32
  deriving DecidableEq

namespace Sweep

instance : Draw Sweep := ⟨fun s => (UInt8.ofNat s.place.val, ⟨s.place + 1⟩), fun s => (1, s)⟩

theorem opcode_ends : ∀ c ∈ [OpcodeClass.target, .branch, .mul, .wideMul, .normal, .immediate],
    ∀ last ∈ none :: Opcode.all.map some, ∀ place : Fin 32,
      Draw.repeatUntil c.draw (fun op => if op.mayFollow last then some op else none) 4
        (⟨place⟩ : Sweep) ≠ none := by decide +kernel

theorem branch_ends : ∀ place : Fin 32, branchMask 4 0 (⟨place⟩ : Sweep) ≠ none := by
  decide +kernel

theorem everyLoopEnds : EveryLoopEnds Sweep 4 where
  opcode := by
    rintro c last ⟨place⟩
    refine opcode_ends c ?_ last ?_ place
    · cases c <;> decide
    · cases last with
      | none => decide
      | some op => cases op <;> decide
  constant := by
    rintro mask (rfl | rfl) s
    · exact Option.some_ne_none _
    · exact Option.some_ne_none _
  branch := fun s => branch_ends s.place

theorem draft_ends : ((Generator.fresh (⟨0⟩ : Sweep)).draft 4).ending ≠ .unended :=
  Generator.run_ne_unended _ everyLoopEnds _

end Sweep

theorem sweep_never_rejected :
    ((Generator.fresh (⟨0⟩ : Sweep)).draft 4).ending ≠ .unended ∧
      ((Generator.fresh (⟨0⟩ : Sweep)).draft 4).verdict = .accepted ∧
      ∃ p, (Program.generate ⟨0, 0, 0, 0⟩ 1).2 = .ok p ∧ (Program.generate ⟨0, 0, 0, 0⟩ 16).2 = .ok p := by
  obtain ⟨drafts, _, generates, _⟩ := generation_never_rejected
  obtain ⟨_, _, accepted, _⟩ := drafts Sweep ⟨0⟩ 4 Sweep.draft_ends
  have drawn (attempts : Nat) := generates ⟨0, 0, 0, 0⟩ attempts Generator.zeroKey_ends
  exact ⟨Sweep.draft_ends, accepted, _, drawn 1 (by decide), drawn 16 (by decide)⟩

end ProgramHash
