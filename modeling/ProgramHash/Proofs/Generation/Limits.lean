import ProgramHash.Program

-- The loops of rejected draws have no limit of their own. Once they have ended
-- under some limit, a larger one changes nothing, so that what is shown of ended
-- runs is shown of the loops without any limit.
namespace ProgramHash

namespace Draw

variable {σ α β : Type}

theorem repeatUntil_mono {draw : σ → α × σ} {accept : α → Option β} {limit more : Nat} {s rest : σ}
    {b : β} (larger : limit ≤ more) (ended : repeatUntil draw accept limit s = some (b, rest)) :
    repeatUntil draw accept more s = some (b, rest) := by
  induction limit generalizing s more with
  | zero => cases ended
  | succ limit ih =>
      obtain ⟨more, rfl⟩ := Nat.exists_eq_add_of_le' (Nat.le_trans (Nat.succ_pos limit) larger)
      simp only [repeatUntil] at ended ⊢
      split at ended
      · exact ended
      · exact ih (Nat.le_of_succ_le_succ larger) ended

end Draw

theorem branchMask_mono {σ : Type} [Draw σ] {limit more : Nat} {mask : UInt32} {s : σ}
    {result : UInt32 × σ} (larger : limit ≤ more) (ended : branchMask limit mask s = some result) :
    branchMask more mask s = some result := by
  induction limit generalizing s mask more with
  | zero =>
      unfold branchMask at ended ⊢
      split at ended
      · rename_i enough
        rw [if_pos enough, ended]
      · cases ended
  | succ limit ih =>
      obtain ⟨more, rfl⟩ := Nat.exists_eq_add_of_le' (Nat.le_trans (Nat.succ_pos limit) larger)
      unfold branchMask at ended ⊢
      split at ended
      · rename_i enough
        rw [if_pos enough, ended]
      · rename_i few
        rw [if_neg few]
        exact ih (Nat.le_of_succ_le_succ larger) ended

namespace Choice

variable {σ α β : Type}

-- The second choice is the first one, unless that did not end.
def Extends (c d : Choice σ α) : Prop := c ≠ .unended → d = c

theorem Extends.refl (c : Choice σ α) : c.Extends c := fun _ => rfl

theorem Extends.andThen {c d : Choice σ α} {next more : α → σ → Choice σ β} (first : c.Extends d)
    (second : ∀ a s, (next a s).Extends (more a s)) : (c.andThen next).Extends (d.andThen more) := by
  intro ended
  cases c with
  | unended => exact absurd rfl ended
  | refused s => rw [first (by simp)]; rfl
  | made a s =>
      rw [first (by simp)]
      exact second a s ended

theorem ofLoop_extends {first second : Option (α × σ)}
    (same : ∀ result, first = some result → second = some result) :
    (ofLoop first).Extends (ofLoop second) := by
  intro ended
  cases first with
  | none => exact absurd rfl ended
  | some result => rw [same result rfl]

theorem andThen_unended {c : Choice σ α} {next : α → σ → Choice σ β}
    (unended : c.andThen next = .unended) : c = .unended ∨ ∃ a s, next a s = .unended := by
  cases c with
  | made a s => exact .inr ⟨a, s, unended⟩
  | refused s => cases unended
  | unended => exact .inl rfl

theorem ofLoop_unended {result : Option (α × σ)} (unended : ofLoop result = .unended) :
    result = none := by
  cases result with
  | none => rfl
  | some pair => cases unended

theorem register_ne_unended [Draw σ] (options : RegisterSet) (s : σ) :
    register options s ≠ .unended := by
  unfold register
  split <;> simp

theorem register_andThen_ne_unended [Draw σ] (options : RegisterSet) {next : Register → σ → Choice σ α}
    (ends : ∀ r t, next r t ≠ .unended) (s : σ) : (register options s).andThen next ≠ .unended := by
  intro unended
  rcases andThen_unended unended with chosen | ⟨r, t, followed⟩
  · exact register_ne_unended options s chosen
  · exact ends r t followed

end Choice

structure EveryLoopEnds (σ : Type) [Draw σ] (limit : Nat) : Prop where
  opcode : ∀ (c : OpcodeClass) (last : Option Opcode) (s : σ),
    Draw.repeatUntil c.draw (fun op => if op.mayFollow last then some op else none) limit s ≠ none
  constant : ∀ mask : UInt32, mask = 0xffffffff ∨ mask = 63 → ∀ s : σ,
    Draw.nonzero limit mask s ≠ none
  branch : ∀ s : σ, branchMask limit 0 s ≠ none

section Passes

variable {σ : Type} [Draw σ] {limit more : Nat}

theorem Opening.constantOperands_extends (o : Opening) (larger : limit ≤ more) (group : WriterGroup)
    (mask : UInt32) (s : σ) :
    (o.constantOperands limit group mask s).Extends (o.constantOperands more group mask s) :=
  (Choice.ofLoop_extends fun _ => Draw.repeatUntil_mono larger).andThen fun _ _ => .refl _

theorem Opening.instruction_extends (o : Opening) (larger : limit ≤ more) (s : σ) :
    (o.instruction limit s).Extends (o.instruction more s) := by
  unfold instruction
  split
  case h_2 =>
    exact (Choice.ofLoop_extends fun _ => branchMask_mono larger).andThen fun _ _ => .refl _
  case h_9 | h_10 | h_11 =>
    exact (o.constantOperands_extends larger _ _ s).andThen fun _ _ => .refl _
  all_goals exact .refl _

theorem Opening.destination_ne_unended {α : Type} (o : Opening) (w : Writer) (src : Option Register)
    (result : Register → α) (s : σ) :
    ((o.destination w src s).andThen fun d s => .made (result d) s) ≠ .unended :=
  Choice.register_andThen_ne_unended _ nofun s

theorem Opening.registers_ne_unended (o : Opening) (writer : Register → Writer) (s : σ) :
    o.registers writer s ≠ .unended :=
  Choice.register_andThen_ne_unended _ (fun _ => o.destination_ne_unended _ _ _) s

theorem Opening.constantOperands_ne_unended (o : Opening) (ends : EveryLoopEnds σ limit)
    (group : WriterGroup) {mask : UInt32} (drawn : mask = 0xffffffff ∨ mask = 63) (s : σ) :
    o.constantOperands limit group mask s ≠ .unended := by
  intro unended
  rcases Choice.andThen_unended unended with loop | ⟨k, t, unended⟩
  · exact ends.constant mask drawn s (Choice.ofLoop_unended loop)
  · exact o.destination_ne_unended _ _ _ t unended

theorem Opening.instruction_ne_unended (o : Opening) (ends : EveryLoopEnds σ limit) (s : σ) :
    o.instruction limit s ≠ .unended := by
  unfold instruction
  intro unended
  split at unended
  case h_1 => cases unended
  case h_2 =>
    rcases Choice.andThen_unended unended with loop | ⟨_, _, unended⟩
    · exact ends.branch s (Choice.ofLoop_unended loop)
    · cases unended
  case h_9 | h_10 | h_11 =>
    rcases Choice.andThen_unended unended with operands | ⟨_, _, unended⟩
    · exact o.constantOperands_ne_unended ends _ (by simp) _ operands
    · cases unended
  all_goals
    rcases Choice.andThen_unended unended with operands | ⟨_, _, unended⟩
    · exact o.registers_ne_unended _ _ operands
    · cases unended

namespace Generator

theorem attempt_extends (g : Generator σ) (larger : limit ≤ more) (pass : Pass) :
    (g.attempt limit pass).Extends (g.attempt more pass) := by
  intro ended
  cases drawn : g.drawOpcode limit pass with
  | none => simp [attempt, drawn] at ended
  | some result =>
      obtain ⟨op, draws⟩ := result
      have redrawn : g.drawOpcode more pass = some (op, draws) := Draw.repeatUntil_mono larger drawn
      simp only [attempt, drawn, redrawn] at ended ⊢
      cases planned : g.schedule.plan? op with
      | none => rfl
      | some slot =>
          simp only [planned] at ended ⊢
          rw [Opening.instruction_extends _ larger draws]
          intro unended
          simp [unended] at ended

theorem next_eq (g : Generator σ) (limit : Nat) :
    g.next limit = match g.attempt limit .first with
      | .unended => .unended
      | .made issue h => .made issue h
      | .refused h =>
          match h.attempt limit .retry with
          | .unended => .unended
          | .made issue k => .made issue k
          | .refused k =>
              match k.schedule.stall? with
              | none => .refused k.noteStall
              | some schedule => next { k.noteStall with schedule } limit := by
  rw [next]
  split
  · rename_i first; rw [first]
  · rename_i first; rw [first]
  · rename_i first
    rw [first]
    split
    · rename_i second; simp only [second]
    · rename_i second; simp only [second]
    · rename_i second
      simp only [second]
      split
      · rename_i moved; simp only [moved]
      · rename_i moved; simp only [moved]

theorem next_extends (g : Generator σ) (larger : limit ≤ more) :
    (g.next limit).Extends (g.next more) := by
  have again {g : Generator σ} {pass : Pass} {c : Choice (Generator σ) Issue}
      (attempted : g.attempt limit pass = c) (ended : c ≠ .unended) : g.attempt more pass = c := by
    subst attempted
    exact g.attempt_extends larger pass ended
  intro ended
  fun_induction g.next limit with
  | case1 => exact absurd rfl ended
  | case2 _ _ _ first => rw [next_eq, again first (by simp)]
  | case3 => exact absurd rfl ended
  | case4 _ _ first _ _ second =>
      rw [next_eq, again first (by simp)]
      simp only [again second (by simp)]
  | case5 _ _ first _ second moved =>
      rw [next_eq, again first (by simp)]
      simp only [again second (by simp), moved]
  | case6 _ _ first _ second _ moved ih =>
      rw [next_eq, again first (by simp)]
      simp only [again second (by simp), moved]
      exact ih ended

theorem run_extends (g : Generator σ) (larger : limit ≤ more) (room : Nat)
    (ended : (g.run limit room).ending ≠ .unended) : g.run more room = g.run limit room := by
  induction room generalizing g with
  | zero => rfl
  | succ room ih =>
      unfold run at ended ⊢
      cases stepped : g.next limit with
      | unended => simp [stepped] at ended
      | refused h => rw [g.next_extends larger (by simp [stepped]), stepped]
      | made issue h =>
          rw [g.next_extends larger (by simp [stepped]), stepped]
          simp only [stepped] at ended ⊢
          split
          · rfl
          · rfl
          · rename_i k passed
            simp only [passed] at ended
            rw [ih k ended]

theorem draft_extends (g : Generator σ) (larger : limit ≤ more)
    (ended : (g.draft limit).ending ≠ .unended) : g.draft more = g.draft limit :=
  g.run_extends larger _ ended

theorem attempt_ne_unended (g : Generator σ) (ends : EveryLoopEnds σ limit) (pass : Pass) :
    g.attempt limit pass ≠ .unended := by
  intro unended
  unfold attempt at unended
  split at unended
  · rename_i missing
    exact ends.opcode _ _ _ missing
  · split at unended
    · cases unended
    · split at unended
      · rename_i loop
        exact Opening.instruction_ne_unended _ ends _ loop
      · cases unended
      · cases unended

theorem next_ne_unended (g : Generator σ) (ends : EveryLoopEnds σ limit) :
    g.next limit ≠ .unended := by
  fun_induction g.next limit with
  | case1 _ first => exact absurd first (attempt_ne_unended _ ends _)
  | case2 => simp
  | case3 _ _ _ second => exact absurd second (attempt_ne_unended _ ends _)
  | case4 => simp
  | case5 => simp
  | case6 _ _ _ _ _ _ _ ih => exact ih

theorem run_ne_unended (g : Generator σ) (ends : EveryLoopEnds σ limit) (room : Nat) :
    (g.run limit room).ending ≠ .unended := by
  induction room generalizing g with
  | zero => simp [run]
  | succ room ih =>
      unfold run
      split
      · rename_i stopped
        exact absurd stopped (g.next_ne_unended ends)
      · simp
      · split
        · simp
        · simp
        · exact ih _

end Generator

end Passes

-- Under the zero key no loop takes more than 64 draws.
theorem Generator.zeroKey_ends :
    ((fresh (CounterStream.ofSalt ⟨0, 0, 0, 0⟩ 0)).draft drawLimit).ending ≠ .unended := by
  have ended : ((fresh (CounterStream.ofSalt ⟨0, 0, 0, 0⟩ 0)).draft 64).ending ≠ .unended := by
    decide +kernel
  rw [draft_extends _ (by decide) ended]
  exact ended

end ProgramHash
