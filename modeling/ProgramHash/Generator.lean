import ProgramHash.OperandChoice

namespace ProgramHash

structure Issue where
  instruction : Instruction
  writer : Writer
  slot : Slot
  pass : Pass
  deriving DecidableEq, Repr

-- The opcode drawn last counts for the next draw even when nothing came of it.
-- The cycles at which the cursor was stalled are kept in order.
structure Generator (σ : Type) where
  draws : σ
  schedule : Schedule
  ledger : Ledger
  lastDrawn : Option Opcode
  stalls : Array Nat

namespace Generator

variable {σ : Type} [Draw σ]

def fresh (draws : σ) : Generator σ := ⟨draws, .initial, .initial, none, #[]⟩

def drawOpcode (g : Generator σ) (limit : Nat) (pass : Pass) : Option (Opcode × σ) :=
  Draw.repeatUntil (OpcodeClass.ofCursor g.schedule.cursor pass).draw
    (fun op => if op.mayFollow g.lastDrawn then some op else none) limit g.draws

def attempt (g : Generator σ) (limit : Nat) (pass : Pass) : Choice (Generator σ) Issue :=
  match g.drawOpcode limit pass with
  | none => .unended
  | some (op, draws) =>
      match g.schedule.plan? op with
      | none => .refused { g with draws, lastDrawn := some op }
      | some slot =>
          match Opening.instruction ⟨g.schedule, g.ledger, op, pass, slot⟩ limit draws with
          | .unended => .unended
          | .refused draws => .refused { g with draws, lastDrawn := some op }
          | .made (i, w) draws =>
              .made ⟨i, w, slot, pass⟩
                { g with draws, lastDrawn := some op, schedule := g.schedule.book slot i }

theorem attempt_refused {g h : Generator σ} {limit : Nat} {pass : Pass}
    (refused : g.attempt limit pass = .refused h) :
    h.schedule = g.schedule ∧ h.ledger = g.ledger ∧ h.stalls = g.stalls := by
  unfold attempt at refused
  split at refused
  · cases refused
  · split at refused
    · cases refused; exact ⟨rfl, rfl, rfl⟩
    · split at refused
      · cases refused
      · cases refused; exact ⟨rfl, rfl, rfl⟩
      · cases refused

def noteStall (g : Generator σ) : Generator σ :=
  { g with stalls := g.stalls.push g.schedule.cycle }

set_option linter.unusedVariables false in
-- Both passes, then a stall and both passes again, until one succeeds or the
-- cursor has nowhere to go.
def next (g : Generator σ) (limit : Nat) : Choice (Generator σ) Issue :=
  match first : g.attempt limit .first with
  | .unended => .unended
  | .made issue h => .made issue h
  | .refused h =>
      match second : h.attempt limit .retry with
      | .unended => .unended
      | .made issue k => .made issue k
      | .refused k =>
          match moved : k.schedule.stall? with
          | none => .refused k.noteStall
          | some schedule => next { k.noteStall with schedule } limit
termination_by 576 - g.schedule.cursor
decreasing_by
  have one := (attempt_refused first).1
  have two := (attempt_refused second).1
  obtain ⟨_, rfl⟩ := Schedule.stall_some moved
  have room := k.schedule.cursor_lt
  simp only [two, one] at room ⊢
  omega

def commit (g : Generator σ) (issue : Issue) : Except Fault (Generator σ × Bool) := do
  let recorded ← g.ledger.record issue.instruction issue.writer
  let ledger := if issue.instruction = .target then recorded.forget else recorded
  match g.schedule.pass? issue.instruction.opcode with
  | some schedule => return ({ g with ledger, schedule }, true)
  | none => return ({ g with ledger }, false)

end Generator

inductive Ending where
  | full
  | outOfRoom
  | unended
  | faulted (fault : Fault)
  deriving DecidableEq, Repr

structure Draft (σ : Type) where
  issues : List Issue
  ending : Ending
  generator : Generator σ

def Draft.program {σ : Type} (d : Draft σ) : List Instruction := d.issues.map Issue.instruction

namespace Generator

variable {σ : Type} [Draw σ]

def run (g : Generator σ) (limit : Nat) : Nat → Draft σ
  | 0 => ⟨[], .full, g⟩
  | room + 1 =>
      match g.next limit with
      | .unended => ⟨[], .unended, g⟩
      | .refused h => ⟨[], .outOfRoom, h⟩
      | .made issue h =>
          match h.commit issue with
          | .error fault => ⟨[issue], .faulted fault, h⟩
          | .ok (k, false) => ⟨[issue], .outOfRoom, k⟩
          | .ok (k, true) =>
              let rest := run k limit room
              { rest with issues := issue :: rest.issues }

def draft (g : Generator σ) (limit : Nat) : Draft σ := g.run limit Ledger.programSize

end Generator

inductive Verdict where
  | accepted
  | rejected (violation : Violation)
  | unended
  | faulted (fault : Fault)
  deriving DecidableEq, Repr

namespace Draft

variable {σ : Type}

def verdict (d : Draft σ) : Verdict :=
  match d.ending with
  | .unended => .unended
  | .faulted fault => .faulted fault
  | .full | .outOfRoom =>
      match d.generator.ledger.violation? d.generator.schedule d.issues.length with
      | some violation => .rejected violation
      | none => .accepted

end Draft

end ProgramHash
