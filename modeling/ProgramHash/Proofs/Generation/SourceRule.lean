import ProgramHash.Proofs.Generation.Stalls

-- Generation under another rule for sources: the same steps with one function
-- exchanged. A run asks the rule at the passes it tries and nowhere else, so that two
-- rules which agree there lead to the same program.
namespace ProgramHash

abbrev SourceRule : Type := RegisterSet → Opcode → RegisterSet

def SourceRule.none : SourceRule := fun ready _ => ready

namespace Opening

variable {σ : Type} [Draw σ]

def sourceUnder (rule : SourceRule) (o : Opening) (s : σ) : Choice σ Register :=
  Choice.register (rule o.available o.op) s

def registersUnder (rule : SourceRule) (o : Opening) (writer : Register → Writer) (s : σ) :
    Choice σ (Register × Register × Writer) :=
  (o.sourceUnder rule s).andThen fun src s =>
    (o.destination (writer src) (some src) s).andThen fun dst s => .made (dst, src, writer src) s

def operandsUnder (rule : SourceRule) (o : Opening) (group : WriterGroup) (s : σ) :
    Choice σ (Register × Register × Writer) :=
  o.registersUnder rule (.withSource group) s

def wideOperandsUnder (rule : SourceRule) (o : Opening) (group : WriterGroup) (s : σ) :
    Choice σ (Register × Register × Writer) :=
  let (tag, s) := Draw.half s
  o.registersUnder rule (fun _ => ⟨group, tag⟩) s

def instructionUnder (rule : SourceRule) (o : Opening) (limit : Nat) (s : σ) :
    Choice σ (Instruction × Writer) :=
  match o.op with
  | .umulh =>
      (o.wideOperandsUnder rule .umulh s).andThen fun (dst, src, w) s => .made (.umulh dst src, w) s
  | .smulh =>
      (o.wideOperandsUnder rule .smulh s).andThen fun (dst, src, w) s => .made (.smulh dst src, w) s
  | .mul => (o.operandsUnder rule .mul s).andThen fun (dst, src, w) s => .made (.mul dst src, w) s
  | .sub => (o.operandsUnder rule .addSub s).andThen fun (dst, src, w) s => .made (.sub dst src, w) s
  | .xor => (o.operandsUnder rule .xor s).andThen fun (dst, src, w) s => .made (.xor dst src, w) s
  | .addShift =>
      let (h, s) := Draw.half s
      (o.operandsUnder rule .addSub s).andThen fun (dst, src, w) s =>
        .made (.addShift dst src (h &&& 3).toUInt8, w) s
  | .target | .branch | .addConst | .xorConst | .rotate => o.instruction limit s

theorem instructionUnder_congr {rule : SourceRule} {o : Opening}
    (agrees : rule o.available o.op = o.available.sourcesFor o.op) (limit : Nat) (s : σ) :
    o.instructionUnder rule limit s = o.instruction limit s := by
  have source : o.sourceUnder rule = o.source (σ := σ) := funext fun s => by
    rw [sourceUnder, source, agrees]
  have registers : o.registersUnder rule = o.registers (σ := σ) := by
    funext writer s
    rw [registersUnder, registers, source]
  cases op : o.op <;> simp only [instructionUnder, instruction, op, operandsUnder, operands,
    wideOperandsUnder, wideOperands, registers]

end Opening

namespace Generator

variable {σ : Type} [Draw σ] {rule : SourceRule} {limit : Nat} {g h k : Generator σ}

def attemptUnder (rule : SourceRule) (g : Generator σ) (limit : Nat) (pass : Pass) :
    Choice (Generator σ) Issue :=
  match g.drawOpcode limit pass with
  | none => .unended
  | some (op, draws) =>
      match g.schedule.plan? op with
      | none => .refused { g with draws, lastDrawn := some op }
      | some slot =>
          match Opening.instructionUnder rule ⟨g.schedule, g.ledger, op, pass, slot⟩ limit draws with
          | .unended => .unended
          | .refused draws => .refused { g with draws, lastDrawn := some op }
          | .made (i, w) draws =>
              .made ⟨i, w, slot, pass⟩
                { g with draws, lastDrawn := some op, schedule := g.schedule.book slot i }

theorem attemptUnder_refused {pass : Pass} (refused : g.attemptUnder rule limit pass = .refused h) :
    h.schedule = g.schedule := by
  unfold attemptUnder at refused
  split at refused
  · cases refused
  · split at refused
    · cases refused; rfl
    · split at refused
      · cases refused
      · cases refused; rfl
      · cases refused

set_option linter.unusedVariables false in
def nextUnder (rule : SourceRule) (g : Generator σ) (limit : Nat) : Choice (Generator σ) Issue :=
  match first : g.attemptUnder rule limit .first with
  | .unended => .unended
  | .made issue h => .made issue h
  | .refused h =>
      match second : h.attemptUnder rule limit .retry with
      | .unended => .unended
      | .made issue k => .made issue k
      | .refused k =>
          match moved : k.schedule.stall? with
          | none => .refused k.noteStall
          | some schedule => nextUnder rule { k.noteStall with schedule } limit
termination_by 576 - g.schedule.cursor
decreasing_by
  have one := attemptUnder_refused first
  have two := attemptUnder_refused second
  obtain ⟨_, rfl⟩ := Schedule.stall_some moved
  have room := k.schedule.cursor_lt
  simp only [two, one] at room ⊢
  omega

def runUnder (rule : SourceRule) (g : Generator σ) (limit : Nat) : Nat → Draft σ
  | 0 => ⟨[], .full, g⟩
  | room + 1 =>
      match g.nextUnder rule limit with
      | .unended => ⟨[], .unended, g⟩
      | .refused h => ⟨[], .outOfRoom, h⟩
      | .made issue h =>
          match h.commit issue with
          | .error fault => ⟨[issue], .faulted fault, h⟩
          | .ok (k, false) => ⟨[issue], .outOfRoom, k⟩
          | .ok (k, true) =>
              let rest := runUnder rule k limit room
              { rest with issues := issue :: rest.issues }

def draftUnder (rule : SourceRule) (g : Generator σ) (limit : Nat) : Draft σ :=
  g.runUnder rule limit Ledger.programSize

end Generator

def Program.generateUnder (rule : SourceRule) (key : SipState) (limit : Nat) : Nat → Nat →
    List Event × Except GenerationError Program
  | 0, _ => ([], .error .everyAttemptRejected)
  | attempts + 1, salt =>
      let d := (Generator.fresh (CounterStream.ofSalt key (UInt32.ofNat salt))).draftUnder rule limit
      match d.verdict with
      | .accepted => (d.events ++ [.generated salt], .ok (ofList d.program))
      | .unended => (d.events, .error .unended)
      | .faulted fault => (d.events, .error (.faulted fault))
      | .rejected violation =>
          let (events, result) := generateUnder rule key limit attempts (salt + 1)
          (d.events ++ .rejected violation salt :: events, result)

namespace Generator

variable {σ : Type} [Draw σ] {rule : SourceRule} {limit : Nat} {g h k : Generator σ} {pass : Pass}

-- The passes of one step, each with the generator it is tried on: where the stalls
-- have led to so far and, the first pass being refused there, what it leaves.
inductive Tries (limit : Nat) (g : Generator σ) : Pass → Generator σ → Prop where
  | first {cycles : List Nat} {k : Generator σ} : Stalled limit g cycles k → Tries limit g .first k
  | retry {cycles : List Nat} {k h : Generator σ} :
      Stalled limit g cycles k → k.attempt limit .first = .refused h → Tries limit g .retry h

def RunTries (limit : Nat) (start : Generator σ) (pass : Pass) (g : Generator σ) : Prop :=
  ∃ issues h, Reached limit start issues h ∧ Tries limit h pass g

theorem RunTries.prepend {issue : Issue} (first : g.next limit = .made issue h)
    (passed : h.commit issue = .ok (k, true)) {l : Generator σ} (tried : RunTries limit k pass l) :
    RunTries limit g pass l := by
  obtain ⟨issues, m, reached, tries⟩ := tried
  exact ⟨issue :: issues, m, reached.prepend first passed, tries⟩

theorem RunTries.retry (tried : RunTries limit g .first h) (refused : h.attempt limit .first = .refused k) :
    RunTries limit g .retry k := by
  obtain ⟨issues, m, reached, tries⟩ := tried
  cases tries with
  | first stalled => exact ⟨issues, m, reached, .retry stalled refused⟩

def Agrees (rule : SourceRule) (limit : Nat) (pass : Pass) (g : Generator σ) : Prop :=
  ∀ op draws slot, g.drawOpcode limit pass = some (op, draws) → g.schedule.plan? op = some slot →
    rule (g.schedule.readyAt slot.cycle) op = (g.schedule.readyAt slot.cycle).sourcesFor op

theorem attemptUnder_congr (agrees : Agrees rule limit pass g) :
    g.attemptUnder rule limit pass = g.attempt limit pass := by
  unfold attemptUnder attempt
  cases drawn : g.drawOpcode limit pass with
  | none => rfl
  | some result =>
      obtain ⟨op, draws⟩ := result
      cases planned : g.schedule.plan? op with
      | none => simp only [planned]
      | some slot =>
          have same := Opening.instructionUnder_congr (o := ⟨g.schedule, g.ledger, op, pass, slot⟩)
            (agrees op draws slot drawn planned) limit draws
          rcases chosen : Opening.instruction ⟨g.schedule, g.ledger, op, pass, slot⟩ limit draws with
            ⟨i, w⟩ | rest | _ <;> simp only [planned, same, chosen]

theorem nextUnder_eq (rule : SourceRule) (g : Generator σ) (limit : Nat) :
    g.nextUnder rule limit = match g.attemptUnder rule limit .first with
      | .unended => .unended
      | .made issue h => .made issue h
      | .refused h =>
          match h.attemptUnder rule limit .retry with
          | .unended => .unended
          | .made issue k => .made issue k
          | .refused k =>
              match k.schedule.stall? with
              | none => .refused k.noteStall
              | some schedule => nextUnder rule { k.noteStall with schedule } limit := by
  rw [nextUnder]
  split
  · rename_i first; rw [first]
  · rename_i first; rw [first]
  · rename_i first
    rw [first]
    split
    · rename_i second; simp only [second]
    · rename_i second; simp only [second]
    · rename_i second
      simp only [second]
      split
      · rename_i moved; simp only [moved]
      · rename_i moved; simp only [moved]

theorem nextUnder_congr (agrees : ∀ pass k, Tries limit g pass k → Agrees rule limit pass k) :
    g.nextUnder rule limit = g.next limit := by
  have usual {g : Generator σ} (agrees : ∀ pass k, Tries limit g pass k → Agrees rule limit pass k) :
      g.attemptUnder rule limit .first = g.attempt limit .first :=
    attemptUnder_congr (agrees _ _ (.first .none))
  have retried {g h : Generator σ} (first : g.attempt limit .first = .refused h)
      (agrees : ∀ pass k, Tries limit g pass k → Agrees rule limit pass k) :
      h.attemptUnder rule limit .retry = h.attempt limit .retry :=
    attemptUnder_congr (agrees _ _ (.retry .none first))
  fun_induction g.next limit with
  | case1 _ first => rw [nextUnder_eq, usual agrees, first]
  | case2 _ _ _ first => rw [nextUnder_eq, usual agrees, first]
  | case3 _ _ first second =>
      rw [nextUnder_eq, usual agrees, first]
      simp only [retried first agrees, second]
  | case4 _ _ first _ _ second =>
      rw [nextUnder_eq, usual agrees, first]
      simp only [retried first agrees, second]
  | case5 _ _ first _ second moved =>
      rw [nextUnder_eq, usual agrees, first]
      simp only [retried first agrees, second, moved]
  | case6 _ _ first _ second _ moved ih =>
      rw [nextUnder_eq, usual agrees, first]
      simp only [retried first agrees, second, moved]
      refine ih fun pass l tries => agrees pass l ?_
      cases tries with
      | first stalled => exact .first (stalled.stall first second moved)
      | retry stalled refused => exact .retry (stalled.stall first second moved) refused

theorem runUnder_congr (agrees : ∀ pass k, RunTries limit g pass k → Agrees rule limit pass k)
    (room : Nat) : g.runUnder rule limit room = g.run limit room := by
  induction room generalizing g with
  | zero => rfl
  | succ room ih =>
      unfold runUnder run
      rw [nextUnder_congr fun pass k tries => agrees pass k ⟨[], g, .start, tries⟩]
      cases stepped : g.next limit with
      | unended => rfl
      | refused h => rfl
      | made issue h =>
          rcases passed : h.commit issue with fault | ⟨k, moved⟩
          · simp only [passed]
          · cases moved with
            | false => simp only [passed]
            | true =>
                simp only [passed]
                rw [ih fun pass l tried => agrees pass l (tried.prepend stepped passed)]

theorem draftUnder_congr (agrees : ∀ pass k, RunTries limit g pass k → Agrees rule limit pass k) :
    g.draftUnder rule limit = g.draft limit :=
  runUnder_congr agrees Ledger.programSize

theorem draftUnder_sourcesFor (g : Generator σ) (limit : Nat) :
    g.draftUnder RegisterSet.sourcesFor limit = g.draft limit :=
  draftUnder_congr fun _ _ _ _ _ _ _ _ => rfl

end Generator

theorem Program.generateUnder_congr {rule : SourceRule} {key : SipState} {limit : Nat}
    (same : ∀ salt, (Generator.fresh (CounterStream.ofSalt key salt)).draftUnder rule limit =
      (Generator.fresh (CounterStream.ofSalt key salt)).draft limit) (attempts salt : Nat) :
    generateUnder rule key limit attempts salt = generateFrom key limit attempts salt := by
  induction attempts generalizing salt with
  | zero => rfl
  | succ attempts ih =>
      have draft := same (UInt32.ofNat salt)
      rcases rest : generateFrom key limit attempts (salt + 1) with ⟨events, result⟩
      cases verdict : ((Generator.fresh (CounterStream.ofSalt key (UInt32.ofNat salt))).draft limit).verdict <;>
        simp only [generateUnder, generateFrom, draft, verdict, ih, rest]

end ProgramHash
