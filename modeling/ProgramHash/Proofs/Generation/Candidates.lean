import ProgramHash.Generator

namespace ProgramHash

namespace Opcode

def hasDestination : Opcode → Bool
  | .target | .branch => false
  | _ => true

def hasSource : Opcode → Bool
  | .mul | .umulh | .smulh | .addShift | .sub | .xor => true
  | _ => false

def writerGroup : Opcode → WriterGroup
  | .mul => .mul
  | .umulh => .umulh
  | .smulh => .smulh
  | .addShift | .sub => .addSub
  | .addConst => .addConst
  | .xor => .xor
  | .xorConst => .xorConst
  | .rotate => .rotate
  | .target | .branch => .none

-- The writers an opcode can come with: the source is the tag, except that an
-- upper half has any tag and an operation with a constant has none.
def Proposes (op : Opcode) (w : Writer) (source : Option Register) : Prop :=
  match op with
  | .mul | .addShift | .sub | .xor => ∃ r, source = some r ∧ w = .withSource op.writerGroup r
  | .umulh | .smulh => source.isSome ∧ w.group = op.writerGroup
  | .addConst | .xorConst | .rotate => source = none ∧ w = ⟨op.writerGroup, 0⟩
  | .target | .branch => source = none ∧ w = .nobody

theorem Proposes.group {op : Opcode} {w : Writer} {source : Option Register}
    (proposed : op.Proposes w source) : w.group = op.writerGroup := by
  cases op with
  | umulh => exact proposed.2
  | smulh => exact proposed.2
  | target => rw [proposed.2]; rfl
  | branch => rw [proposed.2]; rfl
  | addConst => rw [proposed.2]
  | xorConst => rw [proposed.2]
  | rotate => rw [proposed.2]
  | _ => obtain ⟨r, _, rfl⟩ := proposed; rfl

end Opcode

theorem Instruction.destination_isSome (i : Instruction) :
    i.destination?.isSome = i.opcode.hasDestination := by
  cases i <;> rfl

theorem Instruction.eq_target {i : Instruction} (target : i.opcode = .target) : i = .target := by
  cases i with
  | target => rfl
  | _ => cases target

namespace Choice

variable {σ α β : Type}

theorem andThen_made {c : Choice σ α} {next : α → σ → Choice σ β} {b : β} {rest : σ}
    (made : c.andThen next = .made b rest) :
    ∃ a s, c = .made a s ∧ next a s = .made b rest := by
  cases c with
  | made a s => exact ⟨a, s, rfl, made⟩
  | refused s => cases made
  | unended => cases made

theorem andThen_refused {c : Choice σ α} {next : α → σ → Choice σ β} {rest : σ}
    (refused : c.andThen next = .refused rest) :
    c = .refused rest ∨ ∃ a s, c = .made a s ∧ next a s = .refused rest := by
  cases c with
  | made a s => exact .inr ⟨a, s, rfl, refused⟩
  | refused s => cases refused; exact .inl rfl
  | unended => cases refused

theorem ofLoop_ne_refused {result : Option (α × σ)} {rest : σ} : ofLoop result ≠ .refused rest := by
  cases result <;> simp [ofLoop]

theorem ofLoop_made {result : Option (α × σ)} {a : α} {rest : σ} (made : ofLoop result = .made a rest) :
    result = some (a, rest) := by
  cases result with
  | none => cases made
  | some pair => cases made; rfl

variable [Draw σ]

theorem register_made {options : RegisterSet} {s rest : σ} {r : Register}
    (made : register options s = .made r rest) : r ∈ options.members := by
  unfold register at made
  split at made
  · cases made
  · rename_i only
    cases made
    simp [only]
  · rename_i several
    cases made
    rw [several]
    exact List.get_mem _ _

theorem register_refused {options : RegisterSet} {s rest : σ}
    (refused : register options s = .refused rest) : options.members = [] := by
  unfold register at refused
  split at refused
  · assumption
  · cases refused
  · cases refused

end Choice

namespace Draw

variable {σ α β : Type}

theorem repeatUntil_some {draw : σ → α × σ} {accept : α → Option β} {limit : Nat} {s rest : σ}
    {b : β} (ended : repeatUntil draw accept limit s = some (b, rest)) :
    ∃ t, accept (draw t).1 = some b ∧ rest = (draw t).2 := by
  induction limit generalizing s with
  | zero => cases ended
  | succ limit ih =>
      simp only [repeatUntil] at ended
      split at ended
      · rename_i accepted
        cases ended
        exact ⟨s, accepted, rfl⟩
      · exact ih ended

variable [Draw σ]

theorem pick_mem {n : Nat} (options : Vector α (n + 1)) (s : σ) : (pick options s).1 ∈ options := by
  simp [pick, Vector.get]

end Draw

namespace OpcodeClass

def opcodes : OpcodeClass → List Opcode
  | .target => [.target]
  | .branch => [.branch]
  | .mul => [.mul]
  | .wideMul => wideOpcodes.toList
  | .normal => normalOpcodes.toList
  | .immediate => immediateOpcodes.toList

theorem draw_mem {σ : Type} [Draw σ] (c : OpcodeClass) (s : σ) : (c.draw s).1 ∈ c.opcodes := by
  cases c with
  | wideMul => exact Vector.mem_toList_iff.mpr (Draw.pick_mem _ s)
  | normal => exact Vector.mem_toList_iff.mpr (Draw.pick_mem _ s)
  | immediate => exact Vector.mem_toList_iff.mpr (Draw.pick_mem _ s)
  | _ => exact List.mem_singleton_self _

end OpcodeClass

namespace Opening

variable {σ : Type} [Draw σ]

structure Fits (o : Opening) (w : Writer) (source : Option Register) : Prop where
  proposed : o.op.Proposes w source
  ready : ∀ r, source = some r → r ∈ (o.available.sourcesFor o.op).members

def Allows (o : Opening) (w : Writer) (source : Option Register) (d : Register) : Prop :=
  d ∈ o.available.members ∧ o.ledger.destinationAllowed o.op o.pass w source d = true

-- Either there is no source at all, or a writer was proposed that fits nowhere.
def Blocked (o : Opening) : Prop :=
  (o.op.hasSource = true ∧ (o.available.sourcesFor o.op).members = []) ∨
    ∃ w source, o.Fits w source ∧ ∀ d, ¬ o.Allows w source d

theorem destination_made {o : Opening} {w : Writer} {source : Option Register} {s rest : σ}
    {d : Register} (made : o.destination w source s = .made d rest) : o.Allows w source d := by
  have member := Choice.register_made made
  exact List.mem_filter.mp member

theorem destination_refused {o : Opening} {w : Writer} {source : Option Register} {s rest : σ}
    (refused : o.destination w source s = .refused rest) (d : Register) : ¬ o.Allows w source d := by
  rintro ⟨available, allowed⟩
  have none := Choice.register_refused refused
  have member : d ∈ o.available.members.filter
      (fun d => o.ledger.destinationAllowed o.op o.pass w source d) :=
    List.mem_filter.mpr ⟨available, allowed⟩
  simp only [RegisterSet.filter] at none
  rw [none] at member
  cases member

theorem registers_made {o : Opening} {writer : Register → Writer} {s rest : σ} {d r : Register}
    {w : Writer} (made : o.registers writer s = .made (d, r, w) rest) :
    w = writer r ∧ r ∈ (o.available.sourcesFor o.op).members ∧ o.Allows w (some r) d := by
  obtain ⟨source, t, chosen, made⟩ := Choice.andThen_made made
  obtain ⟨dst, u, placed, made⟩ := Choice.andThen_made made
  cases made
  exact ⟨rfl, Choice.register_made chosen, destination_made placed⟩

theorem registers_refused {o : Opening} {writer : Register → Writer} {s rest : σ}
    (refused : o.registers writer s = .refused rest) :
    (o.available.sourcesFor o.op).members = [] ∨
      ∃ r ∈ (o.available.sourcesFor o.op).members, ∀ d, ¬ o.Allows (writer r) (some r) d := by
  rcases Choice.andThen_refused refused with none | ⟨r, t, chosen, refused⟩
  · exact .inl (Choice.register_refused none)
  · rcases Choice.andThen_refused refused with nowhere | ⟨d, u, _, refused⟩
    · exact .inr ⟨r, Choice.register_made chosen, destination_refused nowhere⟩
    · cases refused

theorem constantOperands_made {o : Opening} {limit : Nat} {group : WriterGroup} {mask k : UInt32}
    {s rest : σ} {d : Register} {w : Writer}
    (made : o.constantOperands limit group mask s = .made (d, k, w) rest) :
    w = ⟨group, 0⟩ ∧ o.Allows w none d := by
  obtain ⟨constant, t, _, made⟩ := Choice.andThen_made made
  obtain ⟨dst, u, placed, made⟩ := Choice.andThen_made made
  cases made
  exact ⟨rfl, destination_made placed⟩

theorem constantOperands_refused {o : Opening} {limit : Nat} {group : WriterGroup} {mask : UInt32}
    {s rest : σ} (refused : o.constantOperands limit group mask s = .refused rest) (d : Register) :
    ¬ o.Allows ⟨group, 0⟩ none d := by
  rcases Choice.andThen_refused refused with drawn | ⟨_, t, _, refused⟩
  · exact absurd drawn Choice.ofLoop_ne_refused
  · rcases Choice.andThen_refused refused with nowhere | ⟨_, u, _, refused⟩
    · exact destination_refused nowhere d
    · cases refused

-- An instruction with its writer that an opening may come to: it has the opcode,
-- reads a source it may read and goes where its writer may go.
structure Accepts (o : Opening) (i : Instruction) (w : Writer) : Prop where
  opcode : i.opcode = o.op
  fits : o.Fits w i.source?
  allowed : ∀ d, i.destination? = some d → o.Allows w i.source? d

theorem Accepts.nobody {o : Opening} {i : Instruction} {w : Writer} (accepted : o.Accepts i w)
    (plain : i.destination? = none) : w = .nobody := by
  have proposed := accepted.fits.proposed
  have kind := i.destination_isSome
  rw [plain, accepted.opcode] at kind
  cases op : o.op with
  | target | branch => rw [op] at proposed; exact proposed.2
  | _ => rw [op] at kind; cases kind

theorem Accepts.recorded {o : Opening} {i : Instruction} {w : Writer} (accepted : o.Accepts i w)
    (l : Ledger) : ∃ recorded, l.record i w = .ok recorded := by
  unfold Ledger.record
  cases destination : i.destination? with
  | none => exact ⟨_, if_pos (accepted.nobody destination)⟩
  | some d => exact ⟨_, rfl⟩

theorem accepts_plain {o : Opening} {i : Instruction} (opcode : i.opcode = o.op)
    (proposed : o.op.Proposes .nobody none) (source : i.source? = none)
    (destination : i.destination? = none) : o.Accepts i .nobody :=
  ⟨opcode, by rw [source]; exact ⟨proposed, by simp⟩, by simp [destination]⟩

theorem accepts_source {o : Opening} {i : Instruction} {w : Writer} {d r : Register}
    (opcode : i.opcode = o.op) (proposed : o.op.Proposes w (some r)) (source : i.source? = some r)
    (destination : i.destination? = some d) (ready : r ∈ (o.available.sourcesFor o.op).members)
    (allowed : o.Allows w (some r) d) : o.Accepts i w := by
  refine ⟨opcode, ⟨source ▸ proposed, ?_⟩, ?_⟩
  · intro r' same
    rw [source] at same
    cases same
    exact ready
  · intro d' same
    rw [destination] at same
    cases same
    rwa [source]

theorem accepts_constant {o : Opening} {i : Instruction} {w : Writer} {d : Register}
    (opcode : i.opcode = o.op) (proposed : o.op.Proposes w none) (source : i.source? = none)
    (destination : i.destination? = some d) (allowed : o.Allows w none d) : o.Accepts i w := by
  refine ⟨opcode, ⟨source ▸ proposed, by simp [source]⟩, ?_⟩
  intro d' same
  rw [destination] at same
  cases same
  rwa [source]

theorem instruction_made {o : Opening} {limit : Nat} {s rest : σ} {i : Instruction} {w : Writer}
    (made : o.instruction limit s = .made (i, w) rest) : o.Accepts i w := by
  unfold instruction at made
  split at made
  case h_1 op =>
    cases made
    exact accepts_plain op.symm (by rw [op]; exact ⟨rfl, rfl⟩) rfl rfl
  case h_2 op =>
    obtain ⟨mask, t, _, made⟩ := Choice.andThen_made made
    cases made
    exact accepts_plain op.symm (by rw [op]; exact ⟨rfl, rfl⟩) rfl rfl
  case h_3 op | h_4 op =>
    obtain ⟨⟨d, r, v⟩, t, chosen, made⟩ := Choice.andThen_made made
    obtain ⟨rfl, ready, allowed⟩ := registers_made chosen
    cases made
    exact accepts_source op.symm (by rw [op]; exact ⟨rfl, rfl⟩) rfl rfl ready allowed
  case h_5 op | h_6 op | h_7 op | h_8 op =>
    obtain ⟨⟨d, r, v⟩, t, chosen, made⟩ := Choice.andThen_made made
    obtain ⟨rfl, ready, allowed⟩ := registers_made chosen
    cases made
    exact accepts_source op.symm (by rw [op]; exact ⟨r, rfl, rfl⟩) rfl rfl ready allowed
  case h_9 op | h_10 op | h_11 op =>
    obtain ⟨⟨d, k, v⟩, t, chosen, made⟩ := Choice.andThen_made made
    obtain ⟨rfl, allowed⟩ := constantOperands_made chosen
    cases made
    exact accepts_constant op.symm (by rw [op]; exact ⟨rfl, rfl⟩) rfl rfl allowed

-- A choice of registers fails for want of a source, or with a writer that goes
-- nowhere.
theorem blocked_of_registers {o : Opening} {writer : Register → Writer} {s rest : σ}
    (reads : o.op.hasSource = true) (proposed : ∀ r, o.op.Proposes (writer r) (some r))
    (refused : o.registers writer s = .refused rest) : o.Blocked := by
  rcases registers_refused refused with none | ⟨r, ready, nowhere⟩
  · exact .inl ⟨reads, none⟩
  · refine .inr ⟨writer r, some r, ⟨proposed r, ?_⟩, nowhere⟩
    rintro _ ⟨⟩
    exact ready

theorem instruction_refused {o : Opening} {limit : Nat} {s rest : σ}
    (refused : o.instruction limit s = .refused rest) : o.op.hasDestination = true ∧ o.Blocked := by
  unfold instruction at refused
  split at refused
  case h_1 => cases refused
  case h_2 =>
    rcases Choice.andThen_refused refused with drawn | ⟨_, _, _, refused⟩
    · exact absurd drawn Choice.ofLoop_ne_refused
    · cases refused
  case h_3 op | h_4 op =>
    rcases Choice.andThen_refused refused with blocked | ⟨_, _, _, refused⟩
    · refine ⟨by rw [op]; rfl, blocked_of_registers (by rw [op]; rfl) (fun r => ?_) blocked⟩
      rw [op]
      exact ⟨rfl, rfl⟩
    · cases refused
  case h_5 op | h_6 op | h_7 op | h_8 op =>
    rcases Choice.andThen_refused refused with blocked | ⟨_, _, _, refused⟩
    · refine ⟨by rw [op]; rfl, blocked_of_registers (by rw [op]; rfl) (fun r => ?_) blocked⟩
      rw [op]
      exact ⟨r, rfl, rfl⟩
    · cases refused
  case h_9 op | h_10 op | h_11 op =>
    rcases Choice.andThen_refused refused with blocked | ⟨_, _, _, refused⟩
    · refine ⟨by rw [op]; rfl, .inr ⟨_, none, ⟨by rw [op]; exact ⟨rfl, rfl⟩, by simp⟩, ?_⟩⟩
      exact constantOperands_refused blocked
    · cases refused

end Opening

namespace Generator

variable {σ : Type} [Draw σ]

def Draws (g : Generator σ) (pass : Pass) (op : Opcode) : Prop :=
  op ∈ (OpcodeClass.ofCursor g.schedule.cursor pass).opcodes ∧ op.mayFollow g.lastDrawn = true

theorem drawOpcode_some {g : Generator σ} {limit : Nat} {pass : Pass} {op : Opcode} {draws : σ}
    (drawn : g.drawOpcode limit pass = some (op, draws)) : g.Draws pass op := by
  obtain ⟨t, accepted, rfl⟩ := Draw.repeatUntil_some drawn
  split at accepted
  · rename_i follows
    cases accepted
    exact ⟨OpcodeClass.draw_mem _ _, follows⟩
  · cases accepted

def opening (g : Generator σ) (pass : Pass) (op : Opcode) (slot : Slot) : Opening :=
  ⟨g.schedule, g.ledger, op, pass, slot⟩

theorem attempt_made {g h : Generator σ} {limit : Nat} {pass : Pass} {issue : Issue}
    (made : g.attempt limit pass = .made issue h) :
    g.Draws pass issue.instruction.opcode ∧
      g.schedule.plan? issue.instruction.opcode = some issue.slot ∧ issue.pass = pass ∧
      (g.opening pass issue.instruction.opcode issue.slot).Accepts issue.instruction issue.writer ∧
      ∃ draws, h = { g with
        draws
        lastDrawn := some issue.instruction.opcode
        schedule := g.schedule.book issue.slot issue.instruction } := by
  unfold attempt at made
  split at made
  · cases made
  · rename_i op draws drawn
    split at made
    · cases made
    · rename_i slot planned
      split at made
      · cases made
      · cases made
      · rename_i i w rest chosen
        cases made
        have accepted := Opening.instruction_made chosen
        have opcode : i.opcode = op := accepted.opcode
        subst opcode
        exact ⟨drawOpcode_some drawn, planned, rfl, accepted, rest, rfl⟩

theorem attempt_blocked {g h : Generator σ} {limit : Nat} {pass : Pass}
    (refused : g.attempt limit pass = .refused h) :
    ∃ op draws, g.Draws pass op ∧ h = { g with draws, lastDrawn := some op } ∧
      ∀ slot, g.schedule.plan? op = some slot →
        op.hasDestination = true ∧ (g.opening pass op slot).Blocked := by
  unfold attempt at refused
  split at refused
  · cases refused
  · rename_i op draws drawn
    split at refused
    · rename_i missing
      cases refused
      refine ⟨op, draws, drawOpcode_some drawn, rfl, fun slot planned => ?_⟩
      rw [missing] at planned
      cases planned
    · rename_i slot planned
      split at refused
      · cases refused
      · rename_i rest blocked
        cases refused
        refine ⟨op, rest, drawOpcode_some drawn, rfl, fun slot' planned' => ?_⟩
        rw [planned] at planned'
        cases planned'
        exact Opening.instruction_refused blocked
      · cases refused

end Generator

end ProgramHash
