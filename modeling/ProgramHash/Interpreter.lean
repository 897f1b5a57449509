import ProgramHash.Program

namespace ProgramHash

structure Values where
  file : RegisterFile
  product : UInt32
  deriving DecidableEq, Repr

namespace Instruction

def apply (i : Instruction) (v : Values) : Values :=
  match i with
  | .mul d s => { v with file := v.file.set d (v.file[d] * v.file[s]) }
  | .umulh d s =>
      let p := Word.highProduct v.file[d] v.file[s]
      ⟨v.file.set d p, p.lowHalf⟩
  | .smulh d s =>
      let p := Word.signedHighProduct v.file[d] v.file[s]
      ⟨v.file.set d p, p.lowHalf⟩
  | .addShift d s shift =>
      { v with file := v.file.set d (v.file[d] + (v.file[s] <<< shift.toUInt64)) }
  | .addConst d k => { v with file := v.file.set d (v.file[d] + Word.signExtend k) }
  | .sub d s => { v with file := v.file.set d (v.file[d] - v.file[s]) }
  | .xor d s => { v with file := v.file.set d (v.file[d] ^^^ v.file[s]) }
  | .xorConst d k => { v with file := v.file.set d (v.file[d] ^^^ Word.signExtend k) }
  | .rotate d amount => { v with file := v.file.set d (Word.rotateRight v.file[d] amount.toUInt64) }
  | .target | .branch _ => v

end Instruction

def straightLine (l : List Instruction) (v : Values) : Values := l.foldl (fun v i => i.apply v) v

structure Execution where
  position : Nat
  mayBranch : Bool
  target : Option Nat
  values : Values
  steps : Nat
  deriving DecidableEq, Repr

inductive Progress where
  | finished
  | faulted (fault : Fault)
  | next (e : Execution)
  deriving DecidableEq, Repr

namespace Execution

def start (file : RegisterFile) : Execution := ⟨0, true, none, ⟨file, 0⟩, 0⟩

-- A branch is taken when it may be and its mask meets no set bit of the latest
-- upper product. It leads to the latest target passed, and no branch after it
-- is taken again.
def step (program : Array Instruction) (e : Execution) : Progress :=
  if inside : e.position < program.size then
    match program[e.position] with
    | .target =>
        .next { e with position := e.position + 1, target := some e.position, steps := e.steps + 1 }
    | .branch mask =>
        if e.mayBranch ∧ mask &&& e.values.product = 0 then
          match e.target with
          | none => .faulted .branchTakenWithoutTarget
          | some t => .next { e with position := t, mayBranch := false, steps := e.steps + 1 }
        else .next { e with position := e.position + 1, steps := e.steps + 1 }
    | i => .next { e with
        position := e.position + 1, values := i.apply e.values, steps := e.steps + 1 }
  else .finished

-- The branch still to be taken outweighs any way left to go.
theorem step_progress {program : Array Instruction} {e next : Execution}
    (stepped : e.step program = .next next) :
    (e.mayBranch = true ∧ next.mayBranch = false) ∨
      (next.mayBranch = e.mayBranch ∧ next.position = e.position + 1 ∧
        e.position < program.size) := by
  unfold step at stepped
  split at stepped
  · rename_i inside
    split at stepped
    · cases stepped; exact .inr ⟨rfl, rfl, inside⟩
    · split at stepped
      · rename_i taken
        split at stepped
        · cases stepped
        · cases stepped; exact .inl ⟨taken.1, rfl⟩
      · cases stepped; exact .inr ⟨rfl, rfl, inside⟩
    · cases stepped; exact .inr ⟨rfl, rfl, inside⟩
  · cases stepped

set_option linter.unusedVariables false in
def run (program : Array Instruction) (e : Execution) : Except Fault Execution :=
  match stepped : e.step program with
  | .finished => .ok e
  | .faulted fault => .error fault
  | .next next => run program next
termination_by (e.mayBranch.toNat, program.size - e.position)
decreasing_by
  rcases step_progress stepped with ⟨before, after⟩ | ⟨same, moved, inside⟩
  · rw [before, after]
    exact Prod.Lex.left _ _ (by decide)
  · rw [same, moved]
    exact Prod.Lex.right _ (by omega)

end Execution

def Program.interpret (p : Program) (file : RegisterFile) : Except Fault RegisterFile :=
  (Execution.run p.instructions (.start file)).map fun e => e.values.file

end ProgramHash
