import ProgramHash.Fault
import ProgramHash.OpcodeChoice
import ProgramHash.Schedule

namespace ProgramHash

-- What a register was last written by. Instructions of one group and one tag
-- would undo or merge each other when they write a register in a row.
inductive WriterGroup where
  | none | mul | umulh | smulh | addSub | addConst | xor | xorConst | rotate
  deriving DecidableEq, Repr

structure Writer where
  group : WriterGroup
  tag : UInt32
  deriving DecidableEq, Repr

namespace Writer

def nobody : Writer := ⟨.none, 0⟩

def withSource (group : WriterGroup) (source : Register) : Writer :=
  ⟨group, UInt32.ofNat source.val⟩

def mayReplace (this : Writer) (pass : Pass) (last : Writer) : Bool :=
  if last = this then last.group = .mul ∧ pass = .retry else true

end Writer

-- How the registers were last written since the latest target, and how many
-- multiplies there were in all, counted in a machine word that wraps.
structure Ledger where
  writers : Bank Writer 8
  multiplies : UInt64
  deriving DecidableEq, Repr

inductive Violation where
  | length (instructions : Nat)
  | latency (cycle : Nat)
  | multiplies (count : Nat)
  deriving DecidableEq, Repr

namespace Violation

def value : Violation → Nat
  | .length n | .latency n | .multiplies n => n

def message : Violation → String
  | .length n => "program has " ++ toString n ++ " instructions"
  | .latency n => "program finishes at cycle " ++ toString n
  | .multiplies n => "program has " ++ toString n ++ " multiplies"

end Violation

namespace Ledger

def initial : Ledger := ⟨.filled .nobody, 0⟩

def counted (l : Ledger) (i : Instruction) : UInt64 :=
  if i.opcode.isMultiplication then l.multiplies + 1 else l.multiplies

def record (l : Ledger) (i : Instruction) (w : Writer) : Except Fault Ledger :=
  match i.destination? with
  | some d => .ok ⟨l.writers.set d w, l.counted i⟩
  | none => if w = .nobody then .ok ⟨l.writers, l.counted i⟩
      else .error (.writerWithoutDestination i)

def forget (l : Ledger) : Ledger := { l with writers := .filled .nobody }

-- No sum with a shifted source goes to r5: its code could not name r5 as base.
def shiftedSumExcluded : Register := 5

def destinationAllowed (l : Ledger) (op : Opcode) (pass : Pass) (w : Writer)
    (source : Option Register) (d : Register) : Bool :=
  !(op = .addShift ∧ d = shiftedSumExcluded) &&
    !(!op.allowsSourceAsDestination ∧ source = some d) &&
    w.mayReplace pass l.writers[d]

def programSize : Nat := 512

def requiredLatency : Nat := 194

def requiredMultiplies : UInt64 := 192

def violation? (l : Ledger) (s : Schedule) (instructions : Nat) : Option Violation :=
  if instructions ≠ programSize then some (.length instructions)
  else if s.latency ≠ requiredLatency then some (.latency s.latency)
  else if l.multiplies ≠ requiredMultiplies then some (.multiplies l.multiplies.toNat)
  else none

end Ledger

-- With two registers to choose from, r5 is left for the destination of another
-- instruction: taking it as source could leave a shifted sum without one.
def RegisterSet.sourcesFor (available : RegisterSet) (op : Opcode) : RegisterSet :=
  if op = .addShift ∧ available.size = 2 then
    available.filter fun r => r ≠ Ledger.shiftedSumExcluded
  else available

end ProgramHash
