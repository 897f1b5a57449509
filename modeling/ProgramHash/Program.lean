import ProgramHash.Generator

namespace ProgramHash

inductive Event where
  | stalled (cycle : Nat)
  | accepted (instructions latency multiplies : Nat)
  | generated (salt : Nat)
  | rejected (violation : Violation) (salt : Nat)
  | compiled (bytes : Nat)
  deriving DecidableEq, Repr

def Event.text : Event → String
  | .stalled cycle => "TRACE stall cycle=" ++ toString cycle
  | .accepted instructions latency multiplies =>
      "DEBUG program meets every constraint instructions=" ++ toString instructions ++
        " latency=" ++ toString latency ++ " multiplies=" ++ toString multiplies
  | .generated salt => "DEBUG generated program salt=" ++ toString salt
  | .rejected violation salt =>
      "DEBUG program rejected: " ++ violation.message ++ " salt=" ++ toString salt
  | .compiled bytes => "DEBUG compiled scalar program bytes=" ++ toString bytes

def Draft.events {σ : Type} (d : Draft σ) : List Event :=
  d.generator.stalls.toList.map .stalled ++
    match d.verdict with
    | .accepted => [.accepted d.issues.length d.generator.schedule.latency
        d.generator.ledger.multiplies.toNat]
    | _ => []

structure Program where
  instructions : Array Instruction
  deriving DecidableEq, Repr, Inhabited

namespace Program

def size (p : Program) : Nat := p.instructions.size

def ofList (l : List Instruction) : Program := ⟨l.toArray⟩

def toList (p : Program) : List Instruction := p.instructions.toList

def listing (p : Program) : String := Instruction.listing p.toList

def opcodeCount (p : Program) (op : Opcode) : Nat := p.toList.countP fun i => i.opcode = op

end Program

inductive GenerationError where
  | everyAttemptRejected
  | unended
  | faulted (fault : Fault)
  deriving DecidableEq, Repr

-- Each loop of rejected draws may take this many. A draw is accepted with a
-- chance of at least one eighth, so the limit is never met in practice.
def drawLimit : Nat := 0x100000

namespace Program

def generateFrom (key : SipState) (limit : Nat) : Nat → Nat →
    List Event × Except GenerationError Program
  | 0, _ => ([], .error .everyAttemptRejected)
  | attempts + 1, salt =>
      let d := (Generator.fresh (CounterStream.ofSalt key (UInt32.ofNat salt))).draft limit
      match d.verdict with
      | .accepted => (d.events ++ [.generated salt], .ok (ofList d.program))
      | .unended => (d.events, .error .unended)
      | .faulted fault => (d.events, .error (.faulted fault))
      | .rejected violation =>
          let (events, result) := generateFrom key limit attempts (salt + 1)
          (d.events ++ .rejected violation salt :: events, result)

def generate (key : SipState) (attempts : Nat) : List Event × Except GenerationError Program :=
  generateFrom key drawLimit attempts 0

end Program

end ProgramHash
