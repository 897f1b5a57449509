import ProgramHash.Compile.Scalar
import ProgramHash.Compile.Vector
import ProgramHash.Machine.Processor

namespace ProgramHash

open Machine

inductive RunError where
  | faulted (fault : Fault)
  | trapped (trap : Trap)
  | outOfSteps
  deriving DecidableEq, Repr

def RunError.message : RunError → String
  | .faulted fault => fault.message
  | .trapped .noOperation => "no operation at this position"
  | .trapped .badAddress => "address outside the file and the code"
  | .trapped .undefinedFlag => "jump on an undefined flag"
  | .trapped .stackMisused => "unbalanced stack"
  | .outOfSteps => "code did not return"

-- At most one jump leads back, and an operation takes a byte at least.
def stepBound (code : Array UInt8) : Nat := 2 * code.size

def callCode (code : Array UInt8) (memory : Array Word) : Except RunError (Array Word) :=
  match Processor.run code (stepBound code) (Processor.enter memory) with
  | .returned p => .ok p.memory
  | .trapped t => .error (.trapped t)
  | .outOfSteps => .error .outOfSteps

def runCode {n : Nat} (code : Array UInt8) (file : Bank Word n) : Except RunError (Bank Word n) :=
  (callCode code file.toArray).map fun memory => .ofFn fun i => memory.getD i.val 0

theorem runCode_returned {n : Nat} {code : Array UInt8} {file result : Bank Word n} {q : Processor}
    (returned : Processor.run code (stepBound code) (Processor.enter file.toArray) = .returned q)
    (memory : q.memory = result.toArray) : runCode code file = .ok result := by
  simp only [runCode, callCode, returned, Except.map, memory]
  exact congrArg Except.ok (Bank.ext fun i => by simp [Array.getD])

def ScalarCode.run (code : Array UInt8) (file : RegisterFile) : Except RunError RegisterFile :=
  runCode code file

def VectorCode.run (code : Array UInt8) (file : LaneFile) : Except RunError LaneFile :=
  runCode code file

inductive Backend where
  | interpreter
  | scalar (code : Array UInt8)
  | vector (single lanes : Array UInt8)

namespace Backend

def isCompiled : Backend → Bool
  | .interpreter => false
  | .scalar _ | .vector _ _ => true

def run (b : Backend) (p : Program) (file : RegisterFile) : Except RunError RegisterFile :=
  match b with
  | .interpreter => (p.interpret file).mapError .faulted
  | .scalar code | .vector code _ => ScalarCode.run code file

end Backend

end ProgramHash
