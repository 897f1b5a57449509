import ProgramHash.Backend
import ProgramHash.KeyPair

namespace ProgramHash

inductive Runtime where
  | interpretOnly | scalarOnly | vectorOnly | tryCompile
  deriving DecidableEq, Repr

namespace Runtime

def all : List Runtime := [.interpretOnly, .scalarOnly, .vectorOnly, .tryCompile]

def name : Runtime → String
  | .interpretOnly => "interpret_only"
  | .scalarOnly => "scalar_only"
  | .vectorOnly => "vector_only"
  | .tryCompile => "try_compile"

def ofName? (name : String) : Option Runtime := all.find? fun r => r.name = name

end Runtime

-- What the surroundings allow: code can only run where memory may be made
-- executable, and eight lanes at once only on a processor that has them.
structure Host where
  mayExecute : Bool
  hasLanes : Bool
  deriving DecidableEq, Repr

inductive BuildError where
  | generation (cause : GenerationError)
  | compilation (fault : Fault)
  | notAvailable
  | executableMemory
  deriving DecidableEq, Repr

def GenerationError.message : GenerationError → String
  | .everyAttemptRejected => "program generation failed the whole-program constraints"
  | .unended => "no draw was accepted"
  | .faulted fault => fault.message

def BuildError.message : BuildError → String
  | .generation cause => cause.message
  | .compilation fault => fault.message
  | .notAvailable => "the requested compiled runtime is not available on this CPU or target"
  | .executableMemory =>
      "failed to prepare executable memory: Permission denied (os error 13)"

structure BuildSettings where
  runtime : Runtime
  attempts : Nat
  deriving DecidableEq, Repr

namespace BuildSettings

def default : BuildSettings := ⟨.tryCompile, 1⟩

end BuildSettings

abbrev Reported (ε α : Type) := List Event × Except ε α

namespace Reported

def ok {ε α : Type} (value : α) : Reported ε α := ([], .ok value)

def andThen {ε α β : Type} (r : Reported ε α) (next : α → Reported ε β) : Reported ε β :=
  match r with
  | (events, .error e) => (events, .error e)
  | (events, .ok value) =>
      let (more, result) := next value
      (events ++ more, result)

def mapError {ε δ α : Type} (r : Reported ε α) (f : ε → δ) : Reported δ α :=
  (r.1, r.2.mapError f)

end Reported

namespace Backend

def compileScalar (host : Host) (p : Program) : Reported BuildError (Array UInt8) :=
  match ScalarCode.compile p with
  | .error fault => ([], .error (.compilation fault))
  | .ok code =>
      ([.compiled code.size], if host.mayExecute then .ok code else .error .executableMemory)

def compileVector (host : Host) (p : Program) : Reported BuildError (Array UInt8) :=
  if host.hasLanes then
    match VectorCode.compile p with
    | .error fault => ([], .error (.compilation fault))
    | .ok code => ([], if host.mayExecute then .ok code else .error .executableMemory)
  else ([], .error .notAvailable)

def vectorOf (host : Host) (p : Program) : Reported BuildError Backend :=
  Reported.andThen (compileScalar host p) fun single =>
    Reported.andThen (compileVector host p) fun lanes => .ok (.vector single lanes)

-- Where the host is what is missing the best there is runs the program; a program
-- that cannot be compiled is no such case.
def bestOf (host : Host) (p : Program) : Reported BuildError Backend :=
  match compileScalar host p with
  | (events, .error .executableMemory) => (events, .ok .interpreter)
  | (events, .error e) => (events, .error e)
  | (events, .ok single) =>
      match compileVector host p with
      | (more, .error .executableMemory) | (more, .error .notAvailable) =>
          (events ++ more, .ok (.scalar single))
      | (more, .error e) => (events ++ more, .error e)
      | (more, .ok lanes) => (events ++ more, .ok (.vector single lanes))

def build (host : Host) (r : Runtime) (p : Program) : Reported BuildError Backend :=
  match r with
  | .interpretOnly => .ok .interpreter
  | .scalarOnly => Reported.andThen (compileScalar host p) fun code => .ok (.scalar code)
  | .vectorOnly => vectorOf host p
  | .tryCompile => bestOf host p

end Backend

structure Hasher where
  registerKey : SipState
  program : Program
  backend : Backend

namespace Hasher

def build (host : Host) (s : BuildSettings) (keys : KeyPair) : Reported BuildError Hasher :=
  Reported.andThen (Reported.mapError (Program.generate keys.program s.attempts) .generation)
    fun program => Reported.andThen (Backend.build host s.runtime program)
      fun backend => .ok ⟨keys.register, program, backend⟩

def ofSeed (host : Host) (s : BuildSettings) (seed : Array UInt8) : Reported BuildError Hasher :=
  build host s (.ofSeed seed)

def ofKey (host : Host) (s : BuildSettings) (key : SipState) : Reported BuildError Hasher :=
  build host s ⟨key, key⟩

def hash (h : Hasher) (nonce : Word) : Except RunError Word := do
  let file ← h.backend.run h.program (.ofNonce h.registerKey nonce)
  return file.digest h.registerKey

-- Consecutive nonces from the first on; they wrap.
def nonces (count : Nat) (first : Word) : Vector Word count :=
  Vector.ofFn fun i => first + UInt64.ofNat i.val

def laneFiles {n : Nat} (key : SipState) (inputs : Vector Word (n + 1)) : Bank RegisterFile 8 :=
  .ofFn fun l => .ofNonce key (inputs.get ⟨l.val % (n + 1), Nat.mod_lt _ (Nat.succ_pos n)⟩)

def hashLanes {n : Nat} (h : Hasher) (inputs : Vector Word (n + 1)) :
    Except RunError (List Word) :=
  match h.backend with
  | .vector _ code => do
      let file ← VectorCode.run code (.ofLanes (laneFiles h.registerKey inputs))
      return ((List.finRange 8).take (n + 1)).map fun l => (file.lane l).digest h.registerKey
  | .interpreter | .scalar _ => inputs.toList.mapM h.hash

def batch4 (h : Hasher) (first : Word) : Except RunError (List Word) :=
  h.hashLanes (nonces 4 first)

def batch8 (h : Hasher) (first : Word) : Except RunError (List Word) :=
  h.hashLanes (nonces 8 first)

end Hasher

inductive HashError where
  | notBuilt (cause : BuildError)
  | notRun (cause : RunError)
  deriving DecidableEq, Repr

namespace Hasher

def once {α : Type} (host : Host) (s : BuildSettings) (key : SipState)
    (use : Hasher → Except RunError α) : Reported HashError α :=
  Reported.andThen (Reported.mapError (ofKey host s key) .notBuilt)
    fun h => ([], (use h).mapError .notRun)

def hashOnce (host : Host) (key : SipState) (nonce : Word) : Reported HashError Word :=
  once host { BuildSettings.default with runtime := .interpretOnly } key fun h => h.hash nonce

def batch4Once (host : Host) (key : SipState) (first : Word) : Reported HashError (List Word) :=
  once host .default key fun h => h.batch4 first

def batch8Once (host : Host) (key : SipState) (first : Word) : Reported HashError (List Word) :=
  once host .default key fun h => h.batch8 first

end Hasher

end ProgramHash
