import ProgramHash.CommandLine.Arguments
import ProgramHash.CommandLine.Pages

namespace ProgramHash.CommandLine

inductive Failure where
  | unreadable (cause : String)
  | notSettings
  | noCommand
  | notBuilt (cause : BuildError)
  | notRun (cause : RunError)
  | differentProgram (runtime : Runtime)
  | digestsDiffer (count : Nat)
  deriving DecidableEq, Repr

def Failure.message : Failure → String
  | .unreadable cause => cause
  | .notSettings => "the config file does not hold settings"
  | .noCommand => "no command given, see `hashx --help`"
  | .notBuilt cause => cause.message
  | .notRun cause => cause.message
  | .differentProgram runtime =>
      Settings.runtimeLabel runtime ++ " generated a different program"
  | .digestsDiffer count => toString count ++ " digests differ from the interpreter"

def Refusal.notice : Refusal → String
  | .page p => p.text
  | .version => versionText
  | .nothingGiven => Page.main.text
  | .unknownArgument => "error: unexpected argument\n"
  | .unknownCommand => "error: unrecognized subcommand\n"
  | .optionMissing => "error: a required argument was not provided\n"
  | .optionRepeated => "error: an argument was used more than once\n"
  | .valueMissing => "error: a value is required\n"
  | .valueNotAllowed | .valueMalformed => "error: invalid value\n"
  | .valueForFlag => "error: unexpected value\n"

structure Outcome where
  code : UInt8
  output : String
  message : Option String
  notice : String
  deriving DecidableEq, Repr

namespace Outcome

def printed (text : String) : Outcome := ⟨0, text, none, ""⟩

def ofFailure (f : Failure) : Outcome := ⟨1, "", some f.message, ""⟩

def ofRefusal (r : Refusal) : Outcome :=
  if r.isAnswer then printed r.notice else ⟨2, "", none, r.notice⟩

def ofResult : Except Failure String → Outcome
  | .ok text => printed text
  | .error f => ofFailure f

end Outcome

def digestLine (nonce digest : Word) : String :=
  toString nonce.toNat ++ " " ++ Hex.encode (Bytes.ofWord digest) ++ "\n"

def built (host : Host) (s : BuildSettings) (seed : List UInt8) : Except Failure Hasher :=
  (Hasher.ofSeed host s seed.toArray).2.mapError .notBuilt

def ran {α : Type} (r : Except RunError α) : Except Failure α := r.mapError .notRun

def hashRange (host : Host) (s : BuildSettings) (seed : List UInt8) (first count : Word) :
    Except Failure String := do
  let h ← built host s seed
  let printed ← (List.range count.toNat).mapM fun i => do
    let nonce := first + UInt64.ofNat i
    return digestLine nonce (← ran (h.hash nonce))
  return String.join printed

def countDifferent (expected found : List Word) : Nat :=
  (expected.zip found).countP fun (a, b) => a ≠ b

-- How many digests below the given count differ from the reference, each nonce
-- alone and the batches that start at every eighth one. The last batches reach
-- beyond the count.
def mismatches (h reference : Hasher) (count : Nat) : Except RunError Nat := do
  let batches := (count + 7) / 8
  let expected ← (List.range (8 * batches)).mapM fun i => reference.hash (UInt64.ofNat i)
  let single ← (List.range count).mapM fun i => h.hash (UInt64.ofNat i)
  let inBatches ← (List.range batches).mapM fun b => do
    let first := expected.drop (8 * b)
    let wide ← h.batch8 (UInt64.ofNat (8 * b))
    let narrow ← h.batch4 (UInt64.ofNat (8 * b))
    return countDifferent first wide + countDifferent first narrow
  return inBatches.foldl (· + ·) (countDifferent expected single)

def verified (host : Host) (s : BuildSettings) (seed : List UInt8) (count : Word) :
    Except Failure String := do
  let reference ← built host { s with runtime := .interpretOnly } seed
  let own ← ran (mismatches reference reference count.toNat)
  let others ← [Runtime.scalarOnly, .vectorOnly].mapM fun runtime => do
    match built host { s with runtime } seed with
    | .error (.notBuilt .notAvailable) => return 0
    | .error f => throw f
    | .ok h =>
        if h.program ≠ reference.program then throw (.differentProgram runtime)
        ran (mismatches h reference count.toNat)
  let all := others.foldl (· + ·) own
  if all ≠ 0 then throw (.digestsDiffer all)
  return "ok\n"

def Command.run (host : Host) (s : BuildSettings) : Command → Except Failure String
  | .hash seed first count => hashRange host s seed first count
  | .verify seed count => verified host s seed count

def Arguments.run (host : Host) (contents : String → Except String String) (a : Arguments) :
    Except Failure String := do
  if a.options.generateConfig then return Settings.default.documented ++ "\n"
  let s ← match a.options.configFile with
    | none => pure .default
    | some path =>
        let text ← (contents path).mapError .unreadable
        match Settings.ofDocument? text with
        | some s => pure s
        | none => throw .notSettings
  match a.command with
  | none => throw .noCommand
  | some command => command.run host (a.options.override s).build

def outcome (host : Host) (contents : String → Except String String) (args : List String) :
    Outcome :=
  match Arguments.ofList args with
  | .error refusal => .ofRefusal refusal
  | .ok a => .ofResult (a.run host contents)

end ProgramHash.CommandLine
