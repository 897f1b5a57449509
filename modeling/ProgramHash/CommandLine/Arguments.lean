import ProgramHash.CommandLine.Grammar
import ProgramHash.Settings

namespace ProgramHash.CommandLine

structure Options where
  configFile : Option String
  generateConfig : Bool
  level : Option LogLevel
  runtime : Option Runtime
  deriving DecidableEq, Repr

inductive Command where
  | hash (seed : List UInt8) (nonce count : Word)
  | verify (seed : List UInt8) (nonces : Word)
  deriving DecidableEq, Repr

structure Arguments where
  options : Options
  command : Option Command
  deriving DecidableEq, Repr

def Options.empty : Options := ⟨none, false, none, none⟩

def Options.override (o : Options) (s : Settings) : Settings :=
  { s with
    level := o.level.getD s.level
    build := { s.build with runtime := o.runtime.getD s.build.runtime } }

def wordOfText? (text : String) : Option Word :=
  match naturalOfText? text with
  | some n => if n < UInt64.size then some (UInt64.ofNat n) else none
  | none => none

def orRefuse {α : Type} (refusal : Refusal) : Option α → Except Refusal α
  | some value => .ok value
  | none => .error refusal

def wordValue {α : Type} (set : α → Word → α) : Effect α :=
  .value fun record text => do
    return set record (← orRefuse .valueMalformed (wordOfText? text))

def seedValue {α : Type} (set : α → List UInt8 → α) : Effect α :=
  .value fun record text => do
    return set record (← orRefuse .valueMalformed (Hex.decode? text))

def mainGrammar : Grammar Options where
  options := [
    ("config-file", .value fun o path =>
      if path.isEmpty then .error .valueNotAllowed else .ok { o with configFile := some path }),
    ("generate-config", .flag fun o => { o with generateConfig := true }),
    ("log-level", .value fun o text => do
      return { o with level := some (← orRefuse .valueMalformed (LogLevel.ofText? text)) }),
    ("runtime", .value fun o text => do
      return { o with runtime := some (← orRefuse .valueNotAllowed (Runtime.ofName? text)) }),
    ("help", .ask (.page .main)),
    ("version", .ask .version)]
  letters := [('h', .page .main), ('V', .version)]
  commands := ["hash", "verify", "help"]
  stray := .unknownCommand

structure Request where
  seed : Option (List UInt8)
  first : Word
  count : Word
  deriving DecidableEq, Repr

def hashGrammar : Grammar Request where
  options := [
    ("seed", seedValue fun r seed => { r with seed := some seed }),
    ("nonce", wordValue fun r first => { r with first }),
    ("count", wordValue fun r count => { r with count }),
    ("help", .ask (.page .hash))]
  letters := [('h', .page .hash)]
  commands := []
  stray := .unknownArgument

def verifyGrammar : Grammar Request where
  options := [
    ("seed", seedValue fun r seed => { r with seed := some seed }),
    ("nonces", wordValue fun r count => { r with count }),
    ("help", .ask (.page .verify))]
  letters := [('h', .page .verify)]
  commands := []
  stray := .unknownArgument

def readRequest (g : Grammar Request) (start : Request) (args : List String) :
    Except Refusal (List UInt8 × Request) := do
  let (s, _) ← g.scan (.start start) args
  let s ← s.settle
  match s.record.seed with
  | some seed => return (seed, s.record)
  | none => throw .optionMissing

def pageOf : List String → Refusal
  | [] => .page .main
  | ["hash"] => .page .hash
  | ["verify"] => .page .verify
  | ["help"] => .page .help
  | _ => .unknownCommand

def readCommand (name : String) (args : List String) : Except Refusal Command := do
  if name = "hash" then
    let (seed, r) ← readRequest hashGrammar ⟨none, 0, 1⟩ args
    return .hash seed r.first r.count
  else if name = "verify" then
    let (seed, r) ← readRequest verifyGrammar ⟨none, 0, 256⟩ args
    return .verify seed r.count
  else throw (pageOf args)

-- The command is read to its end before a last option ahead of it is settled.
def Arguments.ofList (args : List String) : Except Refusal Arguments := do
  let (s, named) ← mainGrammar.scan (.start .empty) args
  match named with
  | some (name, rest) =>
      let command ← readCommand name rest
      return ⟨(← s.settle).record, some command⟩
  | none =>
      let s ← s.settle
      if s.given.isEmpty then throw .nothingGiven
      return ⟨s.record, none⟩

end ProgramHash.CommandLine
