import ProgramHash.Hasher
import ProgramHash.Toml.Document

namespace ProgramHash

inductive LogLevel where
  | off | error | warn | info | debug | trace
  deriving DecidableEq, Repr

-- A number as it is given on the command line and for levels: digits after an
-- optional plus sign.
def naturalOfText? (s : String) : Option Nat :=
  let digits := match s.toList with
    | '+' :: rest => rest
    | all => all
  Toml.naturalOf? 10 digits

namespace LogLevel

def all : List LogLevel := [.off, .error, .warn, .info, .debug, .trace]

def name : LogLevel → String
  | .off => "off"
  | .error => "error"
  | .warn => "warn"
  | .info => "info"
  | .debug => "debug"
  | .trace => "trace"

def ofText? (s : String) : Option LogLevel :=
  match naturalOfText? s with
  | some n => all[n]?
  | none => if s.isEmpty then some .error else all.find? fun l => l.name = s.map Char.toLower

end LogLevel

structure Settings where
  level : LogLevel
  build : BuildSettings
  deriving DecidableEq, Repr

namespace Settings

def default : Settings := ⟨.info, .default⟩

end Settings

namespace Toml

-- The fields of a record, by name from a table or by position from an array. A
-- field left out keeps its value; items of an array past the fields are not
-- looked at, and a name that is no field is refused.
def readRecord {α : Type} (fields : List (String × (α → Value → Option α))) (start : α) :
    Value → Option α
  | .table _ entries => entries.foldlM (fun a (key, v) => do
      let (_, set) ← fields.find? fun f => f.1 = key
      set a v) start
  | .array items => (fields.zip items).foldlM (fun a (f, v) => f.2 a v) start
  | .tables items => (fields.zip items).foldlM (fun a (f, e) => f.2 a (.table .header e)) start
  | _ => none

def Value.isEmptyCollection : Value → Bool
  | .table _ [] | .array [] => true
  | _ => false

def readName {α : Type} (ofName? : String → Option α) : Value → Option α
  | .text s => ofName? s
  | .table _ [(name, v)] => if v.isEmptyCollection then ofName? name else none
  | _ => none

end Toml

namespace BuildSettings

open Toml

def attemptsLimit : Nat := 0x100000000

def fields : List (String × (BuildSettings → Value → Option BuildSettings)) :=
  [("runtime", fun s v => (readName Runtime.ofName? v).map fun runtime => { s with runtime }),
   ("generation_attempts", fun s v => match v with
      | .integer base digits => do
          let n ← integerOf? base digits.toList
          if 0 ≤ n ∧ n < attemptsLimit then some { s with attempts := n.toNat } else none
      | _ => none)]

def ofDocument? (document : String) : Option BuildSettings := do
  readRecord fields .default (.table .header (← read? document))

def document (s : BuildSettings) : String :=
  "runtime = \"" ++ s.runtime.name ++ "\"\n" ++
    "generation_attempts = " ++ toString s.attempts ++ "\n"

end BuildSettings

namespace Settings

open Toml

def levelFields : List (String × (LogLevel → Value → Option LogLevel)) :=
  [("level", fun _ v => match v with
      | .text s => LogLevel.ofText? s
      | _ => none)]

def fields : List (String × (Settings → Value → Option Settings)) :=
  [("tracing", fun s v => (readRecord levelFields Settings.default.level v).map fun level =>
      { s with level }),
   ("hashx", fun s v => (readRecord BuildSettings.fields .default v).map fun build =>
      { s with build })]

def ofDocument? (document : String) : Option Settings := do
  readRecord fields .default (.table .header (← read? document))

def runtimeLabel : Runtime → String
  | .interpretOnly => "InterpretOnly"
  | .scalarOnly => "ScalarOnly"
  | .vectorOnly => "VectorOnly"
  | .tryCompile => "TryCompile"

def levelLabel (l : LogLevel) : String := "LevelFilter::" ++ l.name.map Char.toUpper

def report (s : Settings) : String := String.join [
  "========== CONFIGURATION ==========\n",
  "Config \x7b\n",
  "    tracing: TracingConfig \x7b\n",
  "        level: ", levelLabel s.level, ",\n",
  "    \x7d,\n",
  "    hashx: RuntimeConfig \x7b\n",
  "        runtime: ", runtimeLabel s.build.runtime, ",\n",
  "        generation_attempts: ", toString s.build.attempts, ",\n",
  "    \x7d,\n",
  "\x7d\n",
  "===================================\n"]

structure Explained where
  comment : List String
  line : String

def commentLine (s : String) : String := if s.isEmpty then "##\n" else "## " ++ s ++ "\n"

def Explained.text (e : Explained) : String :=
  String.join (e.comment.map commentLine) ++ e.line ++ "\n"

def documentHead : List String :=
  ["hashx config", "", "All these config values can be set to",
   "their default by commenting them out with '#'."]

def levelSection (l : LogLevel) : List Explained :=
  [⟨["Configuration for the logging system, tracing."], "[tracing]"⟩,
   ⟨["The minimum log level, logs go to stderr.", "",
     "Levels below this one will not be shown.",
     "\"error\" is the highest level only showing errors,",
     "\"trace\" is the lowest showing every scheduler stall.", "",
     "Type         | Level",
     "Valid values | \"off\", \"error\", \"warn\", \"info\", \"debug\", \"trace\""],
    "level = \"" ++ l.name ++ "\""⟩]

def buildSection (b : BuildSettings) : List Explained :=
  [⟨["Configuration for building hash instances."], "[hashx]"⟩,
   ⟨["Which implementation runs the generated programs.", "",
     "\"try_compile\" picks the fastest one this CPU supports,",
     "the other values fail if the runtime is unavailable.", "",
     "Type         | String",
     "Valid values | \"interpret_only\", \"scalar_only\", \"vector_only\", \"try_compile\""],
    "runtime = \"" ++ b.runtime.name ++ "\""⟩,
   ⟨["How many salted random streams to try per seed.", "",
     "A few seeds produce no valid program on the first",
     "attempt, every extra attempt makes that rarer.", "",
     "Type         | Number", "Valid values | >= 1", "Examples     | 1, 4, 16"],
    "generation_attempts = " ++ toString b.attempts⟩]

def documented (s : Settings) : String :=
  String.join (documentHead.map commentLine) ++ "\n" ++
    "\n" ++ String.join ((levelSection s.level).map Explained.text) ++
    "\n" ++ String.join ((buildSection s.build).map Explained.text)

end Settings

end ProgramHash
