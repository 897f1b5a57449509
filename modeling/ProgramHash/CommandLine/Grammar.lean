namespace ProgramHash.CommandLine

inductive Page where
  | main | hash | verify | help
  deriving DecidableEq, Repr

inductive Refusal where
  | page (p : Page)
  | version
  | nothingGiven
  | unknownArgument
  | unknownCommand
  | optionMissing
  | optionRepeated
  | valueMissing
  | valueNotAllowed
  | valueMalformed
  | valueForFlag
  deriving DecidableEq, Repr

def Refusal.isAnswer : Refusal → Bool
  | .page _ | .version => true
  | _ => false

inductive Shape where
  | separator
  | long (name : List Char) (value : Option (List Char))
  | short (first : Char)
  | plain
  deriving DecidableEq, Repr

def Shape.ofText : List Char → Shape
  | ['-', '-'] => .separator
  | '-' :: '-' :: rest =>
      let name := rest.takeWhile (· ≠ '=')
      .long name (match rest.drop name.length with
        | _ :: value => some value
        | [] => none)
  | '-' :: c :: _ => .short c
  | _ => .plain

inductive Effect (α : Type) where
  | flag (set : α → α)
  | value (set : α → String → Except Refusal α)
  | ask (answer : Refusal)

structure Grammar (α : Type) where
  options : List (String × Effect α)
  letters : List (Char × Refusal)
  commands : List String
  stray : Refusal

-- An option whose value is a separate argument is only carried out when the
-- next option or the end of the arguments is reached. Until then it waits, first
-- for its value.
structure Waiting (α : Type) where
  name : String
  set : α → String → Except Refusal α
  value : Option String

structure Progress (α : Type) where
  record : α
  given : List String
  waiting : Option (Waiting α)

namespace Progress

variable {α : Type}

def start (record : α) : Progress α := ⟨record, [], none⟩

def give (s : Progress α) (name : String) (set : α → Except Refusal α) :
    Except Refusal (Progress α) := do
  if s.given.contains name then throw .optionRepeated
  return { s with record := ← set s.record, given := s.given ++ [name] }

def settle (s : Progress α) : Except Refusal (Progress α) :=
  match s.waiting with
  | none => .ok s
  | some w =>
      match w.value with
      | none => .error .valueMissing
      | some v => { s with waiting := none }.give w.name (fun record => w.set record v)

def apply (s : Progress α) (name : String) (value : Option String) :
    Effect α → Except Refusal (Progress α)
  | .value set =>
      match value with
      | some v => do (← s.settle).give name (fun record => set record v)
      | none => do return { (← s.settle) with waiting := some ⟨name, set, none⟩ }
  | .flag set =>
      if value.isSome then .error .valueForFlag
      else do (← s.settle).give name (fun record => .ok (set record))
  | .ask answer =>
      if value.isSome then .error .valueForFlag
      else do
        let _ ← s.settle
        throw answer

end Progress

namespace Grammar

variable {α : Type}

def long (g : Grammar α) (s : Progress α) (name : String) (value : Option String) :
    Except Refusal (Progress α) :=
  match g.options.find? fun o => o.1 = name with
  | some (_, effect) => s.apply name value effect
  | none => .error .unknownArgument

def short (g : Grammar α) (s : Progress α) (c : Char) : Except Refusal (Progress α) :=
  match g.letters.find? fun l => l.1 = c with
  | some (_, answer) => s.apply "" none (.ask answer)
  | none => .error .unknownArgument

def afterSeparator (g : Grammar α) (s : Progress α) : List String → Except Refusal (Progress α)
  | [] => .ok s
  | arg :: _ => .error (if g.commands.contains arg then .unknownArgument else g.stray)

-- Reads arguments up to the name of a command. An option that waits for its
-- value takes the next text that does not look like an option, so that a command
-- may only be named where none waits.
def scan (g : Grammar α) (s : Progress α) :
    List String → Except Refusal (Progress α × Option (String × List String))
  | [] => .ok (s, none)
  | arg :: rest =>
      let taking := s.waiting.filter fun w => w.value.isNone
      if taking.isNone && g.commands.contains arg then .ok (s, some (arg, rest))
      else
        match Shape.ofText arg.toList with
        | .separator => (g.afterSeparator s rest).map fun s => (s, none)
        | .long name value => do
            let s ← g.long s (String.ofList name) (value.map String.ofList)
            g.scan s rest
        | .short c => do
            let s ← g.short s c
            g.scan s rest
        | .plain =>
            match taking with
            | some w => g.scan { s with waiting := some { w with value := some arg } } rest
            | none => .error g.stray

end Grammar

end ProgramHash.CommandLine
