namespace ProgramHash.Toml

-- How a table came to be decides what later lines may add to it: a header may
-- still be given for a table that was only implied by a longer header, dotted
-- keys add only to tables that dotted keys made, and an inline table is closed.
inductive Origin where
  | header | implied | dotted | inline
  deriving DecidableEq, Repr

-- Numbers, dates and times are kept as they are written. An integer is worked out
-- when a setting asks for it, and only then has to be one.
inductive Value where
  | text (s : String)
  | integer (base : Nat) (digits : String)
  | boolean (b : Bool)
  | fraction (s : String)
  | moment (s : String)
  | array (items : List Value)
  | table (origin : Origin) (entries : List (String × Value))
  | tables (items : List (List (String × Value)))
  deriving Inhabited

abbrev Entries := List (String × Value)

namespace Entries

def lookup (e : Entries) (key : String) : Option Value := (e.find? fun p => p.1 = key).map (·.2)

def add (e : Entries) (key : String) (v : Value) : Entries := e ++ [(key, v)]

def replace (e : Entries) (key : String) (v : Value) : Entries :=
  e.map fun p => if p.1 = key then (key, v) else p

def intoLast (f : Entries → Option Entries) : List Entries → Option (List Entries)
  | [] => none
  | [last] => (f last).map fun e => [e]
  | first :: rest => (intoLast f rest).map (first :: ·)

def insert : List String → String → Value → Entries → Option Entries
  | [], key, v, e => if (e.lookup key).isSome then none else some (e.add key v)
  | step :: more, key, v, e =>
      match e.lookup step with
      | none => (insert more key v []).map fun inner => e.add step (.table .dotted inner)
      | some (.table .dotted inner) =>
          (insert more key v inner).map fun inner => e.replace step (.table .dotted inner)
      | some (.table .implied inner) =>
          if more.isEmpty then none
          else (insert more key v inner).map fun inner => e.replace step (.table .implied inner)
      | some (.tables items) =>
          if more.isEmpty then none
          else (intoLast (insert more key v) items).map fun items => e.replace step (.tables items)
      | some _ => none

def descend (atEnd : String → Entries → Option Entries) :
    List String → String → Entries → Option Entries
  | [], key, e => atEnd key e
  | step :: more, key, e =>
      match e.lookup step with
      | none => (descend atEnd more key []).map fun inner => e.add step (.table .implied inner)
      | some (.table .inline _) => none
      | some (.table origin inner) =>
          (descend atEnd more key inner).map fun inner => e.replace step (.table origin inner)
      | some (.tables items) =>
          (intoLast (descend atEnd more key) items).map fun items => e.replace step (.tables items)
      | some _ => none

def openTable (key : String) (e : Entries) : Option Entries :=
  match e.lookup key with
  | none => some (e.add key (.table .header []))
  | some (.table .implied inner) => some (e.replace key (.table .header inner))
  | some _ => none

def openNext (key : String) (e : Entries) : Option Entries :=
  match e.lookup key with
  | none => some (e.add key (.tables [[]]))
  | some (.tables items) => some (e.replace key (.tables (items ++ [[]])))
  | some _ => none

def within : List String → (Entries → Option Entries) → Entries → Option Entries
  | [], f, e => f e
  | step :: more, f, e =>
      match e.lookup step with
      | some (.table origin inner) =>
          (within more f inner).map fun inner => e.replace step (.table origin inner)
      | some (.tables items) =>
          (intoLast (within more f) items).map fun items => e.replace step (.tables items)
      | _ => none

end Entries

end ProgramHash.Toml
