import ProgramHash.Toml.Number
import ProgramHash.Toml.Value

namespace ProgramHash.Toml

def wordEnds : List Char := ['=', ',', '[', ']', '{', '}', ' ', '\t', '#', '\r', '\n']

def isWordCharacter (c : Char) : Bool := !wordEnds.contains c

def isQuote (c : Char) : Bool := c = '"' || c = apostrophe

-- A word goes on after blank space, as a date does with its time, unless a
-- quoted text comes next. The gap is the blank space since its last character.
def wordAfter (gap : List Char) : List Char → List Char × List Char
  | [] => ([], gap)
  | c :: rest =>
      if isBlank c then wordAfter (gap ++ [c]) rest
      else if isWordCharacter c && (gap.isEmpty || !isQuote c) then
        let (more, rest) := wordAfter [] rest
        (gap ++ c :: more, rest)
      else ([], gap ++ c :: rest)

def word (input : List Char) : List Char × List Char := wordAfter [] input

def skipLinesFrom (inComment : Bool) : List Char → List Char
  | '\n' :: rest => skipLinesFrom false rest
  | '\r' :: '\n' :: rest => skipLinesFrom false rest
  | c :: rest =>
      if inComment then if isPrintable c then skipLinesFrom true rest else c :: rest
      else if isBlank c then skipLinesFrom false rest
      else if c = '#' then skipLinesFrom true rest
      else c :: rest
  | [] => []

def skipLines (input : List Char) : List Char := skipLinesFrom false input

def nestingLimit : Nat := 80

mutual

def value? : Nat → Nat → List Char → Option (Value × List Char)
  | 0, _, _ => none
  | fuel + 1, room, input =>
      match input, room with
      | '[' :: _, 0 | '{' :: _, 0 => none
      | '[' :: rest, room + 1 =>
          (items? fuel room (skipLines rest)).map fun (l, rest) => (.array l, rest)
      | '{' :: rest, room + 1 =>
          (fields? fuel room [] (skipLines rest)).map fun (e, rest) => (.table .inline e, rest)
      | input, _ =>
          match text? input with
          | some (s, rest) => some (.text s, rest)
          | none =>
              let (w, rest) := word input
              (wordValue? w).map fun v => (v, rest)

def items? : Nat → Nat → List Char → Option (List Value × List Char)
  | 0, _, _ => none
  | fuel + 1, room, input =>
      match input with
      | ']' :: rest => some ([], rest)
      | input => do
          let (v, rest) ← value? fuel room input
          match skipLines rest with
          | ']' :: rest => return ([v], rest)
          | ',' :: rest => do
              let (l, rest) ← items? fuel room (skipLines rest)
              return (v :: l, rest)
          | _ => none

def fields? : Nat → Nat → Entries → List Char → Option (Entries × List Char)
  | 0, _, _, _ => none
  | fuel + 1, room, entries, input =>
      match input with
      | '}' :: rest => some (entries, rest)
      | input => do
          let ((path, key), rest) ← key? input
          let '=' :: rest := skipLines rest | none
          let (v, rest) ← value? fuel room (skipLines rest)
          let entries ← entries.insert path key v
          match skipLines rest with
          | '}' :: rest => return (entries, rest)
          | ',' :: rest => fields? fuel room entries (skipLines rest)
          | _ => none

end

structure Reading where
  root : Entries
  current : List String

namespace Reading

def header (s : Reading) (array : Bool) (path : List String) (key : String) : Option Reading := do
  let root ← Entries.descend (if array then Entries.openNext else Entries.openTable) path key s.root
  return ⟨root, path ++ [key]⟩

def assign (s : Reading) (path : List String) (key : String) (v : Value) : Option Reading := do
  let root ← s.root.within s.current (Entries.insert path key v)
  return { s with root }

def line? (fuel : Nat) (s : Reading) (input : List Char) : Option (Reading × List Char) :=
  match lineEnd? input with
  | some rest => some (s, rest)
  | none =>
      match skipBlank input with
      | '[' :: '[' :: rest => do
          let ((path, key), rest) ← key? rest
          let ']' :: ']' :: rest := rest | none
          let s ← s.header true path key
          return (s, ← lineEnd? rest)
      | '[' :: rest => do
          let ((path, key), rest) ← key? rest
          let ']' :: rest := rest | none
          let s ← s.header false path key
          return (s, ← lineEnd? rest)
      | input => do
          let ((path, key), rest) ← key? input
          let '=' :: rest := rest | none
          let (v, rest) ← value? fuel nestingLimit (skipBlank rest)
          let s ← s.assign path key v
          return (s, ← lineEnd? rest)

def lines? : Nat → Reading → List Char → Option Reading
  | 0, s, input => if input.isEmpty then some s else none
  | fuel + 1, s, input => do
      if input.isEmpty then return s
      let (s, rest) ← s.line? (fuel + 1) input
      lines? fuel s rest

end Reading

def byteOrderMark : Char := Char.ofNat 0xfeff

-- The table that a document describes. Every line uses up a character at least.
def read? (document : String) : Option Entries :=
  let input := document.toList
  let input := if input.head? = some byteOrderMark then input.drop 1 else input
  (Reading.lines? input.length ⟨[], []⟩ input).map (·.root)

end ProgramHash.Toml
