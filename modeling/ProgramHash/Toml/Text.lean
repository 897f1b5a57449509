import ProgramHash.Hex

namespace ProgramHash.Toml

def isBlank (c : Char) : Bool := c = ' ' || c = '\t'

def skipBlank (input : List Char) : List Char := input.dropWhile isBlank

-- Control characters other than the tab stand nowhere in a line.
def isPrintable (c : Char) : Bool := c = '\t' || (' ' ≤ c && c ≠ '\x7f')

def newline? : List Char → Option (List Char)
  | '\n' :: rest => some rest
  | '\r' :: '\n' :: rest => some rest
  | _ => none

def skipComment : List Char → List Char
  | '#' :: rest => rest.dropWhile isPrintable
  | input => input

def lineEnd? (input : List Char) : Option (List Char) :=
  match skipComment (skipBlank input) with
  | [] => some []
  | rest => newline? rest

def scalar? (digits : List Char) : Option Char := do
  let n ← digits.foldlM (fun n c => (Hex.digitValue? c).map (16 * n + ·)) 0
  if n < 0xd800 ∨ (0xdfff < n ∧ n < 0x110000) then some (Char.ofNat n) else none

def shortEscape? : Char → Option Char
  | 'b' => some '\x08'
  | 't' => some '\t'
  | 'e' => some '\x1b'
  | 'n' => some '\n'
  | 'f' => some '\x0c'
  | 'r' => some '\r'
  | '"' => some '"'
  | '\\' => some '\\'
  | _ => none

def consTo (c : Char) (r : Option (List Char × List Char)) : Option (List Char × List Char) :=
  r.map fun (body, rest) => (c :: body, rest)

def quoted : List Char → Option (List Char × List Char)
  | [] => none
  | '"' :: rest => some ([], rest)
  | '\\' :: 'x' :: a :: b :: rest => do consTo (← scalar? [a, b]) (quoted rest)
  | '\\' :: 'u' :: a :: b :: c :: d :: rest => do consTo (← scalar? [a, b, c, d]) (quoted rest)
  | '\\' :: 'U' :: a :: b :: c :: d :: e :: f :: g :: h :: rest => do
      consTo (← scalar? [a, b, c, d, e, f, g, h]) (quoted rest)
  | '\\' :: c :: rest => do consTo (← shortEscape? c) (quoted rest)
  | c :: rest => if isPrintable c then consTo c (quoted rest) else none

def blankToLineEnd (input : List Char) : Bool := (newline? (skipBlank input)).isSome

-- Over several lines a quote counts only in threes, and up to two more may
-- stand before the closing three. A backslash at the end of a line joins the
-- next text to this one, leaving out all space between.
def quotedLines (joining : Bool) : List Char → Option (List Char × List Char)
  | [] => none
  | '"' :: '"' :: '"' :: '"' :: '"' :: rest => some (['"', '"'], rest)
  | '"' :: '"' :: '"' :: '"' :: rest => some (['"'], rest)
  | '"' :: '"' :: '"' :: rest => some ([], rest)
  | '\\' :: 'x' :: a :: b :: rest => do consTo (← scalar? [a, b]) (quotedLines false rest)
  | '\\' :: 'u' :: a :: b :: c :: d :: rest => do
      consTo (← scalar? [a, b, c, d]) (quotedLines false rest)
  | '\\' :: 'U' :: a :: b :: c :: d :: e :: f :: g :: h :: rest => do
      consTo (← scalar? [a, b, c, d, e, f, g, h]) (quotedLines false rest)
  | '\\' :: c :: rest =>
      if blankToLineEnd (c :: rest) then quotedLines true (c :: rest)
      else do consTo (← shortEscape? c) (quotedLines false rest)
  | '\r' :: '\n' :: rest =>
      if joining then quotedLines true rest
      else consTo '\r' (consTo '\n' (quotedLines false rest))
  | c :: rest =>
      if joining && (isBlank c || c = '\n') then quotedLines true rest
      else if isPrintable c || c = '\n' then consTo c (quotedLines false rest)
      else none

def apostrophe : Char := Char.ofNat 39

def literal : List Char → Option (List Char × List Char)
  | [] => none
  | c :: rest =>
      if c = apostrophe then some ([], rest)
      else if isPrintable c then consTo c (literal rest)
      else none

def countLeading (c : Char) (input : List Char) : Nat := (input.takeWhile (· = c)).length

def literalLines : List Char → Option (List Char × List Char)
  | [] => none
  | c :: rest =>
      if c = apostrophe ∧ 2 ≤ countLeading apostrophe rest then
        let extra := min 2 (countLeading apostrophe rest - 2)
        some (List.replicate extra apostrophe, rest.drop (2 + extra))
      else if isPrintable c || c = '\n' || (c = '\r' && rest.head? = some '\n') then
        consTo c (literalLines rest)
      else none

def dropFirstNewline (input : List Char) : List Char := (newline? input).getD input

def text? : List Char → Option (String × List Char)
  | '"' :: '"' :: '"' :: rest =>
      (quotedLines false (dropFirstNewline rest)).map fun (body, rest) => (String.ofList body, rest)
  | '"' :: rest => (quoted rest).map fun (body, rest) => (String.ofList body, rest)
  | c :: rest =>
      if c = apostrophe then
        if 2 ≤ countLeading apostrophe rest then
          (literalLines (dropFirstNewline (rest.drop 2))).map fun (body, rest) =>
            (String.ofList body, rest)
        else (literal rest).map fun (body, rest) => (String.ofList body, rest)
      else none
  | [] => none

def isBareKey (c : Char) : Bool := c.isAlphanum || c = '_' || c = '-'

def keyPart? : List Char → Option (String × List Char)
  | '"' :: rest => (quoted rest).map fun (body, rest) => (String.ofList body, rest)
  | c :: rest =>
      if c = apostrophe then (literal rest).map fun (body, rest) => (String.ofList body, rest)
      else if isBareKey c then
        some (String.ofList ((c :: rest).takeWhile isBareKey), (c :: rest).dropWhile isBareKey)
      else none
  | [] => none

def dottedKey? : Nat → List Char → Option ((List String × String) × List Char)
  | 0, _ => none
  | left + 1, input => do
      let (part, rest) ← keyPart? (skipBlank input)
      match skipBlank rest with
      | '.' :: rest => do
          let ((parts, last), rest) ← dottedKey? left rest
          return ((part :: parts, last), rest)
      | rest => return (([], part), rest)

def keyPartLimit : Nat := 80

def key? (input : List Char) : Option ((List String × String) × List Char) :=
  dottedKey? keyPartLimit input

end ProgramHash.Toml
