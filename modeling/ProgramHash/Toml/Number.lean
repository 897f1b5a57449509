import ProgramHash.Toml.Text
import ProgramHash.Toml.Value

namespace ProgramHash.Toml

def valueOf (base : Nat) (digits : List Char) : Nat :=
  digits.foldl (fun n c => base * n + (Hex.digitValue? c).getD 0) 0

def isDigitOf (base : Nat) (c : Char) : Bool :=
  match Hex.digitValue? c with
  | some d => d < base
  | none => false

def naturalOf? (base : Nat) (digits : List Char) : Option Nat :=
  if !digits.isEmpty && digits.all (isDigitOf base) then some (valueOf base digits) else none

def integerOf? (base : Nat) : List Char → Option Int
  | '+' :: digits => (naturalOf? base digits).map fun n => (n : Int)
  | '-' :: digits => (naturalOf? base digits).map fun n => -(n : Int)
  | digits => (naturalOf? base digits).map fun n => (n : Int)

-- Every underscore has a digit on either side; whether one stands right before
-- the input is told. No other character is looked at here.
def underscoresFit (isDigit : Char → Bool) (afterDigit : Bool) : List Char → Bool
  | [] => true
  | '_' :: rest => afterDigit && rest.head?.any isDigit && underscoresFit isDigit false rest
  | c :: rest => underscoresFit isDigit (isDigit c) rest

def withoutUnderscores (word : List Char) : String := String.ofList (word.filter (· ≠ '_'))

def isDigitOrUnderscore (c : Char) : Bool := c.isDigit || c = '_'

def afterDigits? (input : List Char) : Option (List Char) :=
  if (input.takeWhile isDigitOrUnderscore).any Char.isDigit then
    some (input.dropWhile isDigitOrUnderscore)
  else none

def hasSpareZero (value : List Char) : Bool :=
  value.head? = some '0' && 1 < (value.takeWhile isDigitOrUnderscore).countP Char.isDigit

def afterFraction? : List Char → Option (List Char)
  | '.' :: rest => afterDigits? rest
  | rest => some rest

def isExponentMark (c : Char) : Bool := c = 'e' || c = 'E'

def afterExponent? : List Char → Option (List Char)
  | [] => some []
  | c :: rest =>
      if isExponentMark c then
        match rest with
        | '+' :: rest | '-' :: rest => afterDigits? rest
        | rest => afterDigits? rest
      else some (c :: rest)

def isFraction (value : List Char) : Bool :=
  !hasSpareZero value &&
    (((afterDigits? value).bind afterFraction?).bind afterExponent?) == some []

def twoDigits? : List Char → Option (Nat × List Char)
  | a :: b :: rest => if a.isDigit && b.isDigit then some (valueOf 10 [a, b], rest) else none
  | _ => none

def daysIn (year month : Nat) : Nat :=
  if month = 2 then if year % 4 = 0 ∧ (year % 100 ≠ 0 ∨ year % 400 = 0) then 29 else 28
  else if month = 4 ∨ month = 6 ∨ month = 9 ∨ month = 11 then 30 else 31

def date? (input : List Char) : Option (List Char) := do
  let (century, rest) ← twoDigits? input
  let (inCentury, rest) ← twoDigits? rest
  let '-' :: rest := rest | none
  let (month, rest) ← twoDigits? rest
  let '-' :: rest := rest | none
  let (day, rest) ← twoDigits? rest
  let year := 100 * century + inCentury
  if 1 ≤ month ∧ month ≤ 12 ∧ 1 ≤ day ∧ day ≤ daysIn year month then some rest else none

def afterSecond? : List Char → Option (List Char)
  | ':' :: rest => do
      let (second, rest) ← twoDigits? rest
      if second ≤ 60 then
        match rest with
        | '.' :: fraction =>
            if (fraction.takeWhile Char.isDigit).isEmpty then none
            else some (fraction.dropWhile Char.isDigit)
        | rest => some rest
      else none
  | rest => some rest

def time? (input : List Char) : Option (List Char) := do
  let (hour, rest) ← twoDigits? input
  let ':' :: rest := rest | none
  let (minute, rest) ← twoDigits? rest
  if hour ≤ 23 ∧ minute ≤ 59 then afterSecond? rest else none

def isOffset : List Char → Bool
  | ['Z'] | ['z'] => true
  | sign :: rest =>
      (sign = '+' || sign = '-') &&
        match twoDigits? rest with
        | some (hour, ':' :: rest) =>
            match twoDigits? rest with
            | some (minute, []) => hour ≤ 23 && minute ≤ 59
            | _ => false
        | _ => false
  | [] => true

def isMoment (input : List Char) : Bool :=
  match date? input with
  | some [] => true
  | some (separator :: rest) =>
      (separator = 'T' || separator = 't' || separator = ' ') &&
        match time? rest with
        | some offset => isOffset offset
        | none => false
  | none => time? input == some []

-- A word that starts with digits, after its sign if it has one. Once an
-- underscore has shown it to be an integer, the rest of it is taken as it is,
-- tabs too but no space: whether it is a number is left to the setting that asks.
def decimal? (word value : List Char) : Option Value :=
  let rest := value.dropWhile Char.isDigit
  if rest.isEmpty then
    if hasSpareZero value then none else some (.integer 10 (String.ofList word))
  else if rest.head? = some '-' ∨ rest.head? = some ':' then
    if isMoment word then some (.moment (String.ofList word)) else none
  else if rest.any fun c => c = '.' || isExponentMark c then
    if isFraction value && underscoresFit Char.isDigit false value then
      some (.fraction (String.ofList word))
    else none
  else if rest.head? = some '_' && value.head? ≠ some '0' && !rest.contains ' ' &&
      underscoresFit (isDigitOf 16) false value then
    some (.integer 10 (withoutUnderscores word))
  else none

def baseOf? : Char → Option Nat
  | 'x' => some 16
  | 'o' => some 8
  | 'b' => some 2
  | _ => none

-- In another base there is no sign, and there may be no digit.
def based? (signed : Bool) (base : Nat) (digits : List Char) : Option Value :=
  if !signed && digits.all (fun c => c = '_' || isDigitOf base c) &&
      underscoresFit (isDigitOf 16) false digits then
    some (.integer base (withoutUnderscores digits))
  else none

def numeral? (signed : Bool) (word value : List Char) : Option Value :=
  match value with
  | '0' :: mark :: digits =>
      match baseOf? mark with
      | some base => based? signed base digits
      | none => decimal? word value
  | c :: _ => if isDigitOrUnderscore c then decimal? word value else none
  | [] => none

def isSpecial (value : List Char) : Bool := value = ['i', 'n', 'f'] || value = ['n', 'a', 'n']

def wordValue? (word : List Char) : Option Value :=
  if word = ['t', 'r', 'u', 'e'] then some (.boolean true)
  else if word = ['f', 'a', 'l', 's', 'e'] then some (.boolean false)
  else
    match word with
    | '+' :: value | '-' :: value =>
        if isSpecial value then some (.fraction (String.ofList word)) else numeral? true word value
    | value =>
        if isSpecial value then some (.fraction (String.ofList word)) else numeral? false word value

end ProgramHash.Toml
