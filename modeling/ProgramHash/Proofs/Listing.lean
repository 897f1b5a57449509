import Mathlib.Algebra.GroupWithZero.Nat
import ProgramHash.Program
import ProgramHash.Proofs.Places

-- Listings read back. A line feed ends a line and a space a word, and neither stands in a
-- word. The words of a line tell its instruction: where two instructions share a
-- mnemonic, they differ in the number of words or in the form of the last one.
namespace ProgramHash

namespace Hex

def value (digits : List Char) : Nat :=
  digits.foldl (fun n c => 16 * n + (digitValue? c).getD 0) 0

theorem digitValue_digit : ∀ n < 16, digitValue? (digit n) = some n := by decide

theorem value_fixed (places n : Nat) : value (fixed places n) = n % 16 ^ places := by
  induction places generalizing n with
  | zero => simp [fixed, value, Nat.mod_one]
  | succ places ih =>
      have last := digitValue_digit (n % 16) (Nat.mod_lt _ (by decide))
      have front : (fixed places (n / 16)).foldl (fun n c => 16 * n + (digitValue? c).getD 0) 0 =
          n / 16 % 16 ^ places := ih (n / 16)
      rw [fixed, value, List.foldl_append, front, List.foldl_cons, List.foldl_nil, last, Option.getD_some,
        Nat.pow_succ', Nat.mod_mul]
      exact Nat.add_comm _ _

end Hex

namespace Instruction

section Words

def Whole (word : String) : Prop := ∀ c ∈ word.toList, c ≠ ' ' ∧ c ≠ '\n'

-- Decided along the word, and not over all letters that there are.
instance (word : String) : Decidable (Whole word) :=
  List.decidableBAll (fun c => c ≠ ' ' ∧ c ≠ '\n') word.toList

theorem Whole.append {front back : String} (first : Whole front) (second : Whole back) :
    Whole (front ++ back) := by
  intro c member
  rw [String.toList_append] at member
  rcases List.mem_append.mp member with member | member
  · exact first c member
  · exact second c member

theorem whole_name : ∀ r : Register, Whole r.name := by decide

theorem not_mem_repr {c : Char} (other : c.isDigit = false) (n : Nat) : c ∉ n.repr.toList := by
  intro member
  rw [Nat.toList_repr] at member
  rw [Nat.isDigit_of_mem_toDigits (by decide) (by decide) member] at other
  cases other

theorem whole_repr (n : Nat) : Whole n.repr := by
  intro c member
  refine ⟨?_, ?_⟩ <;> (rintro rfl; exact not_mem_repr rfl n member)

theorem whole_decimal (n : Int) : Whole (decimal n) := by
  unfold decimal
  split
  · exact Whole.append (by decide) (whole_repr _)
  · exact whole_repr _

theorem whole_fixed (places n : Nat) : Whole (String.ofList (Hex.fixed places n)) := by
  have digits : ∀ k < 16, Hex.digit k ≠ ' ' ∧ Hex.digit k ≠ '\n' := by decide
  induction places generalizing n with
  | zero => exact fun c member => (List.not_mem_nil member).elim
  | succ places ih =>
      rw [Hex.fixed, String.ofList_append]
      refine (ih _).append fun c last => ?_
      rw [String.toList_ofList, List.mem_singleton] at last
      rw [last]
      exact digits _ (Nat.mod_lt _ (by decide))

def words : Instruction → List String
  | .mul d s => ["mul", d.name ++ ",", s.name]
  | .umulh d s => ["umulh", d.name ++ ",", s.name]
  | .smulh d s => ["smulh", d.name ++ ",", s.name]
  | .addShift d s shift => ["add", d.name ++ ",", s.name, "<<", toString shift.toNat]
  | .addConst d immediate => ["add", d.name ++ ",", decimal immediate.toInt]
  | .sub d s => ["sub", d.name ++ ",", s.name]
  | .xor d s => ["xor", d.name ++ ",", s.name]
  | .xorConst d immediate => ["xor", d.name ++ ",", decimal immediate.toInt]
  | .rotate d amount => ["ror", d.name ++ ",", toString amount.toNat]
  | .target => ["target:"]
  | .branch mask => ["branch", "0x" ++ String.ofList (Hex.fixed 8 mask.toNat)]

theorem text_words (i : Instruction) : i.text = " ".intercalate i.words := by
  refine String.toList_injective ?_
  cases i <;> simp [text, words]

theorem words_ne_nil (i : Instruction) : i.words ≠ [] := by
  cases i <;> exact List.cons_ne_nil _ _

theorem words_whole (i : Instruction) : ∀ word ∈ i.words, Whole word := by
  have mnemonic : ∀ word ∈ ["mul", "umulh", "smulh", "add", "sub", "xor", "ror", "target:", "branch", "<<"],
      Whole word := by decide
  have comma : Whole "," := by decide
  have hex : Whole "0x" := by decide
  simp only [List.mem_cons, List.not_mem_nil, or_false, forall_eq_or_imp, forall_eq] at mnemonic
  cases i <;> simp [words, mnemonic, whole_name, whole_repr, whole_decimal, whole_fixed, comma, hex,
    Whole.append]

theorem text_whole (i : Instruction) : '\n' ∉ i.text.toList := by
  rw [text_words, String.toList_intercalate]
  intro member
  rcases mem_intercalate member with space | ⟨_, inside, member⟩
  · exact absurd space (by decide)
  · obtain ⟨word, known, rfl⟩ := List.mem_map.mp inside
    exact (words_whole i word known _ member).2 rfl

theorem splitOn_text (i : Instruction) : (i.text.toList.splitOn ' ').map String.ofList = i.words := by
  have spaceless : ∀ l ∈ i.words.map String.toList, ' ' ∉ l := by
    intro l member space
    obtain ⟨word, known, rfl⟩ := List.mem_map.mp member
    exact (words_whole i word known _ space).1 rfl
  have nonempty : i.words.map String.toList ≠ [] := by simpa using words_ne_nil i
  rw [text_words, String.toList_intercalate]
  rw [show " ".toList = [' '] from rfl, List.splitOn_intercalate ' ' spaceless nonempty, List.map_map]
  simp [Function.comp_def]

end Words

section Reading

def number (digits : List Char) : Nat := Nat.ofDigitChars 10 digits 0

def signed : List Char → Int
  | '-' :: digits => -number digits
  | digits => number digits

theorem number_digits (n : Nat) : number (Nat.toDigits 10 n) = n := Nat.ofDigitChars_ten_toDigits

theorem decimal_toList (n : Int) : (decimal n).toList =
    if n < 0 then '-' :: n.natAbs.repr.toList else n.natAbs.repr.toList := by
  unfold decimal
  split
  · rw [String.toList_append]
    rfl
  · rfl

theorem signed_decimal (n : Int) : signed (decimal n).toList = n := by
  have digits := number_digits n.natAbs
  rw [← Nat.toList_repr] at digits
  rw [decimal_toList]
  split
  · rw [signed, digits]
    omega
  · unfold signed
    split
    · rename_i tail signless
      exact absurd (signless ▸ List.mem_cons_self) (not_mem_repr (c := '-') rfl n.natAbs)
    · omega

def named? (word : String) : Option Register := Register.all.find? fun r => r.name = word

def destinationNamed? (word : String) : Option Register :=
  Register.all.find? fun r => r.name ++ "," = word

theorem named_name : ∀ r : Register, named? r.name = some r := by decide

theorem destinationNamed_name : ∀ r : Register, destinationNamed? (r.name ++ ",") = some r := by decide

theorem named_decimal (n : Int) : named? (decimal n) = none := by
  have letter : ∀ r : Register, 'r' ∈ r.name.toList := by decide
  have digits : 'r' ∉ n.natAbs.repr.toList := not_mem_repr rfl _
  refine List.find?_eq_none.mpr fun r _ same => ?_
  have member := letter r
  rw [of_decide_eq_true same, decimal_toList] at member
  split at member
  · exact digits (List.mem_of_ne_of_mem (by decide) member)
  · exact digits member

def mask (word : String) : UInt32 := UInt32.ofNat (Hex.value (word.toList.drop 2))

theorem mask_text (m : UInt32) : mask ("0x" ++ String.ofList (Hex.fixed 8 m.toNat)) = m := by
  have fits : m.toNat % 16 ^ 8 = m.toNat := Nat.mod_eq_of_lt m.toNat_lt
  have digits (l : List Char) : ("0x" ++ String.ofList l).toList.drop 2 = l := by simp
  rw [mask, digits, Hex.value_fixed, fits, UInt32.ofNat_toNat]

-- An exclusive or with a register is told from one with a constant by its operand. No
-- other mnemonic is shared by lines of the same number of words.
def ofWords? : List String → Option Instruction
  | ["mul", d, s] => return .mul (← destinationNamed? d) (← named? s)
  | ["umulh", d, s] => return .umulh (← destinationNamed? d) (← named? s)
  | ["smulh", d, s] => return .smulh (← destinationNamed? d) (← named? s)
  | ["add", d, s, "<<", shift] =>
      return .addShift (← destinationNamed? d) (← named? s) (UInt8.ofNat (number shift.toList))
  | ["add", d, immediate] =>
      return .addConst (← destinationNamed? d) (Int32.ofInt (signed immediate.toList))
  | ["sub", d, s] => return .sub (← destinationNamed? d) (← named? s)
  | ["xor", d, operand] => do
      let dst ← destinationNamed? d
      match named? operand with
      | some src => return .xor dst src
      | none => return .xorConst dst (Int32.ofInt (signed operand.toList))
  | ["ror", d, amount] => return .rotate (← destinationNamed? d) (UInt8.ofNat (number amount.toList))
  | ["target:"] => some .target
  | ["branch", m] => some (.branch (mask m))
  | _ => none

theorem ofWords_words (i : Instruction) : ofWords? i.words = some i := by
  cases i <;> simp [words, ofWords?, destinationNamed_name, named_name, named_decimal, number_digits,
    signed_decimal, mask_text]

def ofText? (line : String) : Option Instruction :=
  ofWords? ((line.toList.splitOn ' ').map String.ofList)

theorem ofText_text (i : Instruction) : ofText? i.text = some i := by
  rw [ofText?, splitOn_text, ofWords_words]

def lines (text : String) : List String :=
  let pieces := text.toList.splitOn '\n'
  (if pieces.getLast? = some [] then pieces.dropLast else pieces).map String.ofList

theorem splitOn_listing (program : List Instruction) :
    (listing program).toList.splitOn '\n' = program.map (fun i => i.text.toList) ++ [[]] := by
  induction program with
  | nil => rfl
  | cons i program ih =>
      have first : (listing (i :: program)).toList = i.text.toList ++ '\n' :: (listing program).toList := by
        simp [listing]
      rw [first, List.splitOn_append_cons_self_of_not_mem (text_whole i), ih]
      rfl

theorem lines_listing (program : List Instruction) : lines (listing program) = program.map text := by
  rw [lines, splitOn_listing]
  simp [Function.comp_def]

def ofListing? (text : String) : Option (List Instruction) := (lines text).mapM ofText?

theorem ofListing_listing (program : List Instruction) : ofListing? (listing program) = some program := by
  rw [ofListing?, lines_listing, List.mapM_map]
  induction program with
  | nil => rfl
  | cons i program ih =>
      rw [List.mapM_cons, Function.comp_apply, ofText_text, ih]
      rfl

end Reading

-- A listing can be read back, so that no two programs have the same one, and it has one
-- line for every instruction.
theorem listing_identifies_program :
    (∀ program, ofListing? (listing program) = some program) ∧
    Function.Injective listing ∧ Function.Injective Program.listing ∧
    ∀ program, lines (listing program) = program.map text ∧
      (lines (listing program)).length = program.length := by
  have injective : Function.Injective listing := fun p q same => by
    have back := ofListing_listing p
    rw [same, ofListing_listing q] at back
    exact (Option.some.inj back).symm
  refine ⟨ofListing_listing, injective, ?_, fun program => ⟨lines_listing program, ?_⟩⟩
  · rintro ⟨p⟩ ⟨q⟩ same
    exact congrArg Program.mk (Array.toList_inj.mp (injective same))
  · rw [lines_listing, List.length_map]

end Instruction

end ProgramHash
