import ProgramHash.Proofs.Machine.Reach

-- An assembly that is driven by a list of calls. What the image holds is read off
-- the list alone: fields are filled at once, when a jump is bound or at the end, and
-- neither that nor what is emitted later reaches a byte of another field.
namespace ProgramHash.Machine.Script

inductive Call where
  | plain (bytes : List UInt8)
  | constant (bytes : List UInt8) (value : Word)
  | jumpTo (bytes : List UInt8) (target : Nat)
  | forward (bytes : List UInt8)
  -- Jumps that are emitted without a target are numbered from zero.
  | bind (jump : Nat)
  deriving DecidableEq, Repr

namespace Call

def bytes : Call → List UInt8
  | .plain bytes | .constant bytes _ | .jumpTo bytes _ | .forward bytes => bytes
  | .bind _ => []

def hasField : Call → Bool
  | .constant .. | .jumpTo .. | .forward _ => true
  | .plain _ | .bind _ => false

def isForward : Call → Bool
  | .forward _ => true
  | _ => false

def value? : Call → Option Word
  | .constant _ value => some value
  | _ => none

end Call

structure Session where
  assembly : Assembly
  jumps : List Nat

def Session.step (s : Session) : Call → Except Fault Session
  | .plain bytes => .ok { s with assembly := s.assembly.emit bytes }
  | .constant bytes value => .ok { s with assembly := s.assembly.emitWithConstant bytes value }
  | .jumpTo bytes target =>
      let (assembly, field) := s.assembly.emitJump bytes
      (assembly.bindTo field target).map fun assembly => { s with assembly }
  | .forward bytes =>
      let (assembly, field) := s.assembly.emitJump bytes
      .ok ⟨assembly, s.jumps ++ [field]⟩
  | .bind jump =>
      match s.jumps[jump]? with
      | some field => (s.assembly.bind field).map fun assembly => { s with assembly }
      | none => .ok s

def assemble (lanes : Nat) (calls : List Call) : Except Fault (Array UInt8) :=
  (calls.foldlM Session.step ⟨.empty lanes, []⟩).bind fun s => s.assembly.finish

section Reading

def text (calls : List Call) : List UInt8 := calls.flatMap Call.bytes

def offset (calls : List Call) (n : Nat) : Nat := (text (calls.take n)).length

def field (calls : List Call) (n : Nat) : Nat := offset calls (n + 1) - 4

def jumpNumber (calls : List Call) (n : Nat) : Nat := (calls.take n).countP Call.isForward

def binds (calls : List Call) (n : Nat) : List Nat :=
  (List.range calls.length).filter fun q => n < q && calls[q]? == some (.bind (jumpNumber calls n))

def jumpTarget? (calls : List Call) (n : Nat) : Option Nat :=
  match calls[n]? with
  | some (.jumpTo _ target) => some target
  | some (.forward _) => (binds calls n).getLast?.map (offset calls)
  | _ => none

def constants (calls : List Call) : List Word := (calls.filterMap Call.value?).eraseDups

def poolStart (lanes : Nat) (calls : List Call) : Nat :=
  ((text calls).length + 8 * lanes - 1) / (8 * lanes) * (8 * lanes)

def entryStart (lanes : Nat) (calls : List Call) (value : Word) : Nat :=
  poolStart lanes calls + (constants calls).idxOf value * (8 * lanes)

def pool (lanes : Nat) (calls : List Call) : List UInt8 :=
  (constants calls).flatMap fun c => (List.replicate lanes (Bytes.ofWord c)).flatten

-- Where the field of a call has to lead, if it has one that is ever filled.
def target? (lanes : Nat) (calls : List Call) (n : Nat) : Option Nat :=
  match calls[n]? with
  | some (.constant _ value) => some (entryStart lanes calls value)
  | _ => jumpTarget? calls n

-- Fields are there to be filled, and all of the code lies within reach.
structure Proper (calls : List Call) : Prop where
  long : ∀ c ∈ calls, c.hasField → 4 ≤ c.bytes.length
  size : (text calls).length < Assembly.reach
  targets : ∀ bytes target, .jumpTo bytes target ∈ calls → target < Assembly.reach

end Reading

section Offsets

variable {calls : List Call} {c : Call} {m n : Nat}

theorem text_append (calls more : List Call) : text (calls ++ more) = text calls ++ text more :=
  List.flatMap_append

theorem text_snoc (calls : List Call) (c : Call) : text (calls ++ [c]) = text calls ++ c.bytes := by
  simp [text]

theorem offset_all (calls : List Call) : offset calls calls.length = (text calls).length := by
  rw [offset, List.take_length]

theorem offset_snoc (c : Call) (before : n ≤ calls.length) :
    offset (calls ++ [c]) n = offset calls n := by
  rw [offset, List.take_append_of_le_length before, offset]

theorem jumpNumber_snoc (c : Call) (before : n ≤ calls.length) :
    jumpNumber (calls ++ [c]) n = jumpNumber calls n := by
  rw [jumpNumber, List.take_append_of_le_length before, jumpNumber]

theorem offset_succ (here : calls[n]? = some c) :
    offset calls (n + 1) = offset calls n + c.bytes.length := by
  rw [offset, List.take_add_one, here, Option.toList_some, text_snoc, List.length_append, offset]

theorem offset_le_text (calls : List Call) (n : Nat) : offset calls n ≤ (text calls).length := by
  conv => rhs; rw [← List.take_append_drop n calls, text_append, List.length_append]
  exact Nat.le_add_right _ _

theorem offset_le (before : m ≤ n) : offset calls m ≤ offset calls n := by
  have early := offset_le_text (calls.take n) m
  rwa [offset, List.take_take, Nat.min_eq_left before] at early

theorem field_snoc (c : Call) (before : n < calls.length) :
    field (calls ++ [c]) n = field calls n := by
  rw [field, offset_snoc c before, field]

theorem field_last (calls : List Call) (c : Call) :
    field (calls ++ [c]) calls.length = (text calls ++ c.bytes).length - 4 := by
  have whole := offset_all (calls ++ [c])
  rw [List.length_append, List.length_singleton, text_snoc] at whole
  rw [field, whole]

theorem Proper.earlier {more : List Call} (proper : Proper (calls ++ more)) : Proper calls where
  long := fun c member => proper.long c (List.mem_append_left _ member)
  size := by
    have size := proper.size
    rw [text_append, List.length_append] at size
    omega
  targets := fun bytes target member => proper.targets bytes target (List.mem_append_left _ member)

theorem Proper.field_spec (proper : Proper calls) (here : calls[n]? = some c) (has : c.hasField) :
    offset calls n ≤ field calls n ∧ field calls n + 4 = offset calls (n + 1) := by
  have long := proper.long c (List.mem_of_getElem? here) has
  have next := offset_succ here
  unfold field
  omega

def HasField (calls : List Call) (n : Nat) : Prop := ∃ c, calls[n]? = some c ∧ c.hasField

theorem HasField.lt (has : HasField calls n) : n < calls.length :=
  (List.getElem?_eq_some_iff.mp has.choose_spec.1).1

theorem Proper.field_inside (proper : Proper calls) (has : HasField calls n) :
    field calls n + 4 ≤ (text calls).length := by
  obtain ⟨c, here, kind⟩ := has
  rw [(proper.field_spec here kind).2]
  exact offset_le_text calls _

theorem Proper.fields_apart (proper : Proper calls) (has : HasField calls m) (has' : HasField calls n)
    (before : m < n) : field calls m + 4 ≤ field calls n := by
  obtain ⟨c, here, kind⟩ := has
  obtain ⟨d, here', kind'⟩ := has'
  calc field calls m + 4 = offset calls (m + 1) := (proper.field_spec here kind).2
    _ ≤ offset calls n := offset_le before
    _ ≤ field calls n := (proper.field_spec here' kind').1

theorem Proper.field_unique (proper : Proper calls) (has : HasField calls m) (has' : HasField calls n)
    (same : field calls m = field calls n) : m = n := by
  rcases Nat.lt_trichotomy m n with before | equal | after
  · have apart := proper.fields_apart has has' before
    omega
  · exact equal
  · have apart := proper.fields_apart has' has after
    omega

theorem jumpTarget?_hasField {t : Nat} (aims : jumpTarget? calls n = some t) : HasField calls n := by
  unfold jumpTarget? at aims
  split at aims
  · exact ⟨_, ‹_›, rfl⟩
  · exact ⟨_, ‹_›, rfl⟩
  · cases aims

theorem target?_hasField {lanes t : Nat} (aims : target? lanes calls n = some t) :
    HasField calls n := by
  unfold target? at aims
  split at aims
  · exact ⟨_, ‹_›, rfl⟩
  · exact jumpTarget?_hasField aims

end Offsets

section Targets

variable {calls : List Call} {c : Call} {n f t : Nat}

theorem binds_snoc (c : Call) (before : n < calls.length) :
    binds (calls ++ [c]) n =
      binds calls n ++ if c = .bind (jumpNumber calls n) then [calls.length] else [] := by
  have early : ∀ q ∈ List.range calls.length,
      (decide (n < q) && (calls ++ [c])[q]? == some (.bind (jumpNumber calls n))) =
        (decide (n < q) && calls[q]? == some (.bind (jumpNumber calls n))) := by
    intro q member
    rw [List.getElem?_append_left (List.mem_range.mp member)]
  unfold binds
  rw [List.length_append, List.length_singleton, List.range_succ, List.filter_append,
    jumpNumber_snoc c (Nat.le_of_lt before), List.filter_congr early]
  congr 1
  by_cases same : c = .bind (jumpNumber calls n) <;> simp [before, same]

def Binds (c : Call) (calls : List Call) (n : Nat) : Prop :=
  c = .bind (jumpNumber calls n) ∧ ∃ bytes, calls[n]? = some (.forward bytes)

theorem jumpTarget?_bound (binds : Binds c calls n) :
    jumpTarget? (calls ++ [c]) n = some (text calls).length := by
  obtain ⟨same, bytes, here⟩ := binds
  have before := (List.getElem?_eq_some_iff.mp here).1
  rw [jumpTarget?, List.getElem?_append_left before, here]
  simp only [binds_snoc c before, if_pos same, List.getLast?_append, List.getLast?_singleton,
    Option.some_or, Option.map_some, offset_snoc c (Nat.le_refl _), offset_all]

theorem jumpTarget?_kept (before : n < calls.length) (apart : ¬ Binds c calls n) :
    jumpTarget? (calls ++ [c]) n = jumpTarget? calls n := by
  rw [jumpTarget?, jumpTarget?, List.getElem?_append_left before]
  split
  · rfl
  · rename_i bytes here
    rw [binds_snoc c before, if_neg fun same => apart ⟨same, bytes, here⟩, List.append_nil]
    cases last : (binds calls n).getLast? with
    | none => rfl
    | some q =>
        have member := List.mem_filter.mp (List.mem_of_getLast? last)
        rw [Option.map_some, Option.map_some,
          offset_snoc c (Nat.le_of_lt (List.mem_range.mp member.1))]
  · rfl

def Call.given? : Call → Option Nat
  | .jumpTo _ target => some target
  | _ => none

theorem jumpTarget?_last (calls : List Call) (c : Call) :
    jumpTarget? (calls ++ [c]) calls.length = c.given? := by
  have late : binds (calls ++ [c]) calls.length = [] := by
    rw [binds, List.filter_eq_nil_iff]
    intro q member
    rw [List.mem_range, List.length_append, List.length_singleton] at member
    simp
    omega
  rw [jumpTarget?, List.getElem?_append_right (Nat.le_refl _), Nat.sub_self]
  cases c <;> simp [Call.given?, late]

def Aims (calls : List Call) (f t : Nat) : Prop := ∃ n, field calls n = f ∧ jumpTarget? calls n = some t

theorem aims_snoc : Aims (calls ++ [c]) f t ↔
    (f = field (calls ++ [c]) calls.length ∧ c.given? = some t) ∨
    (∃ n, field calls n = f ∧ Binds c calls n ∧ (text calls).length = t) ∨
    ∃ n, field calls n = f ∧ ¬ Binds c calls n ∧ jumpTarget? calls n = some t := by
  constructor
  · rintro ⟨n, rfl, aims⟩
    have within := (jumpTarget?_hasField aims).lt
    rw [List.length_append, List.length_singleton] at within
    rcases Nat.lt_or_eq_of_le (Nat.le_of_lt_succ within) with before | rfl
    · right
      rw [field_snoc c before]
      by_cases bound : Binds c calls n
      · rw [jumpTarget?_bound bound] at aims
        exact .inl ⟨n, rfl, bound, Option.some.inj aims⟩
      · rw [jumpTarget?_kept before bound] at aims
        exact .inr ⟨n, rfl, bound, aims⟩
    · rw [jumpTarget?_last] at aims
      exact .inl ⟨rfl, aims⟩
  · rintro (⟨rfl, given⟩ | ⟨n, rfl, bound, rfl⟩ | ⟨n, rfl, kept, aims⟩)
    · exact ⟨calls.length, rfl, (jumpTarget?_last calls c).trans given⟩
    · have before := (List.getElem?_eq_some_iff.mp bound.2.choose_spec).1
      exact ⟨n, field_snoc c before, jumpTarget?_bound bound⟩
    · have before := (jumpTarget?_hasField aims).lt
      exact ⟨n, field_snoc c before, (jumpTarget?_kept before kept).trans aims⟩

end Targets

end ProgramHash.Machine.Script
