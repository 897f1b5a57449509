import ProgramHash.Machine.Processor
import ProgramHash.Proofs.Machine.Linking

namespace ProgramHash.Machine

open Assembly

def Operation.isJump : Operation → Bool
  | .jumpIfNonzero _ | .jumpIfZero _ | .jump _ => true
  | _ => false

namespace Processor

section Reading

variable {image : Array UInt8}

theorem extract_toList {start count : Nat} {bytes : List UInt8} (length : bytes.length = count)
    (held : ∀ j < count, image[start + j]? = bytes[j]?) :
    (image.extract start (start + count)).toList = bytes := by
  apply List.ext_getElem?
  intro j
  rw [Array.getElem?_toList, Array.getElem?_extract]
  by_cases inside : j < count
  · have here := held j inside
    rw [List.getElem?_eq_getElem (by omega)] at here
    have room := (Array.getElem?_eq_some_iff.mp here).1
    rw [if_pos (by omega), held j inside]
  · rw [if_neg (by omega), List.getElem?_eq_none (by omega)]

theorem imageBytes_held {start count : Nat} {bytes : List UInt8} (any : 0 < count)
    (length : bytes.length = count) (held : ∀ j < count, image[start + j]? = bytes[j]?) :
    imageBytes? image start count = some bytes := by
  have last := held (count - 1) (by omega)
  rw [List.getElem?_eq_getElem (by omega)] at last
  have room := (Array.getElem?_eq_some_iff.mp last).1
  unfold imageBytes?
  rw [if_pos (by constructor <;> omega), Int.toNat_natCast, extract_toList length held]

theorem fetch_held {position : Nat} {op : Operation} (admitted : op.Admitted)
    (held : ∀ j < op.encode.length, image[position + j]? = op.encode[j]?) :
    fetch? image position = some (op, position + op.encode.length) := by
  obtain ⟨_, short⟩ := encode_length op
  have front : (image.extract position (position + 15)).toList.take op.encode.length = op.encode := by
    apply List.ext_getElem?
    intro j
    rw [List.getElem?_take]
    split
    · rename_i inside
      have here := held j inside
      rw [List.getElem?_eq_getElem inside] at here
      have room := (Array.getElem?_eq_some_iff.mp here).1
      rw [Array.getElem?_toList, Array.getElem?_extract, if_pos (by omega), held j inside]
    · rename_i outside
      rw [List.getElem?_eq_none (by omega)]
  obtain ⟨rest, window⟩ : ∃ rest, (image.extract position (position + 15)).toList =
      op.encode ++ rest := ⟨_, by rw [← front]; exact (List.take_append_drop _ _).symm⟩
  simp only [fetch?, window, decode_encode op admitted, Option.bind_eq_bind, Option.bind_some,
    List.length_append, Nat.add_sub_cancel]
  rfl

end Reading

section Constants

variable {image : Array UInt8} {pool lanes start : Nat} {value : Word}

theorem entry_room (entry : Entry image pool lanes start value) (any : 0 < lanes) :
    start + 8 * lanes ≤ image.size := by
  have last := entry.bytes (8 * lanes - 1) (by omega)
  rw [List.getElem?_eq_getElem (by rw [ofWord_length]; omega)] at last
  have room := (Array.getElem?_eq_some_iff.mp last).1
  omega

theorem entry_bytes (entry : Entry image pool lanes start value) {count : Nat} (any : 0 < count)
    (part : count ≤ 8) (one : 0 < lanes) :
    imageBytes? image start count = some ((Bytes.ofWord value).take count) := by
  refine imageBytes_held any (by rw [List.length_take, ofWord_length]; omega) fun i small => ?_
  rw [entry.bytes i (by omega), List.getElem?_take, if_pos small, Nat.mod_eq_of_lt (by omega)]

theorem entry_word (entry : Entry image pool lanes start value) (one : 0 < lanes) :
    imageWord? image start = some value := by
  rw [imageWord?, entry_bytes entry (by decide) (by decide) one,
    List.take_of_length_le (Nat.le_of_eq (ofWord_length value)), Option.map_some, Bytes.toWord_ofWord]

theorem entry_half (entry : Entry image pool lanes start value) (one : 0 < lanes) :
    (imageBytes? image start 4).map (fun bytes => UInt32.ofNat (Bytes.toNat bytes)) =
      some value.toUInt32 := by
  have front : (Bytes.ofWord value).take 4 = Bytes.ofNat 4 value.toNat := rfl
  rw [entry_bytes entry (by decide) (by decide) one, front, Option.map_some, Bytes.toNat_ofNat]
  refine congrArg some (UInt32.toNat_inj.mp ?_)
  simp

theorem entry_lanes (entry : Entry image pool 8 start value) :
    imageLanes? image start = some (.filled value) := by
  have copies : ∀ b ∈ List.replicate 8 (Bytes.ofWord value), b.length = 8 := by
    intro b member
    rw [List.eq_of_mem_replicate member, ofWord_length]
  have copy (k : Nat) (inside : k < 8) {j : Nat} (small : j < 8) :
      (List.replicate 8 (Bytes.ofWord value)).flatten[8 * k + j]? = (Bytes.ofWord value)[j]? := by
    rw [getElem?_flatten_uniform copies k small, List.getElem?_replicate, if_pos inside]
    rfl
  have bytes : imageBytes? image start 64 = some (List.replicate 8 (Bytes.ofWord value)).flatten := by
    refine imageBytes_held (by decide) (copies_length 8 value) fun j small => ?_
    rw [entry.bytes j small, show j = 8 * (j / 8) + j % 8 by omega,
      copy _ (by omega) (Nat.mod_lt _ (by decide))]
    congr 1
    omega
  have word (i : Fin 8) : Bytes.toWord
      ((((List.replicate 8 (Bytes.ofWord value)).flatten).drop (8 * i.val)).take 8) = value := by
    have same : (((List.replicate 8 (Bytes.ofWord value)).flatten).drop (8 * i.val)).take 8 =
        Bytes.ofWord value := by
      apply List.ext_getElem?
      intro j
      rw [List.getElem?_take]
      split
      · rename_i small
        rw [List.getElem?_drop, copy _ i.isLt small]
      · rw [List.getElem?_eq_none (by rw [ofWord_length]; omega)]
    rw [same, Bytes.toWord_ofWord]
  simp only [imageLanes?, bytes, Option.bind_eq_bind, Option.bind_some, word]
  exact congrArg some (Bank.ext fun i => by simp)

end Constants

inductive Visits (image : Array UInt8) : Processor → Processor → Prop where
  | refl : Visits image p p
  | step : p.step image = .running q → Visits image q r → Visits image p r

-- A number of steps, each from a good state.
inductive Runs (image : Array UInt8) (good : Processor → Prop) :
    Nat → Processor → Processor → Prop where
  | refl : Runs image good 0 p p
  | step : good p → p.step image = .running q → Runs image good n q r → Runs image good (n + 1) p r

namespace Runs

variable {image : Array UInt8} {good : Processor → Prop} {m n : Nat} {p q r : Processor}

theorem one (fine : good p) (stepped : p.step image = .running q) : Runs image good 1 p q :=
  .step fine stepped .refl

theorem trans (first : Runs image good m p q) (second : Runs image good n q r) :
    Runs image good (m + n) p r := by
  induction first with
  | refl => rwa [Nat.zero_add]
  | step fine stepped _ ih =>
      rw [Nat.add_right_comm]
      exact .step fine stepped (ih second)

theorem run (runs : Runs image good n p q) (left : Nat) :
    Processor.run image (n + left) p = Processor.run image left q := by
  induction runs with
  | refl => rw [Nat.zero_add]
  | step _ stepped _ ih =>
      rw [Nat.add_right_comm, Processor.run, stepped]
      exact ih

theorem visited (runs : Runs image good n p q) (last : good q)
    (stops : ∀ next, q.step image ≠ .running next) (visits : Visits image p r) : good r := by
  induction runs with
  | refl =>
      cases visits with
      | refl => exact last
      | step stepped _ => exact absurd stepped (stops _)
  | step fine stepped _ ih =>
      cases visits with
      | refl => exact fine
      | step again rest =>
          rw [stepped, Stepped.running.injEq] at again
          subst again
          exact ih last stops rest

end Runs

-- The code lies before the pool, and what an operation reads of the image is a
-- constant in the pool.
def Within (image : Array UInt8) (pool lanes : Nat) (p : Processor) : Prop :=
  p.position < pool ∧ ∀ op next d, fetch? image p.position = some (op, next) → op.isJump = false →
    op.distance? = some d →
      ∃ start : Nat, (next : Int) + d.toInt = start ∧ pool ≤ start ∧ start + 8 * lanes ≤ image.size

def passing (p : Processor) (op : Operation) : Processor :=
  { p with position := p.position + op.encode.length }

theorem step_fetched {image : Array UInt8} {p q : Processor} {op : Operation} (other : op ≠ .ret)
    (fetched : fetch? image p.position = some (op, p.position + op.encode.length))
    (done : execute image (p.passing op) op = .ok q) : p.step image = .running q := by
  unfold step
  rw [fetched]
  cases op with
  | ret => exact absurd rfl other
  | _ => simp only [passing] at done; simp only [done]

end Processor

-- What is emitted: an operation as it stands, or one that awaits a constant.
inductive Piece where
  | plain (op : Operation)
  | constant (op : Operation) (value : Word)

namespace Piece

def op : Piece → Operation
  | plain op => op
  | constant op _ => op

def Fits : Piece → Prop
  | plain op => op.Admitted ∧ op ≠ .ret ∧ (op.isJump = true ∨ op.distance? = none)
  | constant op _ => op.Admitted ∧ op.isJump = false ∧ ∃ held, op.distance? = some held

end Piece

namespace Assembly

def put (a : Assembly) : Piece → Assembly
  | .plain op => a.emit op.encode
  | .constant op value => a.emitWithConstant op.encode value

def putAll (a : Assembly) (pieces : List Piece) : Assembly := pieces.foldl put a

theorem long_of_distance {op : Operation} {held : Int32} (holds : op.distance? = some held) :
    4 ≤ op.encode.length := by
  obtain ⟨front, bytes, _⟩ := encode_withDistance holds 0
  rw [bytes, List.length_append, Machine.bytesOfInt32_length]
  omega

theorem distance_withDistance {op : Operation} {held : Int32} (holds : op.distance? = some held)
    (d : Int32) : (op.withDistance d).distance? = some d := by
  unfold Operation.distance? at holds
  split at holds <;> first | rfl | cases holds

variable {a : Assembly} {piece : Piece}

theorem put_offset (a : Assembly) (piece : Piece) :
    (a.put piece).offset = a.offset + piece.op.encode.length := by
  cases piece with
  | plain op => exact emit_offset _
  | constant op value => exact @emit_offset a op.encode

theorem put_extends (fits : piece.Fits) : Extends a (a.put piece) := by
  cases piece with
  | plain op => exact emit_extends _
  | constant op value =>
      obtain ⟨_, _, _, holds⟩ := fits
      exact emitWithConstant_extends (long_of_distance holds) value

theorem put_wellFormed (formed : a.WellFormed) (fits : piece.Fits) : (a.put piece).WellFormed := by
  cases piece with
  | plain op => exact emit_wellFormed formed _
  | constant op value =>
      obtain ⟨_, _, _, holds⟩ := fits
      exact emitWithConstant_wellFormed formed (long_of_distance holds) value

theorem putAll_extends {pieces : List Piece} (fit : ∀ piece ∈ pieces, piece.Fits) :
    Extends a (a.putAll pieces) := by
  induction pieces generalizing a with
  | nil => exact .refl a
  | cons piece pieces ih =>
      exact (put_extends (fit piece List.mem_cons_self)).trans
        (ih fun other member => fit other (List.mem_cons_of_mem _ member))

theorem putAll_wellFormed {pieces : List Piece} (formed : a.WellFormed)
    (fit : ∀ piece ∈ pieces, piece.Fits) : (a.putAll pieces).WellFormed := by
  induction pieces generalizing a with
  | nil => exact formed
  | cons piece pieces ih =>
      exact ih (put_wellFormed formed (fit piece List.mem_cons_self))
        fun other member => fit other (List.mem_cons_of_mem _ member)

theorem putAll_offset (a : Assembly) (pieces : List Piece) :
    a.offset + pieces.length ≤ (a.putAll pieces).offset := by
  induction pieces generalizing a with
  | nil => exact Nat.le_refl _
  | cons piece pieces ih =>
      have first := a.put_offset piece
      have some := (encode_length piece.op).1
      have rest := ih (a.put piece)
      simp only [List.length_cons]
      change _ ≤ ((a.put piece).putAll pieces).offset
      omega

theorem putAll_size (a : Assembly) (pieces : List Piece) :
    (a.putAll pieces).offset = a.offset + (pieces.flatMap fun piece => piece.op.encode).length := by
  induction pieces generalizing a with
  | nil => rfl
  | cons piece pieces ih =>
      have rest := ih (a.put piece)
      rw [a.put_offset] at rest
      rw [List.flatMap_cons, List.length_append, ← Nat.add_assoc]
      exact rest

theorem putAll_append (a : Assembly) (first second : List Piece) :
    a.putAll (first ++ second) = (a.putAll first).putAll second := List.foldl_append

theorem emitAll_pieces (a : Assembly) (ops : List Operation) :
    a.emitAll ops = a.putAll (ops.map .plain) := by
  rw [putAll, List.foldl_map]
  rfl

theorem patch_putAll {field : Nat} {bytes : List UInt8} (pieces : List Piece)
    (room : field + bytes.length ≤ a.offset) :
    (a.putAll pieces).patch field bytes = (a.patch field bytes).putAll pieces := by
  induction pieces generalizing a with
  | nil => rfl
  | cons piece pieces ih =>
      have later : field + bytes.length ≤ (a.put piece).offset := by
        rw [put_offset]
        omega
      have first : (a.put piece).patch field bytes = (a.patch field bytes).put piece := by
        cases piece with
        | plain op => exact patch_emit room
        | constant op value => exact patch_emitWithConstant value room
      have rest := ih later
      rw [first] at rest
      exact rest

theorem fetch_plain {image : Array UInt8} {pool : Nat} {op : Operation} (formed : a.WellFormed)
    (admitted : op.Admitted) (linked : Linked image pool (a.emit op.encode)) :
    Processor.fetch? image a.offset = some (op, a.offset + op.encode.length) := by
  refine Processor.fetch_held admitted fun j inside => ?_
  rw [← emit_code op.encode j]
  refine linked.code _ ?_ fun u member => .inr ?_
  · have size := @emit_offset a op.encode
    simp only [offset] at size ⊢
    omega
  · have room := (formed.inside u member).1
    simp only [offset]
    omega

theorem fetch_constant {image : Array UInt8} {pool : Nat} {op : Operation} {held : Int32}
    {value : Word} (formed : a.WellFormed) (admitted : op.Admitted)
    (holds : op.distance? = some held)
    (linked : Linked image pool (a.emitWithConstant op.encode value)) :
    ∃ (d : Int32) (start : Nat),
      Processor.fetch? image a.offset = some (op.withDistance d, a.offset + op.encode.length) ∧
      ((a.offset + op.encode.length : Nat) : Int) + d.toInt = start ∧
      Entry image pool a.lanes start value := by
  obtain ⟨k, noted, known⟩ := @emitWithConstant_use a op.encode value
  obtain ⟨d, start, value', reaches, bytes, constant, entry⟩ := linked.uses _ noted
  rw [known, Option.some.injEq] at constant
  subst constant
  obtain ⟨front, before, after⟩ := encode_withDistance holds d
  have four := Machine.bytesOfInt32_length held
  have length : op.encode.length = front.length + 4 := by rw [before, List.length_append, four]
  have same : (op.withDistance d).encode.length = op.encode.length := by
    rw [after, List.length_append, Machine.bytesOfInt32_length, length]
  have field : a.offset + op.encode.length - 4 = a.offset + front.length := by omega
  rw [field] at bytes reaches
  refine ⟨d, start, ?_, by rw [length]; exact reaches, entry⟩
  rw [← same]
  refine Processor.fetch_held (admitted_withDistance admitted d) fun j inside => ?_
  rw [same, length] at inside
  rw [after]
  by_cases early : j < front.length
  · have unchanged : op.encode[j]? = front[j]? := by
      rw [before, List.getElem?_append_left early]
    have size := @emit_offset a op.encode
    rw [List.getElem?_append_left early, ← unchanged, ← @emit_code a op.encode j]
    simp only [offset] at size field ⊢
    refine linked.code (a.code.size + j) ?_ fun u member => ?_
    · change a.code.size + j < (a.emit op.encode).code.size
      omega
    · rcases Array.mem_push.mp member with old | rfl
      · exact .inr (by have := (formed.inside u old).1; omega)
      · refine .inl ?_
        simp only [Assembly.field, size]
        omega
  · obtain ⟨i, rfl⟩ := Nat.exists_eq_add_of_le (Nat.le_of_not_lt early)
    rw [List.getElem?_append_right (Nat.le_add_right _ _), Nat.add_sub_cancel_left, ← Nat.add_assoc]
    exact bytes i (by omega)

end Assembly

-- What a piece does to a processor that stands before it, wherever the image has
-- its constant.
def Piece.Does (image : Array UInt8) (pool lanes : Nat) (piece : Piece) (p q : Processor) : Prop :=
  match piece with
  | .plain op => Processor.execute image (p.passing op) op = .ok q
  | .constant op value => ∀ (d : Int32) (start : Nat),
      ((p.position + op.encode.length : Nat) : Int) + d.toInt = start →
        Entry image pool lanes start value →
          Processor.execute image (p.passing op) (op.withDistance d) = .ok q

def DoAll (image : Array UInt8) (pool lanes : Nat) : List Piece → Processor → Processor → Prop
  | [], p, q => p = q
  | piece :: rest, p, q => ∃ m, piece.Does image pool lanes p m ∧
      m.position = p.position + piece.op.encode.length ∧ DoAll image pool lanes rest m q

theorem DoAll.append {image : Array UInt8} {pool lanes : Nat} {first second : List Piece}
    {p q r : Processor} (one : DoAll image pool lanes first p q)
    (two : DoAll image pool lanes second q r) : DoAll image pool lanes (first ++ second) p r := by
  induction first generalizing p with
  | nil => cases one; exact two
  | cons piece first ih =>
      obtain ⟨m, does, moved, rest⟩ := one
      exact ⟨m, does, moved, ih rest⟩

section Running

variable {image : Array UInt8} {pool : Nat} {a : Assembly} {p q : Processor}

theorem withDistance_ne_ret {op : Operation} {held : Int32} (holds : op.distance? = some held)
    (d : Int32) : op.withDistance d ≠ .ret := by
  intro ret
  obtain ⟨front, _, after⟩ := encode_withDistance holds d
  have length := congrArg List.length after
  rw [ret, List.length_append, bytesOfInt32_length] at length
  simp [Operation.encode] at length

theorem runs_put {piece : Piece} (formed : a.WellFormed) (fits : piece.Fits)
    (linked : Linked image pool (a.put piece)) (here : p.position = a.offset)
    (does : piece.Does image pool a.lanes p q) :
    Processor.Runs image (Processor.Within image pool a.lanes) 1 p q := by
  have before : p.position < pool := by
    have size := a.put_offset piece
    have room := linked.size
    have some := (encode_length piece.op).1
    simp only [Assembly.offset] at size here
    omega
  cases piece with
  | plain op =>
      obtain ⟨admitted, other, plain⟩ := fits
      have fetched := fetch_plain formed admitted linked
      rw [← here] at fetched
      refine .one ⟨before, fun op' next d again straight holds => ?_⟩
        (Processor.step_fetched other fetched does)
      rw [fetched, Option.some.injEq, Prod.mk.injEq] at again
      obtain ⟨rfl, rfl⟩ := again
      rcases plain with jumps | none
      · rw [straight] at jumps; cases jumps
      · rw [none] at holds; cases holds
  | constant op value =>
      obtain ⟨admitted, _, held, holds⟩ := fits
      obtain ⟨d, start, fetched, reaches, entry⟩ := fetch_constant formed admitted holds linked
      rw [← here] at fetched reaches
      have same : (op.withDistance d).encode.length = op.encode.length := by
        obtain ⟨front, one, two⟩ := encode_withDistance holds d
        rw [one, two, List.length_append, List.length_append, bytesOfInt32_length,
          bytesOfInt32_length]
      have room := Processor.entry_room entry formed.lanes
      refine .one ⟨before, fun op' next d' again _ led => ?_⟩ ?_
      · rw [fetched, Option.some.injEq, Prod.mk.injEq] at again
        obtain ⟨rfl, rfl⟩ := again
        rw [distance_withDistance holds, Option.some.injEq] at led
        subst led
        exact ⟨start, reaches, entry.after, room⟩
      · have passed : p.passing (op.withDistance d) = p.passing op := by
          simp only [Processor.passing, same]
        refine Processor.step_fetched (withDistance_ne_ret holds d) (by rw [same]; exact fetched) ?_
        rw [passed]
        exact does d start reaches entry

theorem return_step (formed : a.WellFormed) (linked : Linked image pool (a.emit Operation.ret.encode))
    (here : p.position = a.offset) (empty : p.stack = []) :
    p.step image = .returned p ∧ Processor.Within image pool a.lanes p := by
  have fetched := @fetch_plain a image pool .ret formed trivial linked
  have size := @emit_offset a Operation.ret.encode
  have one : Operation.ret.encode.length = 1 := rfl
  have room := linked.size
  simp only [Assembly.offset] at size here
  refine ⟨?_, by omega, fun op next d again _ holds => ?_⟩
  · unfold Processor.step
    rw [here, ← Assembly.offset, fetched]
    simp [empty]
  · rw [here, ← Assembly.offset, fetched, Option.some.injEq, Prod.mk.injEq] at again
    rw [← again.1] at holds
    cases holds

theorem runs_putAll {pieces : List Piece} (formed : a.WellFormed)
    (fit : ∀ piece ∈ pieces, piece.Fits) (linked : Linked image pool (a.putAll pieces))
    (here : p.position = a.offset) (all : DoAll image pool a.lanes pieces p q) :
    Processor.Runs image (Processor.Within image pool a.lanes) pieces.length p q ∧
      q.position = (a.putAll pieces).offset := by
  induction pieces generalizing a p with
  | nil => cases all; exact ⟨.refl, here⟩
  | cons piece pieces ih =>
      obtain ⟨m, does, moved, rest⟩ := all
      have first := fit piece List.mem_cons_self
      have others : ∀ other ∈ pieces, other.Fits :=
        fun other member => fit other (List.mem_cons_of_mem _ member)
      have formed' := put_wellFormed formed first
      have early := linked.earlier formed' (putAll_extends others)
      have lanes := (put_extends (a := a) first).lanes
      obtain ⟨runs, last⟩ := ih formed' others linked
        (by rw [moved, here, a.put_offset]) (by rw [lanes]; exact rest)
      rw [lanes] at runs
      refine ⟨?_, last⟩
      rw [List.length_cons, Nat.add_comm]
      exact (runs_put formed first early here does).trans runs

-- What stands before the return is in the image, byte for byte, so that a run that
-- is not late for its place comes to its end within twice the image.
theorem runs_return {pieces : List Piece} {lanes n : Nat} {entry : Processor} (formed : a.WellFormed)
    (held : a.lanes = lanes) (fit : ∀ piece ∈ pieces, piece.Fits)
    (linked : Linked image pool ((a.putAll pieces).emit Operation.ret.encode))
    (arrives : Processor.Runs image (Processor.Within image pool lanes) n entry p)
    (early : n ≤ image.size + p.position) (here : p.position = a.offset)
    (all : DoAll image pool lanes pieces p q) (empty : q.stack = []) :
    Processor.run image (2 * image.size) entry = .returned q ∧
      ∀ r, Processor.Visits image entry r → Processor.Within image pool lanes r := by
  subst held
  have formed' := putAll_wellFormed formed fit
  obtain ⟨rest, reached⟩ := runs_putAll formed fit (linked.earlier formed' (emit_extends _)) here all
  obtain ⟨returned, within⟩ := return_step formed' linked reached empty
  rw [(putAll_extends fit).lanes] at within
  have whole := arrives.trans rest
  obtain ⟨left, enough⟩ : ∃ left, 2 * image.size = n + pieces.length + (left + 1) := by
    have size := a.putAll_offset pieces
    have size' := @emit_offset (a.putAll pieces) Operation.ret.encode
    have one : Operation.ret.encode.length = 1 := rfl
    have room := Nat.le_trans linked.size linked.room
    simp only [Assembly.offset] at *
    exact ⟨2 * image.size - (n + pieces.length + 1), by omega⟩
  refine ⟨?_, fun state visits => whole.visited within (fun next => ?_) visits⟩
  · rw [enough, whole.run, Processor.run, returned]
  · rw [returned]
    exact Stepped.noConfusion

end Running

structure Entered {n : Nat} (values : Bank Word n) (p : Processor) : Prop where
  position : p.position = 0
  argument : p.gprs[Gpr.rdi] = p.base
  memory : p.memory = values.toArray
  stack : p.stack = []

theorem entered {n : Nat} (values : Bank Word n) : Entered values (Processor.enter values.toArray) where
  position := rfl
  argument := rfl
  memory := rfl
  stack := rfl

end ProgramHash.Machine
