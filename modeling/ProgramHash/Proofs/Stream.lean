import ProgramHash.Draw
import ProgramHash.Proofs.Places

-- Bytes and halves drained in any order share one counter. Which block a draw looks
-- at hangs on all draws before it, but each block goes to one of the two kinds only,
-- and its parts are handed out once each, lowest first.
namespace ProgramHash.CounterStream

inductive Part where
  | byte | half
  deriving DecidableEq, Repr

namespace Part

def bits : Part → Nat
  | .byte => 8
  | .half => 32

def perBlock : Part → Nat
  | .byte => 8
  | .half => 2

theorem perBlock_pos (p : Part) : 0 < p.perBlock := by cases p <;> decide

def ofWord (p : Part) (w : Word) (place : Nat) : Nat :=
  w.toNat >>> (p.bits * place) % 1 <<< p.bits

def allOf (p : Part) (w : Word) (count : Nat) : List Nat := (List.range count).map (p.ofWord w)

def split (p : Part) (block : Word) : List Nat := p.allOf block p.perBlock

def join (p : Part) (parts : List Nat) : Nat :=
  parts.foldr (fun part rest => part + rest <<< p.bits) 0

def drop (p : Part) (w : Word) : Word := w >>> UInt64.ofNat p.bits

theorem toNat_drop (p : Part) (w : Word) : (p.drop w).toNat = w.toNat >>> p.bits := by
  cases p <;> simp [drop, bits, UInt64.toNat_shiftRight]

theorem ofWord_drop (p : Part) (w : Word) (place : Nat) :
    p.ofWord (p.drop w) place = p.ofWord w (place + 1) := by
  rw [ofWord, ofWord, toNat_drop, ← Nat.shiftRight_add, Nat.mul_succ, Nat.add_comm]

theorem allOf_succ (p : Part) (w : Word) (count : Nat) :
    p.allOf w (count + 1) = p.ofWord w 0 :: p.allOf (p.drop w) count := by
  rw [allOf, List.range_succ_eq_map, List.map_cons, List.map_map]
  exact congrArg _ (List.map_congr_left fun place _ => (p.ofWord_drop w place).symm)

@[simp] theorem length_allOf (p : Part) (w : Word) (count : Nat) : (p.allOf w count).length = count := by
  simp [allOf]

theorem join_allOf (p : Part) (w : Word) (count : Nat) :
    p.join (p.allOf w count) = w.toNat % 1 <<< (p.bits * count) := by
  induction count generalizing w with
  | zero => simp [allOf, join, Nat.mod_one]
  | succ count ih =>
      have rest := ih (p.drop w)
      rw [join] at rest ⊢
      rw [allOf_succ, List.foldr_cons, rest, toNat_drop, ofWord, Nat.mul_zero, Nat.shiftRight_zero,
        Nat.one_shiftLeft, Nat.one_shiftLeft, Nat.one_shiftLeft, Nat.shiftRight_eq_div_pow,
        Nat.shiftLeft_eq, Nat.mul_succ, Nat.add_comm (p.bits * count), Nat.pow_add, Nat.mod_mul,
        Nat.mul_comm]

theorem join_split (p : Part) (block : Word) : p.join (p.split block) = block.toNat := by
  have whole : p.bits * p.perBlock = 64 := by cases p <;> rfl
  rw [split, join_allOf, whole]
  exact Nat.mod_eq_of_lt block.toNat_lt

end Part

def remainder (s : CounterStream) : Part → Remainder
  | .byte => s.bytes
  | .half => s.halves

def left (s : CounterStream) (p : Part) : List Nat := p.allOf (s.remainder p).word (s.remainder p).parts

def draw (s : CounterStream) : Part → Nat × CounterStream
  | .byte => (s.nextByte.1.toNat, s.nextByte.2)
  | .half => (s.nextHalf.1.toNat, s.nextHalf.2)

def source (s : CounterStream) (p : Part) : Remainder :=
  if (s.remainder p).parts = 0 then ⟨s.key.counterBlock s.counter, p.perBlock⟩ else s.remainder p

def counterAfter (s : CounterStream) (p : Part) : Word :=
  if (s.remainder p).parts = 0 then s.counter + 1 else s.counter

theorem nextByte_eq (s : CounterStream) :
    s.nextByte = ((s.source .byte).word.toUInt8,
      { s with
        counter := s.counterAfter .byte
        bytes := ⟨(s.source .byte).word >>> 8, (s.source .byte).parts - 1⟩ }) := by
  cases empty : s.bytes.parts <;>
    simp [nextByte, source, counterAfter, remainder, empty, block, Part.perBlock]

theorem nextHalf_eq (s : CounterStream) :
    s.nextHalf = ((s.source .half).word.toUInt32,
      { s with
        counter := s.counterAfter .half
        halves := ⟨(s.source .half).word >>> 32, (s.source .half).parts - 1⟩ }) := by
  cases empty : s.halves.parts <;>
    simp [nextHalf, source, counterAfter, remainder, empty, block, Part.perBlock]

theorem draw_spec (s : CounterStream) (p : Part) :
    (s.draw p).1 = p.ofWord (s.source p).word 0 ∧
      (s.draw p).2.remainder p = ⟨p.drop (s.source p).word, (s.source p).parts - 1⟩ ∧
      (∀ q, q ≠ p → (s.draw p).2.remainder q = s.remainder q) ∧ (s.draw p).2.key = s.key ∧
      (s.draw p).2.counter = s.counterAfter p := by
  cases p with
  | byte =>
      rw [draw, nextByte_eq]
      refine ⟨by simp [Part.ofWord, Part.bits], rfl, ?_, rfl, rfl⟩
      rintro (_ | _) apart
      · exact absurd rfl apart
      · rfl
  | half =>
      rw [draw, nextHalf_eq]
      refine ⟨by simp [Part.ofWord, Part.bits], rfl, ?_, rfl, rfl⟩
      rintro (_ | _) apart
      · rfl
      · exact absurd rfl apart

theorem left_draw (s : CounterStream) (p : Part) (some : 0 < (s.source p).parts) :
    p.allOf (s.source p).word (s.source p).parts = (s.draw p).1 :: (s.draw p).2.left p := by
  obtain ⟨value, rest, _⟩ := s.draw_spec p
  obtain ⟨n, same⟩ := Nat.exists_eq_add_of_le' some
  rw [left, rest, value, same, Nat.add_sub_cancel, Part.allOf_succ]

structure Drawn where
  part : Part
  value : Nat
  fetched : Option Word
  deriving DecidableEq, Repr

def after : CounterStream → List Part → CounterStream
  | s, [] => s
  | s, p :: order => after (s.draw p).2 order

-- That a block was fetched shows in the counter, which never stays as it is then.
def drawn (s : CounterStream) (p : Part) : Drawn :=
  ⟨p, (s.draw p).1, if (s.draw p).2.counter = s.counter then none else some s.counter⟩

def record : CounterStream → List Part → List Drawn
  | _, [] => []
  | s, p :: order => s.drawn p :: record (s.draw p).2 order

structure Fetch where
  part : Part
  counter : Word
  deriving DecidableEq, Repr

def Drawn.fetch? (d : Drawn) : Option Fetch := d.fetched.map (Fetch.mk d.part)

def fetches (drawn : List Drawn) : List Fetch := drawn.filterMap Drawn.fetch?

def values (p : Part) (drawn : List Drawn) : List Nat :=
  (drawn.filter fun d => d.part = p).map Drawn.value

theorem drawn_fetched (s : CounterStream) (p : Part) :
    (s.drawn p).fetched = if (s.remainder p).parts = 0 then some s.counter else none := by
  have moves : s.counter + 1 ≠ s.counter := by simp
  have counter := (s.draw_spec p).2.2.2.2
  unfold drawn counterAfter at *
  split at counter <;> simp_all

theorem source_pos (s : CounterStream) (p : Part) : 0 < (s.source p).parts := by
  unfold source
  split
  · exact p.perBlock_pos
  · exact Nat.pos_of_ne_zero ‹_›

@[simp] theorem fetches_cons (d : Drawn) (l : List Drawn) :
    fetches (d :: l) = d.fetch?.toList ++ fetches l := by
  cases fetched : d.fetch? <;> simp [fetches, fetched]

@[simp] theorem values_cons (p : Part) (d : Drawn) (l : List Drawn) :
    values p (d :: l) = (if d.part = p then [d.value] else []) ++ values p l := by
  unfold values
  split <;> simp [*]

def content (key : SipState) (p : Part) (l : List Fetch) : List Nat :=
  (l.filter fun f => f.part = p).flatMap fun f => p.split (key.counterBlock f.counter)

theorem content_append (key : SipState) (p : Part) (l m : List Fetch) :
    content key p (l ++ m) = content key p l ++ content key p m := by
  simp [content]

theorem draw_conserves (s : CounterStream) (p q : Part) :
    s.left p ++ content s.key p (s.drawn q).fetch?.toList =
      (if q = p then [(s.drawn q).value] else []) ++ (s.draw q).2.left p := by
  by_cases same : q = p
  · subst same
    have given := s.left_draw q (s.source_pos q)
    rw [if_pos rfl]
    change _ = (s.draw q).1 :: (s.draw q).2.left q
    rw [← given, source, Drawn.fetch?, drawn_fetched]
    by_cases empty : (s.remainder q).parts = 0
    · simp [empty, left, content, drawn, Part.split, Part.allOf]
    · simp [empty, left, content]
  · have kept := (s.draw_spec q).2.2.1 p (Ne.symm same)
    rw [if_neg same, left, left, kept, Drawn.fetch?]
    cases (s.drawn q).fetched <;> simp [content, drawn, same]

theorem run_conserves (s : CounterStream) (order : List Part) (p : Part) :
    s.left p ++ content s.key p (fetches (s.record order)) =
      values p (s.record order) ++ (s.after order).left p := by
  induction order generalizing s with
  | nil => simp [record, after, fetches, values, content]
  | cons q order ih =>
      have rest := ih (s.draw q).2
      rw [(s.draw_spec q).2.2.2.1] at rest
      rw [record, after, fetches_cons, values_cons, content_append, ← List.append_assoc,
        draw_conserves, List.append_assoc, rest, List.append_assoc]
      rfl

theorem fetched_in_turn {s : CounterStream} {order : List Part} {k : Nat} {f : Fetch}
    (here : (fetches (s.record order))[k]? = some f) : f.counter = s.counter + UInt64.ofNat k := by
  induction order generalizing s k with
  | nil => simp [record, fetches] at here
  | cons p order ih =>
      have counter := (s.draw_spec p).2.2.2.2
      rw [record, fetches_cons, Drawn.fetch?, drawn_fetched] at here
      rw [counterAfter] at counter
      split at here
      · rename_i empty
        rw [if_pos empty] at counter
        cases k with
        | zero =>
            cases here
            simp
        | succ k =>
            rw [ih here, counter, UInt64.ofNat_add, UInt64.add_assoc, UInt64.add_comm 1]
            rfl
      · rename_i some
        rw [if_neg some] at counter
        rw [ih here, counter]

theorem record_getElem? (s : CounterStream) (order : List Part) (n : Nat) :
    (s.record order)[n]? = order[n]?.map (s.after (order.take n)).drawn := by
  induction order generalizing s n with
  | nil => rfl
  | cons p order ih =>
      cases n with
      | zero => rfl
      | succ n => exact ih _ n

theorem record_take (s : CounterStream) (order : List Part) (n : Nat) :
    (s.record order).take n = s.record (order.take n) := by
  induction order generalizing s n with
  | nil => simp [record]
  | cons p order ih =>
      cases n with
      | zero => rfl
      | succ n => exact congrArg _ (ih _ n)

theorem length_values (s : CounterStream) (order : List Part) (p : Part) :
    (values p (s.record order)).length = order.count p := by
  induction order generalizing s with
  | nil => rfl
  | cons q order ih =>
      rw [record, values_cons, List.length_append, ih, List.count_cons, Nat.add_comm]
      by_cases same : q = p <;> simp [drawn, same]

-- Nothing is left to a kind, or less than a block of it.
def Open (s : CounterStream) : Prop := ∀ p, (s.remainder p).parts < p.perBlock

theorem open_ofSalt (key : SipState) (salt : UInt32) : (ofSalt key salt).Open := by
  rintro (_ | _) <;> exact Part.perBlock_pos _

theorem Open.draw {s : CounterStream} (opened : s.Open) (q : Part) : (s.draw q).2.Open := by
  intro p
  obtain ⟨_, rest, kept, _⟩ := s.draw_spec q
  by_cases same : p = q
  · subst same
    have some := s.source_pos p
    have most : (s.source p).parts ≤ p.perBlock := by
      unfold source
      split
      · exact Nat.le_refl _
      · exact Nat.le_of_lt (opened p)
    rw [rest]
    exact Nat.lt_of_lt_of_le (Nat.sub_lt some Nat.one_pos) most
  · rw [kept p same]
    exact opened p

theorem Open.after {s : CounterStream} (opened : s.Open) (order : List Part) :
    (s.after order).Open := by
  induction order generalizing s with
  | nil => exact opened
  | cons q order ih => exact ih (opened.draw q)

section Fresh

variable {key : SipState} {salt : UInt32} {order : List Part} {p : Part}

theorem fresh_conserves (key : SipState) (salt : UInt32) (order : List Part) (p : Part) :
    content key p (fetches ((ofSalt key salt).record order)) =
      values p ((ofSalt key salt).record order) ++ ((ofSalt key salt).after order).left p := by
  have whole := run_conserves (ofSalt key salt) order p
  have nothing : (ofSalt key salt).left p = [] := by cases p <;> rfl
  rwa [nothing, List.nil_append] at whole

theorem length_content (key : SipState) (p : Part) (l : List Fetch) :
    (content key p l).length = l.countP (fun f => f.part = p) * p.perBlock := by
  simp only [content, List.length_flatMap, Part.split, Part.length_allOf, List.map_const',
    List.sum_replicate_nat, List.countP_eq_length_filter]

theorem fresh_blocks (key : SipState) (salt : UInt32) (order : List Part) (p : Part) :
    (fetches ((ofSalt key salt).record order)).countP (fun f => f.part = p) * p.perBlock =
      order.count p + (((ofSalt key salt).after order).remainder p).parts := by
  rw [← length_content key, fresh_conserves, List.length_append, length_values, left, Part.length_allOf]

theorem fresh_empty (key : SipState) (salt : UInt32) (order : List Part) (p : Part) :
    (((ofSalt key salt).after order).remainder p).parts = 0 ↔ order.count p % p.perBlock = 0 := by
  have blocks := fresh_blocks key salt order p
  have less := (open_ofSalt key salt).after order p
  constructor
  · intro empty
    rw [empty, Nat.add_zero] at blocks
    rw [← blocks, Nat.mul_mod_left]
  · intro whole
    -- What is left is less than a block, so that it is its own remainder.
    have rest := congrArg (· % p.perBlock) blocks
    simp only [Nat.mul_mod_left] at rest
    rw [Nat.add_mod, whole, Nat.zero_add, Nat.mod_mod, Nat.mod_eq_of_lt less] at rest
    exact rest.symm

theorem length_fetches (key : SipState) (salt : UInt32) (order : List Part) :
    (fetches ((ofSalt key salt).record order)).length =
      (order.count .byte + 7) / 8 + (order.count .half + 1) / 2 := by
  have bytes := fresh_blocks key salt order .byte
  have halves := fresh_blocks key salt order .half
  have few := (open_ofSalt key salt).after order .byte
  have few' := (open_ofSalt key salt).after order .half
  have both := List.length_eq_countP_add_countP (l := fetches ((ofSalt key salt).record order))
    fun f => f.part = .byte
  have rest : (fetches ((ofSalt key salt).record order)).countP
        (fun f => !decide (f.part = .byte)) =
      (fetches ((ofSalt key salt).record order)).countP fun f => f.part = .half :=
    List.countP_congr fun f _ => by cases f.part <;> decide
  simp only [Part.perBlock] at bytes halves few few'
  rw [both]
  simp only [Bool.not_eq_true, Bool.decide_eq_false]
  rw [rest]
  omega

theorem value_located {n : Nat} {d : Drawn} (here : ((ofSalt key salt).record order)[n]? = some d) :
    ∃ k f, (fetches ((ofSalt key salt).record order))[k]? = some f ∧ f.part = d.part ∧
      ((fetches ((ofSalt key salt).record order)).take k).countP (fun f => f.part = d.part) =
        (order.take n).count d.part / d.part.perBlock ∧
      d.value = d.part.ofWord (key.counterBlock f.counter)
        ((order.take n).count d.part % d.part.perBlock) := by
  have before : (((ofSalt key salt).record order).take n).countP (fun e => e.part = d.part) =
      (order.take n).count d.part := by
    rw [record_take, ← length_values (ofSalt key salt), values, List.length_map,
      List.countP_eq_length_filter]
  have among := getElem?_filter_of (q := fun e => decide (e.part = d.part)) here (by simp)
  have value : (content key d.part (fetches ((ofSalt key salt).record order)))[
      (order.take n).count d.part]? = some d.value := by
    have place : (values d.part ((ofSalt key salt).record order))[(order.take n).count d.part]? =
        some d.value := by
      rw [values, List.getElem?_map, ← before, among]
      rfl
    rw [fresh_conserves, List.getElem?_append_left (List.getElem?_eq_some_iff.mp place).1, place]
  -- All blocks of a kind have as many parts, so the place of a value says which of them.
  have uniform : ∀ b ∈ ((fetches ((ofSalt key salt).record order)).filter fun f =>
      f.part = d.part).map fun f => d.part.split (key.counterBlock f.counter),
      b.length = d.part.perBlock := by
    intro b member
    obtain ⟨f, _, rfl⟩ := List.mem_map.mp member
    exact Part.length_allOf _ _ _
  have inside := Nat.mod_lt ((order.take n).count d.part) d.part.perBlock_pos
  rw [content, List.flatMap_def, ← Nat.div_add_mod ((order.take n).count d.part) d.part.perBlock,
    getElem?_flatten_uniform uniform _ inside, List.getElem?_map] at value
  cases block : ((fetches ((ofSalt key salt).record order)).filter fun f =>
      decide (f.part = d.part))[(order.take n).count d.part / d.part.perBlock]? with
  | none => rw [block] at value; cases value
  | some f =>
      obtain ⟨k, there, number, kind⟩ := exists_of_getElem?_filter block
      rw [block] at value
      simp only [Option.map_some, Option.bind_some, Part.split, Part.allOf, List.getElem?_map,
        List.getElem?_range inside, Option.some.injEq] at value
      exact ⟨k, f, there, of_decide_eq_true kind, number, value.symm⟩

end Fresh

theorem record_length (s : CounterStream) (order : List Part) :
    (s.record order).length = order.length := by
  induction order generalizing s with
  | nil => rfl
  | cons p order ih => exact congrArg _ (ih _)

theorem fresh_counter {key : SipState} {salt : UInt32} {order : List Part} {k : Nat} {f : Fetch}
    (here : (fetches ((ofSalt key salt).record order))[k]? = some f) :
    f.counter = UInt64.ofNat (salt.toNat * 0x100000000 + k) := by
  rw [UInt64.ofNat_add]
  exact fetched_in_turn here

theorem counters_apart {salt other : UInt32} (apart : salt ≠ other) {k l : Nat} (few : k < 0x100000000)
    (few' : l < 0x100000000) : UInt64.ofNat (salt.toNat * 0x100000000 + k) ≠
      UInt64.ofNat (other.toNat * 0x100000000 + l) := by
  intro same
  have small := salt.toNat_lt
  have small' := other.toNat_lt
  have numbers := congrArg UInt64.toNat same
  rw [UInt64.toNat_ofNat', UInt64.toNat_ofNat', Nat.mod_eq_of_lt (by omega),
    Nat.mod_eq_of_lt (by omega)] at numbers
  exact apart (UInt32.toNat_inj.mp (by omega))

-- Whatever the order of the draws, blocks are taken from the counter one after the
-- other, each when a kind has nothing left, and go to that kind alone. Its values
-- and what is left make up its blocks, without loss and without repetition. Sources
-- of different salts never meet within their ranges.
theorem draws_split_counter_stream :
    (∀ (key : SipState) (salt : UInt32) (order : List Part),
      let drawn := (ofSalt key salt).record order
      drawn.length = order.length ∧
      (∀ k f, (fetches drawn)[k]? = some f →
        f.counter = UInt64.ofNat (salt.toNat * 0x100000000 + k)) ∧
      (fetches drawn).length = (order.count .byte + 7) / 8 + (order.count .half + 1) / 2 ∧
      (∀ n d, drawn[n]? = some d →
        let i := (order.take n).count d.part
        order[n]? = some d.part ∧ (d.fetched.isSome ↔ i % d.part.perBlock = 0) ∧
        ∃ k f, (fetches drawn)[k]? = some f ∧ f.part = d.part ∧
          ((fetches drawn).take k).countP (fun f => f.part = d.part) = i / d.part.perBlock ∧
          d.value = d.part.ofWord (key.counterBlock f.counter) (i % d.part.perBlock)) ∧
      ∀ p, values p drawn ++ ((ofSalt key salt).after order).left p = content key p (fetches drawn) ∧
        (((ofSalt key salt).after order).left p).length < p.perBlock) ∧
    (∀ (p : Part) (block : Word), p.join (p.split block) = block.toNat) ∧
    ∀ (key key' : SipState) (salt salt' : UInt32) (order order' : List Part), salt ≠ salt' →
      (fetches ((ofSalt key salt).record order)).length ≤ 0x100000000 →
      (fetches ((ofSalt key' salt').record order')).length ≤ 0x100000000 →
      ∀ f ∈ fetches ((ofSalt key salt).record order),
        ∀ f' ∈ fetches ((ofSalt key' salt').record order'), f.counter ≠ f'.counter := by
  refine ⟨fun key salt order => ⟨record_length _ _, fun k f => fresh_counter,
    length_fetches key salt order, fun n d here => ?_, fun p => ?_⟩, Part.join_split, ?_⟩
  · have drew := record_getElem? (ofSalt key salt) order n
    rw [here] at drew
    obtain ⟨p, asked, rfl⟩ := Option.map_eq_some_iff.mp drew.symm
    refine ⟨asked, ?_, value_located here⟩
    rw [drawn_fetched, ← fresh_empty key salt]
    split <;> simp [*, drawn]
  · refine ⟨(fresh_conserves key salt order p).symm, ?_⟩
    rw [left, Part.length_allOf]
    exact (open_ofSalt key salt).after order p
  · intro key key' salt salt' order order' apart few few' f member f' member'
    obtain ⟨k, here⟩ := List.getElem?_of_mem member
    obtain ⟨l, here'⟩ := List.getElem?_of_mem member'
    rw [fresh_counter here, fresh_counter here']
    exact counters_apart apart
      (Nat.lt_of_lt_of_le (List.getElem?_eq_some_iff.mp here).1 few)
      (Nat.lt_of_lt_of_le (List.getElem?_eq_some_iff.mp here').1 few')

def turns : List Part :=
  [.byte, .half, .byte, .byte, .half, .byte, .byte, .byte, .byte, .half, .byte, .byte]

def turned (salt : UInt32) : List Drawn := (ofSalt ⟨1, 2, 3, 4⟩ salt).record turns

theorem turns_split_counter_stream :
    fetches (turned 0) = [⟨.byte, 0⟩, ⟨.half, 1⟩, ⟨.half, 2⟩, ⟨.byte, 3⟩] ∧
      (∃ d, (turned 0)[11]? = some d ∧ d.part = .byte ∧ d.fetched = some 3 ∧
        ∃ k f, (fetches (turned 0))[k]? = some f ∧ f.part = .byte ∧
          ((fetches (turned 0)).take k).countP (fun f => f.part = .byte) = 1 ∧
          d.value = Part.byte.ofWord ((⟨1, 2, 3, 4⟩ : SipState).counterBlock f.counter) 0) ∧
      ∀ f ∈ fetches (turned 0), ∀ f' ∈ fetches (turned 1), f.counter ≠ f'.counter := by
  obtain ⟨one, _, two⟩ := draws_split_counter_stream
  have zero := one ⟨1, 2, 3, 4⟩ 0 turns
  have blocks : fetches (turned 0) = [⟨.byte, 0⟩, ⟨.half, 1⟩, ⟨.half, 2⟩, ⟨.byte, 3⟩] := by
    decide +kernel
  have few : ∀ salt, (fetches (turned salt)).length ≤ 0x100000000 := by
    intro salt
    rw [turned, (one ⟨1, 2, 3, 4⟩ salt turns).2.2.1]
    decide
  refine ⟨blocks, ?_, two _ _ 0 1 turns turns (by decide) (few 0) (few 1)⟩
  obtain ⟨d, here⟩ : ∃ d, (turned 0)[11]? = some d := ⟨_, rfl⟩
  have last := zero.2.2.2.1 11 d here
  have fetched : ((turned 0)[11]?).map (fun d => (d.part, d.fetched)) = some (.byte, some 3) := by
    decide +kernel
  rw [here] at fetched
  obtain ⟨part, counter⟩ := Prod.mk.inj (Option.some.inj fetched)
  obtain ⟨_, _, k, f, there, kind, number, value⟩ := last
  rw [part] at kind number value
  exact ⟨d, here, part, counter, k, f, there, kind, number, value⟩

end ProgramHash.CounterStream
