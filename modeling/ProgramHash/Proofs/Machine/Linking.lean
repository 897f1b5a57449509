import ProgramHash.Machine.Assembly
import ProgramHash.Proofs.Machine.Reading
import ProgramHash.Proofs.Outcomes
import ProgramHash.Proofs.Places

namespace ProgramHash.Machine

namespace Assembly

section Patching

variable {code : Array UInt8}

@[simp] theorem write_size (position : Nat) (bytes : List UInt8) :
    (write code position bytes).size = code.size := by
  induction bytes generalizing code position with
  | nil => rfl
  | cons b bytes ih => rw [write, ih, Array.size_setIfInBounds]

theorem write_outside {position i : Nat} {bytes : List UInt8}
    (outside : i < position ∨ position + bytes.length ≤ i) :
    (write code position bytes)[i]? = code[i]? := by
  induction bytes generalizing code position with
  | nil => rfl
  | cons b bytes ih =>
      simp only [List.length_cons] at outside
      rw [write, ih (by omega), Array.getElem?_setIfInBounds, if_neg (by omega)]

theorem write_inside {position j : Nat} {bytes : List UInt8}
    (room : position + bytes.length ≤ code.size) (inside : j < bytes.length) :
    (write code position bytes)[position + j]? = bytes[j]? := by
  induction bytes generalizing code position j with
  | nil => cases inside
  | cons b bytes ih =>
      simp only [List.length_cons] at room inside
      cases j with
      | zero =>
          rw [write, Nat.add_zero, write_outside (by omega)]
          simp [show position < code.size by omega]
      | succ j =>
          have later := @ih (code.setIfInBounds position b) (position + 1) j
            (by rw [Array.size_setIfInBounds]; omega) (by omega)
          rw [write, show position + (j + 1) = position + 1 + j by omega, later]
          rfl

theorem distance_ok {start target : Nat} {d : Int32} (measured : distance start target = .ok d) :
    (start : Int) + d.toInt = target := by
  unfold distance at measured
  dsimp only at measured
  split at measured
  · rename_i near
    cases measured
    unfold reach at near
    rw [Int32.toInt_ofInt_of_le (by omega) (by omega)]
    omega
  · cases measured

theorem distance_near {start target : Nat} (near : start < reach ∧ target < reach) :
    ∃ d, distance start target = .ok d := by
  unfold distance
  exact ⟨_, if_pos (by unfold reach at near ⊢; omega)⟩

theorem link_ok {field target : Nat} {linked : Array UInt8}
    (done : link code field target = .ok linked) :
    ∃ d : Int32, linked = write code field (bytesOfInt32 d) ∧
      ((field + 4 : Nat) : Int) + d.toInt = target := by
  obtain ⟨d, measured, rfl⟩ := map_ok.mp done
  exact ⟨d, rfl, distance_ok measured⟩

end Patching

-- Whether a byte of the code belongs to no field that awaits a constant.
def Settled (a : Assembly) (i : Nat) : Prop := ∀ u ∈ a.uses, i < u.1 ∨ u.1 + 4 ≤ i

structure WellFormed (a : Assembly) : Prop where
  lanes : 0 < a.lanes
  inside : ∀ u ∈ a.uses, u.1 + 4 ≤ a.code.size ∧ u.2 < a.constants.size
  apart : a.uses.toList.Pairwise fun u v => u.1 + 4 ≤ v.1

theorem wellFormed_empty {lanes : Nat} (some : 0 < lanes) : (empty lanes).WellFormed where
  lanes := some
  inside := fun u member => by simp [empty] at member
  apart := List.Pairwise.nil

-- A later state of the same assembly: the code stands as it did, and what awaits
-- a constant since then lies beyond it.
structure Extends (a b : Assembly) : Prop where
  lanes : b.lanes = a.lanes
  size : a.code.size ≤ b.code.size
  code : ∀ i < a.code.size, b.code[i]? = a.code[i]?
  uses : ∀ u ∈ b.uses, u ∈ a.uses ∨ a.code.size ≤ u.1
  kept : ∀ u ∈ a.uses, u ∈ b.uses
  constants : ∀ k < a.constants.size, b.constants[k]? = a.constants[k]?
  more : a.constants.size ≤ b.constants.size

namespace Extends

variable {a b c : Assembly}

theorem refl (a : Assembly) : Extends a a :=
  ⟨rfl, Nat.le_refl _, fun _ _ => rfl, fun _ => .inl, fun _ => id, fun _ _ => rfl, Nat.le_refl _⟩

theorem trans (first : Extends a b) (second : Extends b c) : Extends a c where
  lanes := second.lanes.trans first.lanes
  size := Nat.le_trans first.size second.size
  code := fun i inside => (second.code i (Nat.lt_of_lt_of_le inside first.size)).trans
    (first.code i inside)
  uses := fun u member => by
    rcases second.uses u member with early | late
    · exact first.uses u early
    · exact .inr (Nat.le_trans first.size late)
  kept := fun u member => second.kept u (first.kept u member)
  constants := fun k inside => (second.constants k (Nat.lt_of_lt_of_le inside first.more)).trans
    (first.constants k inside)
  more := Nat.le_trans first.more second.more

end Extends

section Emission

variable {a : Assembly}

theorem append_list {α : Type} (xs : Array α) (l : List α) : xs ++ l = xs ++ l.toArray :=
  Array.ext' (by simp)

theorem emit_code_eq (bytes : List UInt8) : (a.emit bytes).code = a.code ++ bytes.toArray :=
  append_list _ _

@[simp] theorem emit_offset (bytes : List UInt8) :
    (a.emit bytes).offset = a.offset + bytes.length := by
  simp [offset, emit_code_eq]

theorem emit_code (bytes : List UInt8) (j : Nat) :
    (a.emit bytes).code[a.offset + j]? = bytes[j]? := by
  simp [emit_code_eq, offset, Array.getElem?_append_right]

theorem emit_extends (bytes : List UInt8) : Extends a (a.emit bytes) where
  lanes := rfl
  size := by simp [emit_code_eq]
  code := fun i inside => by rw [emit_code_eq, Array.getElem?_append_left inside]
  uses := fun _ => .inl
  kept := fun _ => id
  constants := fun _ _ => rfl
  more := Nat.le_refl _

theorem WellFormed.of_same {b : Assembly} (formed : a.WellFormed)
    (same : b.lanes = a.lanes ∧ b.uses = a.uses ∧ b.constants = a.constants)
    (size : a.code.size ≤ b.code.size) : b.WellFormed where
  lanes := same.1 ▸ formed.lanes
  inside := by
    rw [same.2.1, same.2.2]
    exact fun u member => ⟨Nat.le_trans (formed.inside u member).1 size, (formed.inside u member).2⟩
  apart := same.2.1 ▸ formed.apart

theorem emit_wellFormed (formed : a.WellFormed) (bytes : List UInt8) :
    (a.emit bytes).WellFormed :=
  formed.of_same ⟨rfl, rfl, rfl⟩ (emit_extends bytes).size

theorem indexOf_spec (constants : Array Word) (value : Word) :
    (indexOf constants value).1[(indexOf constants value).2]? = some value ∧
      (∀ k < constants.size, (indexOf constants value).1[k]? = constants[k]?) ∧
      constants.size ≤ (indexOf constants value).1.size := by
  unfold indexOf
  cases found : constants.idxOf? value with
  | some index =>
      rw [Array.idxOf?_eq_map_finIdxOf?_val, Option.map_eq_some_iff] at found
      obtain ⟨i, located, rfl⟩ := found
      have here := (Array.finIdxOf?_eq_some_iff.mp located).1
      exact ⟨by simpa using here, fun _ _ => rfl, Nat.le_refl _⟩
  | none =>
      refine ⟨by simp, fun k inside => ?_, by simp⟩
      simp [Array.getElem?_push, Nat.ne_of_lt inside]

theorem indexOf_toList (cs : Array Word) (value : Word) :
    (indexOf cs value).1.toList =
      cs.toList ++ if value ∈ cs.toList then [] else [value] := by
  unfold indexOf
  cases found : cs.idxOf? value with
  | none =>
      have absent := Array.idxOf?_eq_none_iff.mp found
      simp [absent]
  | some k =>
      have present : value ∈ cs := Classical.byContradiction fun absent => by
        rw [Array.idxOf?_eq_none_iff.mpr absent] at found
        cases found
      simp [present]

theorem emitWithConstant_extends {bytes : List UInt8} (long : 4 ≤ bytes.length) (value : Word) :
    Extends a (a.emitWithConstant bytes value) where
  lanes := rfl
  size := (emit_extends bytes).size
  code := (emit_extends bytes).code
  uses := fun u member => by
    rcases Array.mem_push.mp member with early | rfl
    · exact .inl early
    · have size := @emit_offset a bytes
      simp only [offset] at size
      refine .inr ?_
      simp only [field, size]
      omega
  kept := fun u member => Array.mem_push.mpr (.inl member)
  constants := (indexOf_spec a.constants value).2.1
  more := (indexOf_spec a.constants value).2.2

theorem emitWithConstant_wellFormed (formed : a.WellFormed) {bytes : List UInt8}
    (long : 4 ≤ bytes.length) (value : Word) : (a.emitWithConstant bytes value).WellFormed where
  lanes := formed.lanes
  inside := fun u member => by
    have extended := @emitWithConstant_extends a bytes long value
    rcases Array.mem_push.mp member with early | rfl
    · obtain ⟨room, known⟩ := formed.inside u early
      exact ⟨Nat.le_trans room extended.size, Nat.lt_of_lt_of_le known extended.more⟩
    · have size := @emit_offset a bytes
      have here := (indexOf_spec a.constants value).1
      simp only [offset] at size
      refine ⟨?_, (Array.getElem?_eq_some_iff.mp here).1⟩
      change (a.emit bytes).code.size - 4 + 4 ≤ (a.emit bytes).code.size
      omega
  apart := by
    have size := @emit_offset a bytes
    simp only [offset] at size
    change (a.uses.push _).toList.Pairwise _
    rw [Array.toList_push, List.pairwise_append]
    refine ⟨formed.apart, List.pairwise_singleton _ _, fun u member v same => ?_⟩
    have room := (formed.inside u (by simpa using member)).1
    rw [List.mem_singleton] at same
    subst same
    simp only [field, size]
    omega

theorem emitWithConstant_use (bytes : List UInt8) (value : Word) :
    ∃ k, (a.offset + bytes.length - 4, k) ∈ (a.emitWithConstant bytes value).uses ∧
      (a.emitWithConstant bytes value).constants[k]? = some value := by
  refine ⟨(indexOf a.constants value).2, ?_, (indexOf_spec a.constants value).1⟩
  have size := @emit_offset a bytes
  simp only [offset] at size
  refine Array.mem_push.mpr (.inr ?_)
  simp only [field, size, offset]
  rfl

def patch (a : Assembly) (field : Nat) (bytes : List UInt8) : Assembly :=
  { a with code := write a.code field bytes }

theorem bindTo_ok {b : Assembly} {field target : Nat} (done : a.bindTo field target = .ok b) :
    ∃ d : Int32, ((field + 4 : Nat) : Int) + d.toInt = target ∧
      b = a.patch field (bytesOfInt32 d) := by
  obtain ⟨code, linked, rfl⟩ := map_ok.mp done
  obtain ⟨d, rfl, reaches⟩ := link_ok linked
  exact ⟨d, reaches, rfl⟩

theorem write_append {code : Array UInt8} {position : Nat} {bytes : List UInt8} (rest : List UInt8)
    (room : position + bytes.length ≤ code.size) :
    write (code ++ rest) position bytes = write code position bytes ++ rest := by
  induction bytes generalizing code position with
  | nil => rfl
  | cons b bytes ih =>
      simp only [List.length_cons] at room
      have here : (code ++ rest).setIfInBounds position b = code.setIfInBounds position b ++ rest := by
        rw [append_list, append_list, Array.setIfInBounds_append_left (by omega)]
      rw [write, write, here, ih (by rw [Array.size_setIfInBounds]; omega)]

theorem write_last {code : Array UInt8} {old bytes : List UInt8} (same : old.length = bytes.length) :
    write (code ++ old) code.size bytes = code ++ bytes := by
  rw [append_list, append_list]
  apply Array.ext_getElem?
  intro i
  by_cases before : i < code.size
  · rw [write_outside (.inl before), Array.getElem?_append_left before,
      Array.getElem?_append_left before]
  · obtain ⟨j, rfl⟩ := Nat.exists_eq_add_of_le (Nat.le_of_not_lt before)
    rw [Array.getElem?_append_right (Nat.le_add_right _ _), Nat.add_sub_cancel_left]
    by_cases inside : j < bytes.length
    · rw [write_inside (by simp; omega) inside]
      simp
    · rw [write_outside (by omega), Array.getElem?_append_right (Nat.le_add_right _ _)]
      simp only [Nat.add_sub_cancel_left, List.getElem?_toArray]
      rw [List.getElem?_eq_none (by omega), List.getElem?_eq_none (by omega)]

-- A jump that is bound is the same as one emitted with its distance, whatever is
-- emitted between the two.
theorem patch_emit {field : Nat} {bytes more : List UInt8} (room : field + bytes.length ≤ a.offset) :
    (a.emit more).patch field bytes = (a.patch field bytes).emit more := by
  simp only [patch, emit, write_append more room]

theorem patch_emitWithConstant {field : Nat} {bytes more : List UInt8} (value : Word)
    (room : field + bytes.length ≤ a.offset) :
    (a.emitWithConstant more value).patch field bytes =
      (a.patch field bytes).emitWithConstant more value := by
  simp only [patch, emitWithConstant, emit, Assembly.field, write_append more room]
  simp [append_list]

theorem patch_field {op : Operation} {held : Int32} (holds : op.distance? = some held) (d : Int32) :
    (a.emit op.encode).patch (a.emit op.encode).field (bytesOfInt32 d) =
      a.emit (op.withDistance d).encode := by
  obtain ⟨front, before, after⟩ := encode_withDistance holds d
  have size : (a.emit op.encode).code.size - 4 = (a.code ++ front).size := by
    rw [emit_code_eq, append_list, before]
    simp [bytesOfInt32_length]
    omega
  have split (tail : List UInt8) : a.code ++ (front ++ tail) = a.code ++ front ++ tail := by
    simp [append_list]
  simp only [patch, field, size]
  simp only [emit, before, after, split]
  rw [write_last (by simp only [bytesOfInt32_length])]

end Emission

structure Entry (image : Array UInt8) (pool lanes start : Nat) (value : Word) : Prop where
  after : pool ≤ start
  aligned : start % (8 * lanes) = 0
  bytes : ∀ j < 8 * lanes, image[start + j]? = (Bytes.ofWord value)[j % 8]?

-- An image that holds the code, with every field leading to its constant.
structure Linked (image : Array UInt8) (pool : Nat) (a : Assembly) : Prop where
  size : a.code.size ≤ pool
  room : pool ≤ image.size
  code : ∀ i < a.code.size, a.Settled i → image[i]? = a.code[i]?
  uses : ∀ u ∈ a.uses, ∃ (d : Int32) (start : Nat) (value : Word),
    ((u.1 + 4 : Nat) : Int) + d.toInt = start ∧
    (∀ j < 4, image[u.1 + j]? = (bytesOfInt32 d)[j]?) ∧
    a.constants[u.2]? = some value ∧ Entry image pool a.lanes start value

theorem Linked.earlier {image : Array UInt8} {pool : Nat} {a b : Assembly}
    (linked : Linked image pool b) (formed : a.WellFormed) (extended : Extends a b) :
    Linked image pool a where
  size := Nat.le_trans extended.size linked.size
  room := linked.room
  code := fun i inside settled => by
    rw [← extended.code i inside]
    refine linked.code i (Nat.lt_of_lt_of_le inside extended.size) fun u member => ?_
    rcases extended.uses u member with early | late
    · exact settled u early
    · exact .inl (Nat.lt_of_lt_of_le inside late)
  uses := fun u member => by
    obtain ⟨d, start, value, reaches, bytes, constant, entry⟩ := linked.uses u (extended.kept u member)
    refine ⟨d, start, value, reaches, bytes, ?_, extended.lanes ▸ entry⟩
    rw [← extended.constants u.2 (formed.inside u member).2]
    exact constant

section Finishing

theorem ofWord_length (w : Word) : (Bytes.ofWord w).length = 8 := Bytes.ofNat_length 8 _

theorem copies_length (lanes : Nat) (w : Word) :
    (List.replicate lanes (Bytes.ofWord w)).flatten.length = 8 * lanes := by
  simp [ofWord_length, Nat.mul_comm]

theorem pool_bytes (a : Assembly) {k j : Nat} {value : Word} (known : a.constants[k]? = some value)
    (inside : j < 8 * a.lanes) :
    a.pool[a.entrySize * k + j]? = (Bytes.ofWord value)[j % 8]? := by
  have blocks : ∀ b ∈ a.constants.toList.map fun c =>
      (List.replicate a.lanes (Bytes.ofWord c)).flatten, b.length = a.entrySize := by
    intro b member
    obtain ⟨c, _, rfl⟩ := List.mem_map.mp member
    exact copies_length a.lanes c
  have copies : ∀ b ∈ List.replicate a.lanes (Bytes.ofWord value), b.length = 8 := by
    intro b member
    rw [List.eq_of_mem_replicate member, ofWord_length]
  unfold pool
  rw [List.flatMap_def, getElem?_flatten_uniform blocks k inside, List.getElem?_map,
    Array.getElem?_toList, known]
  simp only [Option.map_some, Option.bind_some]
  conv => lhs; rw [show j = 8 * (j / 8) + j % 8 by omega]
  rw [getElem?_flatten_uniform copies _ (Nat.mod_lt _ (by decide)), List.getElem?_replicate,
    if_pos (by omega)]
  rfl

theorem linkUses_ok (a : Assembly) {uses : List (Nat × Nat)} {before after : Array UInt8}
    (inside : ∀ u ∈ uses, u.1 + 4 ≤ before.size)
    (apart : uses.Pairwise fun u v => u.1 + 4 ≤ v.1)
    (done : uses.foldlM a.linkUse before = .ok after) :
    after.size = before.size ∧
      (∀ i, (∀ u ∈ uses, i < u.1 ∨ u.1 + 4 ≤ i) → after[i]? = before[i]?) ∧
      ∀ u ∈ uses, ∃ d : Int32,
        ((u.1 + 4 : Nat) : Int) + d.toInt = (a.poolStart + u.2 * a.entrySize : Nat) ∧
        ∀ j < 4, after[u.1 + j]? = (bytesOfInt32 d)[j]? := by
  induction uses generalizing before with
  | nil => cases done; exact ⟨rfl, fun _ _ => rfl, by simp⟩
  | cons u uses ih =>
      rw [List.foldlM_cons] at done
      obtain ⟨linked, first, done⟩ := bind_ok.mp done
      obtain ⟨d, rfl, reaches⟩ := link_ok first
      obtain ⟨beyond, apart⟩ := List.pairwise_cons.mp apart
      have four := bytesOfInt32_length d
      obtain ⟨size, outside, fields⟩ := ih
        (fun v member => by rw [write_size]; exact inside v (List.mem_cons_of_mem _ member))
        apart done
      rw [write_size] at size
      refine ⟨size, fun i settled => ?_, fun v member => ?_⟩
      · have here := settled u List.mem_cons_self
        rw [outside i fun v member => settled v (List.mem_cons_of_mem _ member),
          write_outside (by omega)]
      · rcases List.mem_cons.mp member with rfl | member
        · refine ⟨d, reaches, fun j small => ?_⟩
          rw [outside _ fun w other => .inl (by have := beyond w other; omega),
            write_inside (by have := inside v List.mem_cons_self; omega) (by omega)]
        · exact fields v member

theorem poolStart_spec {a : Assembly} (formed : a.WellFormed) :
    a.code.size ≤ a.poolStart ∧ a.poolStart % (8 * a.lanes) = 0 := by
  have positive : 0 < a.entrySize := Nat.mul_pos (by decide) formed.lanes
  refine ⟨?_, Nat.mul_mod_left _ _⟩
  have whole := Nat.div_add_mod (a.code.size + a.entrySize - 1) a.entrySize
  have rest := Nat.mod_lt (a.code.size + a.entrySize - 1) positive
  rw [Nat.mul_comm] at whole
  unfold poolStart
  omega

theorem padded_size {a : Assembly} (formed : a.WellFormed) : a.padded.size = a.poolStart := by
  have start := (poolStart_spec formed).1
  rw [padded, append_list]
  simp
  omega

theorem finish_ok {a : Assembly} {image : Array UInt8} (done : a.finish = .ok image) :
    ∃ filled, a.uses.toList.foldlM a.linkUse a.padded = .ok filled ∧
      image = filled ++ a.pool.toArray := by
  obtain ⟨filled, linked, rfl⟩ := map_ok.mp done
  exact ⟨filled, linked, append_list filled a.pool⟩

theorem finish_linked {a : Assembly} {image : Array UInt8} (formed : a.WellFormed)
    (done : a.finish = .ok image) : Linked image a.poolStart a := by
  obtain ⟨code, linked, rfl⟩ := finish_ok done
  obtain ⟨start, aligned⟩ := poolStart_spec formed
  have room := padded_size formed
  obtain ⟨size, outside, fields⟩ := @linkUses_ok a _ a.padded code
    (fun u member => by
      have := (formed.inside u (by simpa using member)).1
      omega)
    formed.apart linked
  rw [room] at size
  have before (i : Nat) (early : i < a.poolStart) :
      (code ++ a.pool.toArray)[i]? = code[i]? :=
    Array.getElem?_append_left (size ▸ early)
  refine ⟨start, by simp [size], fun i inside settled => ?_, fun u member => ?_⟩
  · rw [before i (Nat.lt_of_lt_of_le inside start),
      outside i fun u member => settled u (by simpa using member), padded, append_list,
      Array.getElem?_append_left inside]
  · obtain ⟨room, known⟩ := formed.inside u member
    obtain ⟨d, reaches, bytes⟩ := fields u (by simpa using member)
    refine ⟨d, a.poolStart + u.2 * a.entrySize, a.constants[u.2], reaches, fun j small => ?_,
      Array.getElem?_eq_getElem known, Nat.le_add_right _ _, ?_, fun j small => ?_⟩
    · rw [before _ (by omega)]
      exact bytes j small
    · rw [Nat.add_mod, aligned]
      simp [entrySize]
    · rw [Array.getElem?_append_right (by omega), size,
        show a.poolStart + u.2 * a.entrySize + j - a.poolStart = a.entrySize * u.2 + j by
          rw [Nat.mul_comm]; omega, List.getElem?_toArray]
      exact a.pool_bytes (Array.getElem?_eq_getElem known) small

end Finishing

end Assembly

end ProgramHash.Machine
