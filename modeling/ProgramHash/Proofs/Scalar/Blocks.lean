import ProgramHash.Proofs.Machine.Running
import ProgramHash.Proofs.Replay

namespace ProgramHash.ScalarCode

open Machine

def pieces : Instruction → List Piece
  | .mul d r => [.plain (.multiply (home d) (home r))]
  | .umulh d r =>
      [.plain (.move scratch (home d)), .plain (.wideMultiply (home r)), .plain (.move (home d) product)]
  | .smulh d r =>
      [.plain (.move scratch (home d)), .plain (.signedWideMultiply (home r)),
       .plain (.move (home d) product)]
  | .addShift d r shift => [.plain (.shiftedSum (home d) (home r) shift)]
  | .addConst d k => [.constant (.aluPool .add (home d) 0) (Word.signExtend k)]
  | .sub d r => [.plain (.alu .sub (home d) (home r))]
  | .xor d r => [.plain (.alu .xor (home d) (home r))]
  | .xorConst d k => [.constant (.aluPool .xor (home d) 0) (Word.signExtend k)]
  | .rotate d amount => [.plain (.rotateRight (home d) amount)]
  | .target | .branch _ => []

def branchPieces (mask : UInt32) (d : Int32) : List Piece :=
  [.plain (.orHalf product branched), .constant (.testHalfPool product 0) mask.toUInt64,
   .plain (.jumpIfNonzero takeBranchSize), .plain (.orHalfImmediate branched (-1)), .plain (.jump d)]

-- Sums with a shift are only encoded for small shifts and not into r5.
def Encodable : Instruction → Prop
  | .addShift d _ shift => d ≠ 5 ∧ shift < 4
  | _ => True

theorem home_base : ∀ d : Register, d ≠ 5 → low (home d).val ≠ relativeOperand := by decide

theorem home_ne_rsp : ∀ r : Register, home r ≠ Gpr.rsp := by decide

theorem pieces_fit {i : Instruction} (encodable : Encodable i) : ∀ piece ∈ pieces i, piece.Fits := by
  cases i with
  | addShift d r shift =>
      obtain ⟨other, small⟩ := encodable
      intro piece member
      rw [List.mem_singleton.mp member]
      exact ⟨⟨home_base d other, home_ne_rsp r, small⟩, by simp, .inr rfl⟩
  | _ => simp [pieces, Piece.Fits, Operation.Admitted, Operation.distance?, Operation.isJump]

theorem branchPieces_fit (mask : UInt32) (d : Int32) : ∀ piece ∈ branchPieces mask d, piece.Fits := by
  simp [branchPieces, Piece.Fits, Operation.Admitted, Operation.distance?, Operation.isJump]

theorem emitBranch_pieces {a b : Assembly} {mask : UInt32} {target : Nat}
    (done : emitBranch a mask target = .ok b) :
    ∃ d : Int32, b = a.putAll (branchPieces mask d) ∧ (b.offset : Int) + d.toInt = target := by
  unfold emitBranch at done
  obtain ⟨d, reaches, rfl⟩ := Assembly.bindTo_ok done
  refine ⟨d, Assembly.patch_field rfl d, ?_⟩
  rw [← reaches]
  simp only [Assembly.patch, Assembly.offset, Assembly.write_size, Assembly.field,
    Assembly.emit_code_eq]
  have five : (Operation.jump 0).encode.length = 5 := rfl
  simp only [Array.size_append, List.size_toArray, five]
  rfl

structure Writes (written : List Gpr) (p q : Processor) : Prop where
  memory : q.memory = p.memory
  base : q.base = p.base
  stack : q.stack = p.stack
  others : ∀ g, g ∉ written → q.gprs[g] = p.gprs[g]

theorem gprs_set_self (gprs : Bank Word 16) (r : Gpr) (x : Word) : (gprs.set r x)[r] = x := by
  simp

theorem gprs_set_other {gprs : Bank Word 16} {r g : Gpr} {x : Word} (other : g ≠ r) :
    (gprs.set r x)[g] = gprs[g] := by
  simp [other]

def untouched : List Gpr := [Gpr.rcx, Gpr.rbx, Gpr.rbp, file]

-- The processor on the way through the code, as it stands to the entry: the file
-- is as it was, and what was saved lies on the stack.
structure Keeps (entry p : Processor) : Prop where
  memory : p.memory = entry.memory
  base : p.base = entry.base
  stack : p.stack = (saved.map fun g => entry.gprs[g]).reverse
  pointer : p.gprs[Gpr.rsp] = entry.gprs[Gpr.rsp] - 32
  others : ∀ g ∈ untouched, p.gprs[g] = entry.gprs[g]

-- The processor holds the values of the interpreter: the registers in their
-- homes, the product while it matters, and whether the branch was taken.
structure Mirrors (entry : Processor) (may : Bool) (v : Values) (p : Processor) : Prop where
  keeps : Keeps entry p
  file : ∀ r : Register, p.gprs[home r] = v.file[r]
  upper : may = true → p.half product = v.product
  flag : p.half branched = if may then 0 else 0xffffffff

theorem home_injective {r d : Register} (same : home r = home d) : r = d := by
  have values := congrArg Fin.val same
  simp only [home] at values
  exact Fin.ext (by omega)

theorem home_apart : ∀ r : Register, home r ∉ [scratch, product, branched, Gpr.rsp] ++ untouched := by
  decide

section Values

variable {entry p q : Processor} {may : Bool} {v : Values} {d : Register} {x : Word}

theorem Keeps.written (keeps : Keeps entry p) {written : List Gpr} (writes : Writes written p q)
    (own : ∀ g ∈ written, g ∉ Gpr.rsp :: untouched) : Keeps entry q where
  memory := writes.memory.trans keeps.memory
  base := writes.base.trans keeps.base
  stack := writes.stack.trans keeps.stack
  pointer := (writes.others _ fun member => own _ member List.mem_cons_self).trans keeps.pointer
  others := fun g member => (writes.others g fun changed =>
    own g changed (List.mem_cons_of_mem _ member)).trans (keeps.others g member)

theorem own_registers : ∀ d : Register, ∀ g ∈ [home d, scratch, product],
    g ∉ Gpr.rsp :: untouched ∧ g ≠ branched := by decide

theorem home_or_scratch : ∀ d r : Register, r ≠ d → home r ∉ [home d, scratch, product] := by decide

theorem Mirrors.assign (mirrors : Mirrors entry may v p) {u : UInt32}
    (writes : Writes [home d, scratch, product] p q) (value : q.gprs[home d] = x)
    (latest : may = true → q.half product = u) : Mirrors entry may ⟨v.file.set d x, u⟩ q where
  keeps := mirrors.keeps.written writes fun g member => (own_registers d g member).1
  file := fun r => by
    rw [Bank.read_set]
    split
    · rename_i same
      rw [same, value]
    · rename_i other
      rw [writes.others _ (home_or_scratch d r other), mirrors.file]
  upper := latest
  flag := by
    rw [← mirrors.flag]
    exact congrArg UInt64.toUInt32
      (writes.others branched fun member => (own_registers d _ member).2 rfl)

theorem Mirrors.set (mirrors : Mirrors entry may v p) (writes : Writes [home d] p q)
    (value : q.gprs[home d] = x) : Mirrors entry may { v with file := v.file.set d x } q := by
  refine mirrors.assign { writes with
    others := fun g member => writes.others g fun same => member ?_ } value fun yes => ?_
  · rw [List.mem_singleton.mp same]
    exact List.mem_cons_self
  · rw [← mirrors.upper yes]
    refine congrArg UInt64.toUInt32 (writes.others _ fun same => ?_)
    exact home_apart d (by rw [← List.mem_singleton.mp same]; decide)

theorem writes_one {r : Gpr} {y : Word} (same : q.memory = p.memory ∧ q.base = p.base ∧ q.stack = p.stack)
    (set : q.gprs = p.gprs.set r y) : Writes [r] p q where
  memory := same.1
  base := same.2.1
  stack := same.2.2
  others := fun g member => by
    rw [set, gprs_set_other fun equal => member (List.mem_singleton.mpr equal)]

end Values

section Instructions

variable {image : Array UInt8} {pool : Nat} {entry p : Processor} {may : Bool} {v : Values}

theorem Mirrors.put (mirrors : Mirrors entry may v p) {d : Register} {q : Processor} {x y : Word}
    (same : q.memory = p.memory ∧ q.base = p.base ∧ q.stack = p.stack)
    (set : q.gprs = p.gprs.set (home d) x) (equal : x = y) :
    Mirrors entry may { v with file := v.file.set d y } q :=
  mirrors.set (writes_one same set) (by rw [set, gprs_set_self, equal])

theorem pool_sum_does (mirrors : Mirrors entry may v p) (op : AluOp) (d : Register) (k : Word) :
    ∃ q, DoAll image pool 1 [.constant (.aluPool op (home d) 0) k] p q ∧
      Mirrors entry may { v with file := v.file.set d (op.apply v.file[d] k) } q := by
  refine ⟨{ (p.passing (.aluPool op (home d) 0)).setGpr (home d) (op.apply p.gprs[home d] k) with
      zero := some (op.apply p.gprs[home d] k = 0) }, ⟨_, fun relative start reaches entry => ?_, rfl, rfl⟩,
    mirrors.put ⟨rfl, rfl, rfl⟩ rfl (by rw [mirrors.file])⟩
  have read : Processor.imageWord? image ((p.passing (.aluPool op (home d) 0)).position +
      relative.toInt) = some k := by
    rw [← Processor.entry_word entry (by decide), ← reaches]
    rfl
  simp only [Operation.withDistance, Processor.execute, read, Processor.trap]
  rfl

theorem wide_product_does (mirrors : Mirrors entry may v p) (d : Register) {r : Register}
    (op : Operation) {upper : Word → Word → Word}
    (meaning : ∀ q : Processor, Processor.execute image q op = .ok
      { (q.setGpr Gpr.rax (q.gprs[Gpr.rax] * q.gprs[home r])).setGpr Gpr.rdx
          (upper q.gprs[Gpr.rax] q.gprs[home r]) with zero := none }) :
    ∃ q, DoAll image pool 1 [.plain (.move scratch (home d)), .plain op,
        .plain (.move (home d) product)] p q ∧
      Mirrors entry may ⟨v.file.set d (upper v.file[d] v.file[r]),
        (upper v.file[d] v.file[r]).lowHalf⟩ q := by
  have dividend : (p.gprs.set Gpr.rax p.gprs[home d])[Gpr.rax] = v.file[d] := by
    rw [gprs_set_self, mirrors.file]
  have factor : (p.gprs.set Gpr.rax p.gprs[home d])[home r] = v.file[r] := by
    rw [gprs_set_other, mirrors.file]
    exact fun same => home_apart r (by rw [same]; decide)
  refine ⟨_, ⟨_, rfl, rfl, _, meaning _, rfl, _, rfl, rfl, rfl⟩,
    mirrors.assign ⟨rfl, rfl, rfl, fun g other => ?_⟩ ?_ fun _ => ?_⟩
  all_goals simp only [Processor.setGpr, Processor.passing, scratch, product, Processor.half,
    dividend, factor, gprs_set_self]
  · simp only [List.mem_cons, List.not_mem_nil, or_false, not_or] at other
    obtain ⟨away, notRax, notRdx⟩ : g ≠ home d ∧ g ≠ Gpr.rax ∧ g ≠ Gpr.rdx := other
    rw [gprs_set_other away, gprs_set_other notRdx, gprs_set_other notRax, gprs_set_other notRax]
  · rw [gprs_set_other fun same => home_apart d (by rw [← same]; decide), gprs_set_self]
    rfl

theorem pieces_do {i : Instruction} (mirrors : Mirrors entry may v p) :
    ∃ q, DoAll image pool 1 (pieces i) p q ∧ Mirrors entry may (i.apply v) q := by
  have held := mirrors.file
  cases i with
  | mul d r =>
      refine ⟨_, ⟨_, rfl, rfl, rfl⟩, mirrors.put ⟨rfl, rfl, rfl⟩ rfl ?_⟩
      rw [← held d, ← held r]
      rfl
  | umulh d r => exact wide_product_does mirrors d (.wideMultiply (home r)) (fun _ => rfl)
  | smulh d r => exact wide_product_does mirrors d (.signedWideMultiply (home r)) (fun _ => rfl)
  | addShift d r shift =>
      refine ⟨_, ⟨_, rfl, rfl, rfl⟩, mirrors.put ⟨rfl, rfl, rfl⟩ rfl ?_⟩
      rw [← held d, ← held r]
      rfl
  | addConst d k => exact pool_sum_does mirrors .add d _
  | sub d r =>
      refine ⟨_, ⟨_, rfl, rfl, rfl⟩, mirrors.put ⟨rfl, rfl, rfl⟩ rfl ?_⟩
      rw [← held d, ← held r]
      rfl
  | xor d r =>
      refine ⟨_, ⟨_, rfl, rfl, rfl⟩, mirrors.put ⟨rfl, rfl, rfl⟩ rfl ?_⟩
      rw [← held d, ← held r]
      rfl
  | xorConst d k => exact pool_sum_does mirrors .xor d _
  | rotate d amount =>
      refine ⟨_, ⟨_, rfl, rfl, rfl⟩, mirrors.put ⟨rfl, rfl, rfl⟩ rfl ?_⟩
      rw [← held d]
      rfl
  | target => exact ⟨p, rfl, mirrors⟩
  | branch mask => exact ⟨p, rfl, mirrors⟩

-- The test of a branch: it meets zero when the branch may still be taken and the
-- mask meets no set bit of the product. Once it has been taken the product is all
-- ones, which no mask but an empty one meets in zero.
theorem test_does (mirrors : Mirrors entry may v p) {mask : UInt32} (nonempty : mask ≠ 0) :
    ∃ q, DoAll image pool 1 [.plain (.orHalf product branched),
        .constant (.testHalfPool product 0) mask.toUInt64] p q ∧
      Mirrors entry may v q ∧ q.zero = some (decide (may = true ∧ mask &&& v.product = 0)) := by
  have flag := mirrors.flag
  let m := { (p.passing (.orHalf product branched)).setHalf product (p.half product ||| p.half branched)
    with zero := some ((p.half product ||| p.half branched) = 0) }
  have half : m.half product = p.half product ||| p.half branched := by
    change (p.gprs.set product _)[product].toUInt32 = _
    rw [gprs_set_self, UInt32.toUInt32_toUInt64]
  have kept : Mirrors entry may v m := by
    have writes : Writes [product] p m := writes_one ⟨rfl, rfl, rfl⟩ rfl
    refine ⟨mirrors.keeps.written writes (by decide), fun r => ?_, fun yes => ?_, ?_⟩
    · rw [writes.others _ fun same => home_apart r (by rw [List.mem_singleton.mp same]; decide),
        mirrors.file]
    · rw [half, flag, yes, ← mirrors.upper yes]
      exact UInt32.or_zero
    · rw [← flag]
      exact congrArg UInt64.toUInt32 (writes.others branched (by decide))
  have meets : (mask &&& m.half product = 0) ↔ may = true ∧ mask &&& v.product = 0 := by
    cases may with
    | true => rw [kept.upper rfl]; simp
    | false =>
        rw [half, flag]
        have ones (x : UInt32) : mask &&& (x ||| 0xffffffff) = mask := by
          rw [show (0xffffffff : UInt32) = -1 from rfl, UInt32.or_neg_one, UInt32.and_neg_one]
        simp [ones, nonempty]
  refine ⟨{ m.passing (.testHalfPool product 0) with
      zero := some (mask &&& m.half product = 0) },
    ⟨m, rfl, rfl, _, fun relative start reaches entry => ?_, rfl, rfl⟩, ?_,
    congrArg some (decide_eq_decide.mpr meets)⟩
  · have read : (Processor.imageBytes? image ((m.passing (.testHalfPool product 0)).position +
        relative.toInt) 4).map (fun bytes => UInt32.ofNat (Bytes.toNat bytes)) = some mask := by
      rw [← UInt32.toUInt32_toUInt64 mask, ← Processor.entry_half entry (by decide), ← reaches]
      rfl
    obtain ⟨bytes, held, value⟩ := Option.map_eq_some_iff.mp read
    simp only [Operation.withDistance, Processor.execute, held, Processor.trap]
    subst value
    rfl
  · exact ⟨⟨kept.keeps.memory, kept.keeps.base, kept.keeps.stack, kept.keeps.pointer,
      kept.keeps.others⟩, kept.file, kept.upper, kept.flag⟩

end Instructions

section Frame

variable {image : Array UInt8} {pool : Nat} {p : Processor}

theorem Writes.trans {one two : List Gpr} {p q r : Processor} (first : Writes one p q)
    (second : Writes two q r) : Writes (one ++ two) p r where
  memory := second.memory.trans first.memory
  base := second.base.trans first.base
  stack := second.stack.trans first.stack
  others := fun g member => (second.others g fun late => member (List.mem_append.mpr (.inr late))).trans
    (first.others g fun early => member (List.mem_append.mpr (.inl early)))

theorem place_register (argument : p.gprs[file] = p.base) (size : p.memory.size = 8)
    (r : Register) : p.place? (p.address file (fileOffset r).toInt) = some r.val := by
  have offset : ∀ r : Register, (UInt64.ofInt (fileOffset r).toInt).toNat = 8 * r.val := by decide
  unfold Processor.place? Processor.address
  rw [argument, UInt64.add_comm, UInt64.add_sub_cancel]
  simp only [offset]
  rw [if_pos (by omega), Nat.mul_div_cancel_left _ (by decide)]

theorem loads_do (l : List Register) (argument : p.gprs[file] = p.base) (size : p.memory.size = 8) :
    ∃ q, DoAll image pool 1 (l.map fun r => .plain (.load (home r) file (fileOffset r))) p q ∧
      Writes (l.map home) p q ∧ ∀ r ∈ l, q.gprs[home r] = p.memory.getD r.val 0 := by
  induction l generalizing p with
  | nil => exact ⟨p, rfl, ⟨rfl, rfl, rfl, fun _ _ => rfl⟩, by simp⟩
  | cons r l ih =>
      let m := (p.passing (.load (home r) file (fileOffset r))).setGpr (home r) (p.memory.getD r.val 0)
      have writes : Writes [home r] p m := writes_one ⟨rfl, rfl, rfl⟩ rfl
      have does : Processor.execute image (p.passing (.load (home r) file (fileOffset r)))
          (.load (home r) file (fileOffset r)) = .ok m := by
        have place := @place_register (p.passing (.load (home r) file (fileOffset r))) argument size r
        simp only [Processor.execute, place, Processor.trap]
        rfl
      have pointer : m.gprs[file] = m.base := by
        rw [writes.others file fun same => home_apart r (by rw [← List.mem_singleton.mp same]; decide)]
        exact argument
      obtain ⟨q, all, more, loaded⟩ := ih (p := m) pointer size
      refine ⟨q, ⟨m, does, rfl, all⟩, writes.trans more, fun s member => ?_⟩
      by_cases later : s ∈ l
      · exact loaded s later
      · have same : s = r := by
          rcases List.mem_cons.mp member with same | inside
          · exact same
          · exact absurd inside later
        subst same
        rw [more.others _ fun again => ?_]
        · exact gprs_set_self _ _ _
        · obtain ⟨t, inside, equal⟩ := List.mem_map.mp again
          exact later (home_injective equal ▸ inside)

theorem stores_do (l : List Register) (argument : p.gprs[file] = p.base) (size : p.memory.size = 8) :
    ∃ q, DoAll image pool 1 (l.map fun r => .plain (.store file (fileOffset r) (home r))) p q ∧
      q.gprs = p.gprs ∧ q.base = p.base ∧ q.stack = p.stack ∧ q.memory.size = 8 ∧
      ∀ r : Register, (r ∈ l ∧ q.memory[r.val]? = some p.gprs[home r]) ∨
        (r ∉ l ∧ q.memory[r.val]? = p.memory[r.val]?) := by
  induction l generalizing p with
  | nil => exact ⟨p, rfl, rfl, rfl, rfl, size, by simp⟩
  | cons r l ih =>
      let m : Processor := { p.passing (.store file (fileOffset r) (home r)) with
        memory := p.memory.setIfInBounds r.val p.gprs[home r] }
      have does : Processor.execute image (p.passing (.store file (fileOffset r) (home r)))
          (.store file (fileOffset r) (home r)) = .ok m := by
        have place := @place_register (p.passing (.store file (fileOffset r) (home r))) argument size r
        simp only [Processor.execute, place, Processor.trap]
        rfl
      obtain ⟨q, all, gprs, base, stack, room, stored⟩ := ih (p := m) argument
        (by rw [Array.size_setIfInBounds]; exact size)
      refine ⟨q, ⟨m, does, rfl, all⟩, gprs, base, stack, room, fun s => ?_⟩
      rcases stored s with ⟨later, held⟩ | ⟨missing, held⟩
      · exact .inl ⟨List.mem_cons_of_mem _ later, held⟩
      · have written : q.memory[s.val]? = (p.memory.setIfInBounds r.val p.gprs[home r])[s.val]? := held
        rw [Array.getElem?_setIfInBounds] at written
        by_cases same : s = r
        · subst same
          refine .inl ⟨List.mem_cons_self, ?_⟩
          rw [written, if_pos rfl, if_pos (by omega)]
        · have apart : r.val ≠ s.val := fun equal => same (Fin.ext equal.symm)
          refine .inr ⟨by simp [same, missing], ?_⟩
          rw [written, if_neg apart]

theorem pushes_do (l : List Gpr) (own : Gpr.rsp ∉ l) :
    ∃ q, DoAll image pool 1 (l.map fun g => .plain (.push g)) p q ∧ q.memory = p.memory ∧
      q.base = p.base ∧ q.stack = (l.map fun g => p.gprs[g]).reverse ++ p.stack ∧
      q.gprs[Gpr.rsp] = p.gprs[Gpr.rsp] - UInt64.ofNat (8 * l.length) ∧
      ∀ g, g ≠ Gpr.rsp → q.gprs[g] = p.gprs[g] := by
  induction l generalizing p with
  | nil => exact ⟨p, rfl, rfl, rfl, rfl, by simp, fun _ _ => rfl⟩
  | cons r l ih =>
      obtain ⟨other, own⟩ := List.ne_and_not_mem_of_not_mem_cons own
      let m : Processor := { (p.passing (.push r)).setGpr Gpr.rsp (p.gprs[Gpr.rsp] - 8) with
        stack := p.gprs[r] :: p.stack }
      have kept (g : Gpr) (apart : g ≠ Gpr.rsp) : m.gprs[g] = p.gprs[g] := gprs_set_other apart
      obtain ⟨q, all, memory, base, stack, pointer, others⟩ := ih (p := m) own
      refine ⟨q, ⟨m, rfl, rfl, all⟩, memory, base, ?_, ?_,
        fun g apart => (others g apart).trans (kept g apart)⟩
      · have same : (l.map fun g => m.gprs[g]) = l.map fun g => p.gprs[g] :=
          List.map_congr_left fun g member => kept g fun equal => own (equal ▸ member)
        rw [stack, same, List.map_cons, List.reverse_cons, List.append_assoc]
        rfl
      · rw [pointer, show m.gprs[Gpr.rsp] = p.gprs[Gpr.rsp] - 8 from gprs_set_self _ _ _,
          List.length_cons, Nat.mul_succ, UInt64.ofNat_add]
        grind

theorem pops_do (l : List Gpr) (own : Gpr.rsp ∉ l) (value : Gpr → Word)
    (stack : p.stack = l.map value) :
    ∃ q, DoAll image pool 1 (l.map fun g => .plain (.pop g)) p q ∧ q.memory = p.memory ∧
      q.base = p.base ∧ q.stack = [] ∧
      q.gprs[Gpr.rsp] = p.gprs[Gpr.rsp] + UInt64.ofNat (8 * l.length) ∧
      ∀ g, g ≠ Gpr.rsp → (g ∈ l ∧ q.gprs[g] = value g) ∨ (g ∉ l ∧ q.gprs[g] = p.gprs[g]) := by
  induction l generalizing p with
  | nil => exact ⟨p, rfl, rfl, rfl, stack, by simp, by simp⟩
  | cons r l ih =>
      obtain ⟨other, own⟩ := List.ne_and_not_mem_of_not_mem_cons own
      let m : Processor := { ((p.passing (.pop r)).setGpr Gpr.rsp (p.gprs[Gpr.rsp] + 8)).setGpr r
        (value r) with stack := l.map value }
      have does : Processor.execute image (p.passing (.pop r)) (.pop r) = .ok m := by
        have top : (p.passing (.pop r)).stack = value r :: l.map value := stack
        simp only [Processor.execute, top]
        rfl
      obtain ⟨q, all, memory, base, empty, pointer, others⟩ := ih (p := m) own rfl
      refine ⟨q, ⟨m, does, rfl, all⟩, memory, base, empty, ?_, fun g apart => ?_⟩
      · have moved : m.gprs[Gpr.rsp] = p.gprs[Gpr.rsp] + 8 := by
          change ((p.gprs.set Gpr.rsp _).set r _)[Gpr.rsp] = _
          rw [gprs_set_other other, gprs_set_self]
        rw [pointer, moved, List.length_cons, Nat.mul_succ, UInt64.ofNat_add]
        grind
      · rcases others g apart with ⟨later, held⟩ | ⟨missing, held⟩
        · exact .inl ⟨List.mem_cons_of_mem _ later, held⟩
        · have written : q.gprs[g] = ((p.gprs.set Gpr.rsp (p.gprs[Gpr.rsp] + 8)).set r (value r))[g] :=
            held
          by_cases same : g = r
          · subst same
            exact .inl ⟨List.mem_cons_self, by rw [written, gprs_set_self]⟩
          · refine .inr ⟨by simp [same, missing], ?_⟩
            rw [written, gprs_set_other same, gprs_set_other apart]

theorem prologue_does {values : RegisterFile} (entered : Entered values p) :
    ∃ q, DoAll image pool 1 (prologue.map .plain) p q ∧ Mirrors p true ⟨values, 0⟩ q := by
  obtain ⟨m, pushed, memory, base, stack, pointer, others⟩ :=
    @pushes_do image pool p saved (by decide)
  have size : m.memory.size = 8 := by rw [memory, entered.memory]; simp
  have argument : m.gprs[file] = m.base := by
    rw [others file (by decide), base]
    exact entered.argument
  obtain ⟨n, all, writes, loaded⟩ := @loads_do image pool m Register.all argument size
  let o := { (n.passing (.xorHalf product product)).setHalf product
    (n.half product ^^^ n.half product) with
      zero := some (n.half product ^^^ n.half product = 0) }
  let q := { (o.passing (.xorHalf branched branched)).setHalf branched
    (o.half branched ^^^ o.half branched) with
      zero := some (o.half branched ^^^ o.half branched = 0) }
  have cleared : Writes [product] n o := writes_one ⟨rfl, rfl, rfl⟩ rfl
  have ready : Writes [branched] o q := writes_one ⟨rfl, rfl, rfl⟩ rfl
  have whole := (writes.trans cleared).trans ready
  have read (r : Register) : q.gprs[home r] = values[r] := by
    have apart := home_apart r
    rw [ready.others _ fun same => apart (by rw [List.mem_singleton.mp same]; decide),
      cleared.others _ fun same => apart (by rw [List.mem_singleton.mp same]; decide),
      loaded r (List.mem_finRange r), memory, entered.memory]
    simp [Array.getD]
  have kept : ∀ g ∈ Gpr.rsp :: untouched, q.gprs[g] = m.gprs[g] := fun g own =>
    whole.others g (by revert g; decide)
  refine ⟨q, pushed.append (all.append ⟨o, rfl, rfl, q, rfl, rfl, rfl⟩),
    ⟨whole.memory.trans memory, whole.base.trans base, ?_, ?_, fun g own => ?_⟩, read, fun _ => ?_, ?_⟩
  · rw [whole.stack, stack, entered.stack, List.append_nil]
  · rw [kept _ List.mem_cons_self, pointer]
    rfl
  · rw [kept g (List.mem_cons_of_mem _ own)]
    exact others g (by revert g; decide)
  · have zero : o.half product = 0 := by
      change (n.gprs.set product _)[product].toUInt32 = 0
      rw [gprs_set_self, UInt32.toUInt32_toUInt64, UInt32.xor_self]
    rw [← zero]
    exact congrArg UInt64.toUInt32 (ready.others product (by decide))
  · change (o.gprs.set branched _)[branched].toUInt32 = 0
    rw [gprs_set_self, UInt32.toUInt32_toUInt64, UInt32.xor_self]

structure Restored (values : RegisterFile) (entry q : Processor) : Prop where
  memory : q.memory = values.toArray
  stack : q.stack = []
  registers : ∀ g, g ∉ [Gpr.rax, Gpr.rdx, Gpr.rsi, Gpr.r8, Gpr.r9, Gpr.r10, Gpr.r11] →
    q.gprs[g] = entry.gprs[g]

theorem epilogue_does {entry : Processor} {may : Bool} {v : Values} {values : RegisterFile}
    (entered : Entered values entry) (mirrors : Mirrors entry may v p) :
    ∃ q, DoAll image pool 1 ((Register.all.map fun r => .plain (.store file (fileOffset r) (home r))) ++
        saved.reverse.map fun g => .plain (.pop g)) p q ∧ Restored v.file entry q := by
  have size : p.memory.size = 8 := by rw [mirrors.keeps.memory, entered.memory]; simp
  have argument : p.gprs[file] = p.base := by
    rw [mirrors.keeps.others file (by decide), mirrors.keeps.base]
    exact entered.argument
  obtain ⟨m, all, gprs, base, stack, room, stored⟩ := @stores_do image pool p Register.all argument size
  obtain ⟨q, popped, memory, _, empty, pointer, others⟩ :=
    @pops_do image pool m saved.reverse (by decide) (fun g => entry.gprs[g])
      (by rw [stack, mirrors.keeps.stack, List.map_reverse])
  refine ⟨q, all.append popped, ?_, empty, fun g safe => ?_⟩
  · rw [memory]
    apply Array.ext_getElem?
    intro i
    by_cases inside : i < 8
    · rcases stored ⟨i, inside⟩ with ⟨_, here⟩ | ⟨missing, _⟩
      · rw [mirrors.file] at here
        rw [here]
        simp [inside]
      · exact absurd (List.mem_finRange _) missing
    · rw [Array.getElem?_eq_none (by omega), Array.getElem?_eq_none (by simp; omega)]
  · by_cases top : g = Gpr.rsp
    · subst top
      rw [pointer, gprs, mirrors.keeps.pointer]
      exact UInt64.sub_add_cancel _ _
    · rcases others g top with ⟨_, held⟩ | ⟨kept, held⟩
      · exact held
      · have own : g ∈ untouched := by
          clear held
          revert g
          decide
        rw [held, gprs]
        exact mirrors.keeps.others g own

end Frame

end ProgramHash.ScalarCode
