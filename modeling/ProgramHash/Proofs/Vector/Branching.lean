import ProgramHash.Proofs.Vector.Blocks
import ProgramHash.Proofs.Vector.Masks

namespace ProgramHash.VectorCode

open Machine

def replayPieces (body : List Instruction) : List Piece := body.flatMap (pieces (some taking))

def testPieces (mask : UInt32) : List Piece :=
  [.constant (.testZeroLanes taking product (.pool 0) (some mayBranch)) mask.toUInt64,
   .plain (.maskTest taking taking)]

def takePieces (body : List Instruction) : List Piece :=
  replayPieces body ++ [.plain (.maskAndNot mayBranch taking mayBranch)]

def branchPieces (mask : UInt32) (body : List Instruction) (d : Int32) : List Piece :=
  testPieces mask ++ .plain (.jumpIfZero d) :: takePieces body

theorem replayPieces_cons (i : Instruction) (body : List Instruction) :
    replayPieces (i :: body) = pieces (some taking) i ++ replayPieces body := rfl

theorem emit_body (a : Assembly) (body : List Instruction) :
    body.foldl (fun a i => emitInstruction a i (some taking)) a = a.putAll (replayPieces body) := by
  induction body generalizing a with
  | nil => rfl
  | cons i body ih =>
      rw [List.foldl_cons, ih, emitInstruction_pieces, replayPieces_cons, Assembly.putAll_append]

theorem masked_taking : Masked (some taking) := .inr rfl

theorem takePieces_fit (body : List Instruction) : ∀ piece ∈ takePieces body, piece.Fits := by
  intro piece member
  rcases List.mem_append.mp member with replayed | last
  · obtain ⟨i, _, inside⟩ := List.mem_flatMap.mp replayed
    exact pieces_fit i masked_taking piece inside
  · rw [List.mem_singleton.mp last]
    exact ⟨trivial, nofun, .inr rfl⟩

theorem testPieces_fit (mask : UInt32) : ∀ piece ∈ testPieces mask, piece.Fits := by
  intro piece member
  rcases List.mem_cons.mp member with rfl | last
  · exact ⟨⟨trivial, by decide⟩, rfl, _, rfl⟩
  · rw [List.mem_singleton.mp last]
    exact ⟨trivial, nofun, .inr rfl⟩

theorem jump_fits (d : Int32) : (Piece.plain (.jumpIfZero d)).Fits := ⟨trivial, nofun, .inl rfl⟩

def guardPieces (mask : UInt32) (d : Int32) : List Piece :=
  testPieces mask ++ [.plain (.jumpIfZero d)]

def guarded (a : Assembly) (mask : UInt32) : Assembly :=
  (a.putAll (testPieces mask)).emit (Operation.jumpIfZero 0).encode

theorem emitBranch_bind (a : Assembly) (mask : UInt32) (body : List Instruction) :
    emitBranch a mask body = ((guarded a mask).putAll (takePieces body)).bind (guarded a mask).field := by
  rw [takePieces, Assembly.putAll_append, ← emit_body]
  rfl

-- The jump over the body is emitted first and bound behind the body; the code is
-- the same as with its distance known beforehand.
theorem emitBranch_pieces {a b : Assembly} {mask : UInt32} {body : List Instruction}
    (done : emitBranch a mask body = .ok b) :
    ∃ d : Int32, b = (a.putAll (guardPieces mask d)).putAll (takePieces body) ∧
      ((a.putAll (guardPieces mask d)).offset : Int) + d.toInt = b.offset := by
  rw [emitBranch_bind] at done
  obtain ⟨d, reaches, same⟩ := Assembly.bindTo_ok done
  have size : (guarded a mask).offset = (a.putAll (testPieces mask)).offset + 6 := Assembly.emit_offset _
  have four := bytesOfInt32_length d
  have field : (guarded a mask).field = (guarded a mask).offset - 4 := rfl
  rw [Assembly.patch_putAll _ (by omega), guarded, Assembly.patch_field rfl d] at same
  have jump : a.putAll (guardPieces mask d) =
      (a.putAll (testPieces mask)).emit (Operation.jumpIfZero d).encode :=
    Assembly.putAll_append a (testPieces mask) _
  have size' : (a.putAll (guardPieces mask d)).offset = (a.putAll (testPieces mask)).offset + 6 := by
    rw [jump]
    exact Assembly.emit_offset _
  have known : b = (a.putAll (guardPieces mask d)).putAll (takePieces body) := by
    rw [jump]
    exact same
  have last := (a.putAll (guardPieces mask d)).putAll_size (takePieces body)
  rw [← known, size'] at last
  rw [Assembly.putAll_size] at reaches
  exact ⟨d, known, by omega⟩

-- Every lane holds the values of its own interpreter, and a bit that tells whether
-- it may still branch.
structure Mirrors (entry : Processor) (may : Fin 8 → Bool) (v : Fin 8 → Values) (p : Processor) :
    Prop where
  keeps : Keeps entry p
  lanes : ∀ l, Reflects (v l) (lane p l)
  may : ∀ l, maskBit p.masks[mayBranch] l = may l

def takes (may : Bool) (v : Values) (mask : UInt32) : Bool := may && mask &&& v.product = 0

theorem and_lowHalf (w : Word) (mask : UInt32) : w &&& mask.toUInt64 = 0 ↔ mask &&& w.lowHalf = 0 := by
  have same : (w &&& mask.toUInt64).toNat = (mask &&& w.lowHalf).toNat := by
    have bound := mask.toNat_lt
    have below : (w.toNat &&& mask.toNat) < 2 ^ 32 := Nat.lt_of_le_of_lt Nat.and_le_right bound
    rw [UInt64.toNat_and, UInt32.toNat_and, Word.lowHalf, UInt64.toNat_toUInt32,
      UInt32.toNat_toUInt64, Nat.and_comm mask.toNat]
    conv => lhs; rw [← Nat.mod_eq_of_lt below, Nat.and_mod_two_pow, Nat.mod_eq_of_lt bound]
  rw [← UInt64.toNat_inj, ← UInt32.toNat_inj, same]
  rfl

section Running

variable {image : Array UInt8} {pool : Nat} {a : Assembly} {entry p : Processor}
  {may : Fin 8 → Bool} {v : Fin 8 → Values} {mask : UInt32} {body : List Instruction} {d : Int32}

theorem test_does (mirrors : Mirrors entry may v p) (mask : UInt32) :
    ∃ q, DoAll image pool 8 (testPieces mask) p q ∧ Mirrors entry may v q ∧
      (∀ l, maskBit q.masks[taking] l = takes (may l) (v l) mask) ∧
      q.zero = some (decide (∀ l, takes (may l) (v l) mask = false)) := by
  let test : Operation := .testZeroLanes taking product (.pool 0) (some mayBranch)
  let bits := Processor.maskOf fun l => takes (may l) (v l) mask
  let m := { p.passing test with masks := p.masks.set taking bits }
  have found : m.masks[taking] = bits := by
    change (p.masks.set taking bits)[taking] = bits
    rw [Bank.read_set, if_pos rfl]
  have left : m.masks[mayBranch] = p.masks[mayBranch] := by
    change (p.masks.set taking bits)[mayBranch] = _
    rw [Bank.read_set, if_neg (by decide)]
  have tests : (Piece.constant test mask.toUInt64).Does image pool 8 p m := by
    intro relative start reaches entry
    have read : Processor.imageLanes? image ((p.passing test).position + relative.toInt) =
        some (.filled mask.toUInt64) := by
      rw [← Processor.entry_lanes entry, ← reaches]
      rfl
    have same : (fun l => (p.passing test).selected (some mayBranch) l &&
        (p.passing test).zmms[product][l] &&& (Bank.filled mask.toUInt64 : Lanes)[l] = 0) =
        fun l => takes (may l) (v l) mask := by
      funext l
      have chosen : (p.passing test).selected (some mayBranch) l = may l := mirrors.may l
      have met := and_lowHalf (lane p l product) mask
      rw [(mirrors.lanes l).product] at met
      rw [chosen, takes, ← decide_eq_decide.mpr met]
      simp only [Bank.read_filled]
      rfl
    simp only [test, Operation.withDistance, Processor.execute, Processor.source?] at read same ⊢
    rw [read]
    simp only [Processor.trap, bind, Except.bind, pure, Except.pure]
    rw [same]
    rfl
  let q := { m.passing (.maskTest taking taking) with
    zero := some (m.masks[taking] ||| m.masks[taking] = 0) }
  refine ⟨q, ⟨m, tests, rfl, q, rfl, rfl, rfl⟩, ⟨⟨mirrors.keeps.gprs, mirrors.keeps.memory,
    mirrors.keeps.base, mirrors.keeps.stack⟩, mirrors.lanes, ?_⟩, ?_, ?_⟩
  · intro l
    rw [← mirrors.may l, ← left]
    rfl
  · intro l
    change maskBit m.masks[taking] l = _
    rw [found, maskBit_maskOf]
  · refine congrArg some (decide_eq_decide.mpr ?_)
    rw [found, UInt16.or_self]
    exact maskOf_eq_zero _

theorem body_does (body : List Instruction) (encodable : ∀ i ∈ body, Encodable i)
    (reflects : ∀ l, Reflects (v l) (lane p l)) :
    ∃ q, DoAll image pool 8 (replayPieces body) p q ∧ Still p q ∧
      ∀ l, Reflects (if maskBit p.masks[taking] l then straightLine body (v l) else v l) (lane q l) := by
  induction body generalizing p v with
  | nil =>
      refine ⟨p, rfl, .refl p, ?_⟩
      intro l
      rw [show straightLine [] (v l) = v l from rfl, ite_self]
      exact reflects l
  | cons i body ih =>
      obtain ⟨m, first, still, reflects'⟩ := @instruction_does image pool p v i
        (encodable i List.mem_cons_self) (some taking) masked_taking reflects
      obtain ⟨q, rest, later, results⟩ := @ih m _
        (fun j member => encodable j (List.mem_cons_of_mem _ member)) reflects'
      refine ⟨q, first.append rest, still.trans later, ?_⟩
      intro l
      have result := results l
      rw [still.masks] at result
      generalize maskBit p.masks[taking] l = chosen at result ⊢
      cases chosen with
      | false => exact result
      | true => exact result

theorem take_does (mirrors : Mirrors entry may v p) (encodable : ∀ i ∈ body, Encodable i)
    (taken : ∀ l, maskBit p.masks[taking] l = takes (may l) (v l) mask) :
    ∃ q, DoAll image pool 8 (takePieces body) p q ∧
      Mirrors entry (fun l => may l && !takes (may l) (v l) mask)
        (fun l => if takes (may l) (v l) mask then straightLine body (v l) else v l) q := by
  obtain ⟨m, all, still, results⟩ := @body_does image pool p v body encodable mirrors.lanes
  let q := { m.passing (.maskAndNot mayBranch taking mayBranch) with
    masks := m.masks.set mayBranch (~~~m.masks[taking] &&& m.masks[mayBranch]) }
  refine ⟨q, all.append ⟨q, rfl, rfl, rfl⟩, mirrors.keeps.trans ⟨still.gprs, still.memory, still.base,
    still.stack⟩, ?_, ?_⟩
  · intro l
    rw [← taken]
    exact results l
  · intro l
    change maskBit (m.masks.set mayBranch _)[mayBranch] l = _
    rw [Bank.read_set, if_pos rfl, maskBit_and, maskBit_not, still.masks, taken, mirrors.may, Bool.and_comm]

theorem Mirrors.moved (mirrors : Mirrors entry may v p) {q : Processor} (still : Still p q)
    (same : q.zmms = p.zmms) : Mirrors entry may v q where
  keeps := mirrors.keeps.trans still.toKeeps
  lanes := by
    intro l
    rw [show lane q l = lane p l by unfold lane; rw [same]]
    exact mirrors.lanes l
  may := by
    intro l
    rw [still.masks]
    exact mirrors.may l

theorem skipped_runs (formed : a.WellFormed) (lanes : a.lanes = 8)
    (linked : (a.put (.plain (.jumpIfZero d))).Linked image pool) (here : p.position = a.offset)
    (zero : p.zero = some true) (mirrors : Mirrors entry may v p) {target : Nat}
    (reaches : ((a.put (.plain (.jumpIfZero d))).offset : Int) + d.toInt = target) :
    ∃ q, Processor.Runs image (Processor.Within image pool 8) 1 p q ∧ q.position = target ∧
      Mirrors entry may v q := by
  let q := { p with position := target }
  have leads : (Piece.plain (.jumpIfZero d)).Does image pool 8 p q := by
    have set : (p.passing (.jumpIfZero d)).zero = some true := zero
    have past : ((p.passing (.jumpIfZero d)).position : Int) + d.toInt = target := by
      rw [← reaches, Assembly.put_offset, ← here]
      rfl
    simp only [Piece.Does, Processor.execute, set, Processor.trap, bind, Except.bind]
    rw [if_pos trivial, past, Processor.jumpTo, if_pos (Int.natCast_nonneg _)]
    rfl
  have jumps := runs_put formed (jump_fits d) linked here (by rw [lanes]; exact leads)
  rw [lanes] at jumps
  exact ⟨q, jumps, rfl, mirrors.moved ⟨⟨rfl, rfl, rfl, rfl⟩, rfl⟩ rfl⟩

theorem entered_runs (formed : a.WellFormed) (lanes : a.lanes = 8)
    (linked : (a.put (.plain (.jumpIfZero d))).Linked image pool) (here : p.position = a.offset)
    (zero : p.zero = some false) (mirrors : Mirrors entry may v p) :
    ∃ q, Processor.Runs image (Processor.Within image pool 8) 1 p q ∧
      q.position = (a.put (.plain (.jumpIfZero d))).offset ∧ q.masks = p.masks ∧
      Mirrors entry may v q := by
  have falls : (Piece.plain (.jumpIfZero d)).Does image pool 8 p (p.passing (.jumpIfZero d)) := by
    have set : (p.passing (.jumpIfZero d)).zero = some false := zero
    simp only [Piece.Does, Processor.execute, set, Processor.trap]
    rfl
  have passes := runs_put formed (jump_fits d) linked here (by rw [lanes]; exact falls)
  rw [lanes] at passes
  refine ⟨_, passes, ?_, rfl, mirrors.moved ⟨⟨rfl, rfl, rfl, rfl⟩, rfl⟩ rfl⟩
  rw [Assembly.put_offset, ← here]
  rfl

theorem branch_runs (formed : a.WellFormed) (lanes : a.lanes = 8)
    (linked : ((a.putAll (guardPieces mask d)).putAll (takePieces body)).Linked image pool)
    (here : p.position = a.offset) (mirrors : Mirrors entry may v p)
    (encodable : ∀ i ∈ body, Encodable i)
    (reaches : ((a.putAll (guardPieces mask d)).offset : Int) + d.toInt =
      ((a.putAll (guardPieces mask d)).putAll (takePieces body)).offset) :
    ∃ n q, Processor.Runs image (Processor.Within image pool 8) n p q ∧
      n + a.offset ≤ ((a.putAll (guardPieces mask d)).putAll (takePieces body)).offset ∧
      q.position = ((a.putAll (guardPieces mask d)).putAll (takePieces body)).offset ∧
      Mirrors entry (fun l => may l && !takes (may l) (v l) mask)
        (fun l => if takes (may l) (v l) mask then straightLine body (v l) else v l) q := by
  have fit := testPieces_fit mask
  let b := a.putAll (testPieces mask)
  let c := b.put (.plain (.jumpIfZero d))
  have guard : a.putAll (guardPieces mask d) = c := Assembly.putAll_append a (testPieces mask) _
  rw [guard] at linked reaches ⊢
  have formedB : b.WellFormed := Assembly.putAll_wellFormed formed fit
  have lanesB : b.lanes = 8 := (Assembly.putAll_extends (a := a) fit).lanes.trans lanes
  have formedC : c.WellFormed := Assembly.put_wellFormed formedB (jump_fits d)
  have lanesC : c.lanes = 8 := (Assembly.put_extends (a := b) (jump_fits d)).lanes.trans lanesB
  have linkedC := linked.earlier formedC (Assembly.putAll_extends (takePieces_fit body))
  have linkedB := linkedC.earlier formedB (Assembly.put_extends (jump_fits d))
  obtain ⟨m, tests, held, taken, zero⟩ := @test_does image pool entry p may v mirrors mask
  obtain ⟨first, there⟩ := runs_putAll formed fit linkedB here (by rw [lanes]; exact tests)
  rw [lanes] at first
  have room : a.offset + 2 ≤ b.offset := a.putAll_offset (testPieces mask)
  have size : c.offset = b.offset + 6 := b.put_offset _
  have beyond := c.putAll_offset (takePieces body)
  by_cases none : ∀ l, takes (may l) (v l) mask = false
  · rw [decide_eq_true none] at zero
    obtain ⟨q, second, reached, ready⟩ := skipped_runs formedB lanesB linkedC there zero held reaches
    refine ⟨_, q, first.trans second, ?_, reached, ?_⟩
    · change 2 + 1 + a.offset ≤ _
      omega
    · simpa only [none, Bool.not_false, Bool.and_true, Bool.false_eq_true, if_false] using ready
  · rw [decide_eq_false none] at zero
    obtain ⟨n, second, passed, masks, held'⟩ := entered_runs formedB lanesB linkedC there zero held
    rw [← masks] at taken
    obtain ⟨q, all, ready⟩ := @take_does image pool entry n may v mask body held' encodable taken
    obtain ⟨third, reached⟩ := runs_putAll formedC (takePieces_fit body) linked passed
      (by rw [lanesC]; exact all)
    rw [lanesC] at third
    refine ⟨_, q, (first.trans second).trans third, ?_, reached, ready⟩
    change 2 + 1 + (takePieces body).length + a.offset ≤ _
    omega

end Running

end ProgramHash.VectorCode
