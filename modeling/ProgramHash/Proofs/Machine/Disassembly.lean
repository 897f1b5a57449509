import ProgramHash.Proofs.Machine.Reading

-- No bytes stand for two lists of operations: reading the operations off one after
-- the other gives back those that were written.
namespace ProgramHash.Machine

def encodeAll (ops : List Operation) : List UInt8 := ops.flatMap Operation.encode

def decodeUpTo? : Nat → List UInt8 → Option (List Operation)
  | _, [] => some []
  | 0, _ :: _ => none
  | room + 1, first :: bytes => do
      let (op, rest) ← decode? (first :: bytes)
      return op :: (← decodeUpTo? room rest)

-- Each operation takes a byte at least, so that the bytes bound their number.
def decodeAll? (bytes : List UInt8) : Option (List Operation) := decodeUpTo? bytes.length bytes

theorem encodeAll_cons (op : Operation) (ops : List Operation) :
    encodeAll (op :: ops) = op.encode ++ encodeAll ops := rfl

theorem length_le_encodeAll (ops : List Operation) : ops.length ≤ (encodeAll ops).length := by
  induction ops with
  | nil => exact Nat.le_refl 0
  | cons op ops ih =>
      have some := (encode_length op).1
      rw [encodeAll_cons, List.length_append, List.length_cons]
      omega

theorem decodeUpTo_encodeAll {ops : List Operation} (admitted : ∀ op ∈ ops, op.Admitted) {room : Nat}
    (enough : ops.length ≤ room) : decodeUpTo? room (encodeAll ops) = some ops := by
  induction ops generalizing room with
  | nil => cases room <;> rfl
  | cons op ops ih =>
      obtain ⟨room, rfl⟩ := Nat.exists_eq_add_of_le' (Nat.le_trans (Nat.succ_pos _) enough)
      obtain ⟨first, bytes, written⟩ := List.exists_cons_of_length_pos (encode_length op).1
      have read := decode_encode op (admitted op List.mem_cons_self) (encodeAll ops)
      have rest := @ih (fun other member => admitted other (List.mem_cons_of_mem _ member)) room
        (Nat.le_of_succ_le_succ enough)
      rw [encodeAll_cons]
      rw [written, List.cons_append] at read ⊢
      simp only [decodeUpTo?, read, rest, Option.bind_eq_bind, Option.bind_some, Option.pure_def]

theorem decodeAll_encodeAll {ops : List Operation} (admitted : ∀ op ∈ ops, op.Admitted) :
    decodeAll? (encodeAll ops) = some ops := decodeUpTo_encodeAll admitted (length_le_encodeAll ops)

theorem encodeAll_injective {ops others : List Operation} (admitted : ∀ op ∈ ops, op.Admitted)
    (admitted' : ∀ op ∈ others, op.Admitted) (same : encodeAll ops = encodeAll others) :
    ops = others := by
  have read := decodeAll_encodeAll admitted
  rw [same, decodeAll_encodeAll admitted', Option.some.injEq] at read
  exact read.symm

theorem distance_last {op : Operation} {held : Int32} (holds : op.distance? = some held) :
    ∃ front, op.encode = front ++ bytesOfInt32 held ∧
      ∀ d, (op.withDistance d).encode = front ++ bytesOfInt32 d := by
  obtain ⟨front, here, _⟩ := encode_withDistance holds 0
  refine ⟨front, here, fun d => ?_⟩
  obtain ⟨front', here', there⟩ := encode_withDistance holds d
  have same : front' = front := List.append_cancel_right (here'.symm.trans here)
  rw [there, same]

-- The encodings are an unambiguous code: a list of operations can be told from its
-- bytes. Operations are short enough for the processor, and what is patched later,
-- the distance to a constant or of a long jump, stands at their end.
theorem operations_unambiguous :
    (∀ ops : List Operation, (∀ op ∈ ops, op.Admitted) → decodeAll? (encodeAll ops) = some ops) ∧
    (∀ ops others : List Operation, (∀ op ∈ ops, op.Admitted) → (∀ op ∈ others, op.Admitted) →
      encodeAll ops = encodeAll others → ops = others) ∧
    (∀ op : Operation, 0 < op.encode.length ∧ op.encode.length ≤ 15) ∧
    ∀ (op : Operation) (held : Int32), op.distance? = some held →
      ∃ front, op.encode = front ++ bytesOfInt32 held ∧
        ∀ d, (op.withDistance d).encode = front ++ bytesOfInt32 d := by
  refine ⟨fun ops => decodeAll_encodeAll, fun ops others => encodeAll_injective, fun op => ?_,
    fun op held => distance_last⟩
  obtain ⟨some, short⟩ := encode_length op
  exact ⟨some, by omega⟩

def farOperations : List Operation :=
  [.push Gpr.r12, .shiftedSum Gpr.r12 Gpr.r12 3, .load Gpr.r15 Gpr.r13 (-1),
    .lanes .halfProduct 31 16 (.memory Gpr.r15 (-64)) (some 7), .shiftLanes .rotateRight 24 8 63 none,
    .testZeroLanes 7 31 (.pool 16) (some 1), .maskAndNot 7 0 7]

theorem farOperations_unambiguous :
    (∀ op ∈ farOperations, op.Admitted) ∧ decodeAll? (encodeAll farOperations) = some farOperations ∧
      (Operation.testZeroLanes 7 31 (.pool 16) (some 1)).distance? = some 16 ∧
      ∃ front, (Operation.testZeroLanes 7 31 (.pool 16) (some 1)).encode = front ++ bytesOfInt32 16 := by
  have admitted : ∀ op ∈ farOperations, op.Admitted := by
    simp only [farOperations, List.forall_mem_cons, Operation.Admitted, VectorSource.Admitted]
    exact ⟨trivial, by decide, by decide, by decide, by decide, by decide, trivial,
      fun _ none => nomatch none⟩
  obtain ⟨front, here, _⟩ :=
    operations_unambiguous.2.2.2 (.testZeroLanes 7 31 (.pool 16) (some 1)) 16 rfl
  exact ⟨admitted, operations_unambiguous.1 _ admitted, rfl, front, here⟩

end ProgramHash.Machine
