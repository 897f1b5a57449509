import ProgramHash.Proofs.Generation.Operands
import ProgramHash.Proofs.Generation.Shape
import ProgramHash.Proofs.Scalar.Agreement
import ProgramHash.Proofs.Vector.Agreement

namespace ProgramHash

namespace Machine

structure Operation.Encodes (op : Operation) : Prop where
  admitted : op.Admitted
  short : op.encode.length ≤ 15
  last : ∀ d, op.distance? = some d → ∃ (front : List UInt8), op.encode = front ++ bytesOfInt32 d

theorem Operation.encodes_of_admitted {op : Operation} (admitted : op.Admitted) : op.Encodes where
  admitted := admitted
  short := Nat.le_trans (encode_length op).2 (by decide)
  last := fun _ holds => by
    obtain ⟨front, bytes, _⟩ := encode_withDistance holds 0
    exact ⟨front, bytes⟩

-- A distance is only known when the operation that holds it has been encoded
-- with zero in its place.
def Piece.asked (piece : Piece) : Operation := piece.op.withDistance 0

theorem Piece.Fits.admitted {piece : Piece} (fits : piece.Fits) : piece.op.Admitted := by
  cases piece <;> exact fits.1

theorem admitted_of_fit {pieces : List Piece} (fit : ∀ piece ∈ pieces, piece.Fits) :
    ∀ op ∈ pieces.map Piece.op, op.Admitted := by
  intro op member
  obtain ⟨piece, inside, rfl⟩ := List.mem_map.mp member
  exact (fit piece inside).admitted

namespace Assembly

-- The code is that of the operations that were asked for, one behind the other,
-- with distances in them.
def MadeOf (a : Assembly) (lanes : Nat) (ops : List Operation) : Prop :=
  ∃ (pieces : List Piece), pieces.map Piece.asked = ops ∧ a = (empty lanes).putAll pieces

theorem MadeOf.putAll {a : Assembly} {lanes : Nat} {ops more : List Operation} (made : a.MadeOf lanes ops)
    {pieces : List Piece} (asked : pieces.map Piece.asked = more) :
    (a.putAll pieces).MadeOf lanes (ops ++ more) := by
  obtain ⟨before, same, rfl⟩ := made
  exact ⟨before ++ pieces, by rw [List.map_append, same, asked], (putAll_append _ _ _).symm⟩

theorem madeOf_putAll {lanes : Nat} {ops : List Operation} {pieces : List Piece}
    (asked : pieces.map Piece.asked = ops) : ((empty lanes).putAll pieces).MadeOf lanes ops :=
  ⟨pieces, asked, rfl⟩

structure Completes (a : Assembly) (lanes : Nat) (ops : List Operation) (code : Array UInt8) : Prop where
  made : a.MadeOf lanes ops
  formed : a.WellFormed
  finished : a.finish = .ok code
  linked : a.Linked code a.poolStart
  near : code.size < reach

theorem completes_of_small {a : Assembly} {lanes m : Nat} {ops : List Operation} {code : Array UInt8}
    (made : a.MadeOf lanes ops) (formed : a.WellFormed) (finished : a.finish = .ok code)
    (small : a.Small m) (near : (11 + 8 * a.lanes) * (m + 1) < reach) : a.Completes lanes ops code where
  made := made
  formed := formed
  finished := finished
  linked := finish_linked formed finished
  near := by
    rw [finish_size formed finished]
    exact Nat.lt_of_le_of_lt small.whole near

end Assembly

structure SafelyCompiled (lanes : Nat) (ops : List Operation) (compiled : Except Fault (Array UInt8)) :
    Prop where
  encodes : ∀ op ∈ ops, op.Encodes
  completes : ∃ (code : Array UInt8) (a : Assembly), compiled = .ok code ∧ a.Completes lanes ops code

end Machine

open Machine

section Asking

variable {S : Type} (emit : S → Instruction × Nat → Except Fault S) (opened : S)
  (assembly : S → Assembly) (program : List Instruction) (lanes : Nat) (frame : List Operation)
  (operations : Instruction × Nat → List Operation)

structure AsksFor : Prop where
  atStart : (assembly opened).MadeOf lanes frame
  emitted : ∀ {s t i k}, program[k]? = some i → stateAfter? emit opened program k = .ok s →
    emit s (i, k) = .ok t → ∃ (pieces : List Piece), pieces.map Piece.asked = operations (i, k) ∧
      assembly t = (assembly s).putAll pieces

variable {emit opened assembly program lanes frame operations}

theorem AsksFor.madeOf (asks : AsksFor emit opened assembly program lanes frame operations) {k : Nat}
    (inside : k ≤ program.length) {s : S} (done : stateAfter? emit opened program k = .ok s) :
    (assembly s).MadeOf lanes (frame ++ (program.zipIdx.take k).flatMap operations) := by
  induction k generalizing s with
  | zero =>
      cases done
      simpa using asks.atStart
  | succ k ih =>
      have here := List.getElem?_eq_getElem inside
      have item : program.zipIdx[k]? = some (program[k], k) := by simp [here]
      obtain ⟨m, before, last⟩ := stateAfter_succ_ok here done
      obtain ⟨pieces, asked, same⟩ := asks.emitted here before last
      rw [List.take_add_one, item, List.flatMap_append, ← List.append_assoc, same]
      exact (ih (Nat.le_of_succ_le inside) before).putAll (by simpa using asked)

theorem AsksFor.safelyCompiled (asks : AsksFor emit opened assembly program lanes frame operations)
    {first limit : Nat} {epilogue : List Operation} {closing : List Piece}
    (closes : Closes emit opened assembly program first limit lanes epilogue closing)
    (room : (11 + 8 * lanes) * (first + limit * program.length + closing.length + 2) < Assembly.reach)
    {compiled : Except Fault (Array UInt8)}
    (compiles : compiled = stateAfter? emit opened program program.length >>= fun s =>
      ((assembly s).emitAll epilogue).finish)
    (succeeds : ∃ code, compiled = .ok code)
    (asked : (epilogue.map Piece.plain).map Piece.asked = epilogue)
    (admitted : ∀ op ∈ frame ++ program.zipIdx.flatMap operations ++ epilogue, op.Admitted) :
    SafelyCompiled lanes (frame ++ program.zipIdx.flatMap operations ++ epilogue) compiled where
  encodes := fun op member => Operation.encodes_of_admitted (admitted op member)
  completes := by
    obtain ⟨code, done⟩ := succeeds
    obtain ⟨s, emitted, finished⟩ := bind_ok.mp (compiles.symm.trans done)
    have whole := asks.madeOf (Nat.le_refl _) emitted
    rw [List.take_of_length_le (by simp)] at whole
    obtain ⟨m, few, near⟩ := closes.near emitted room
    refine ⟨code, _, done,
      Assembly.completes_of_small ?_ (closes.wellFormed emitted) finished few near⟩
    rw [Assembly.emitAll_pieces]
    exact whole.putAll asked

end Asking

namespace ScalarCode

def operations : Instruction → List Operation
  | .branch mask => (branchPieces mask 0).map Piece.op
  | i => (pieces i).map Piece.op

def encoded (program : List Instruction) : List Operation :=
  prologue ++ program.flatMap operations ++ epilogue

theorem operations_other {i : Instruction} (straight : i.opcode ≠ .branch) :
    operations i = (pieces i).map Piece.asked := by
  cases i with
  | branch mask => exact absurd rfl straight
  | _ => rfl

theorem emit_asks {s t : State} {i : Instruction} (done : emit s i = .ok t) :
    ∃ (pieces : List Piece), pieces.map Piece.asked = operations i ∧
      t.assembly = s.assembly.putAll pieces := by
  by_cases straight : i.opcode = .branch
  · cases i with
    | branch mask =>
        obtain ⟨_, d, _, same, _⟩ := emit_branch done
        exact ⟨branchPieces mask d, rfl, same⟩
    | _ => cases straight
  · exact ⟨pieces i, (operations_other straight).symm, emit_other straight done⟩

theorem asks_operations (program : List Instruction) :
    AsksFor (fun s item => emit s item.1) opened State.assembly program 1 prologue
      (fun item => operations item.1) where
  atStart := by
    rw [opened_pieces]
    exact Assembly.madeOf_putAll rfl
  emitted := fun _ _ done => emit_asks done

theorem encoded_numbered (program : List Instruction) :
    encoded program = prologue ++ program.zipIdx.flatMap (fun item => operations item.1) ++ epilogue := by
  rw [← List.flatMap_map, List.zipIdx_map_fst]
  rfl

theorem encoded_admitted {program : List Instruction} (compilable : Compilable program) :
    ∀ op ∈ encoded program, op.Admitted := by
  have opening : prologue = (prologue.map Piece.plain).map Piece.op := rfl
  have closing : epilogue = epiloguePieces.map Piece.op ++ [.ret] := rfl
  intro op member
  rw [encoded, opening, closing] at member
  simp only [List.mem_append, List.mem_singleton, List.mem_flatMap] at member
  rcases member with (early | ⟨i, inside, asked⟩) | late | rfl
  · exact admitted_of_fit prologue_fit op early
  · unfold operations at asked
    split at asked
    · exact admitted_of_fit (branchPieces_fit _ _) op asked
    · exact admitted_of_fit (pieces_fit (compilable i inside).1) op asked
  · exact admitted_of_fit epiloguePieces_fit op late
  · trivial

theorem compile_safe {p : Program} (targeted : EveryBranchHasTarget p.toList)
    (compilable : Compilable p.toList) (small : p.size ≤ sizeLimit) :
    SafelyCompiled 1 (encoded p.toList) (compile p) := by
  have admitted := encoded_admitted compilable
  rw [encoded_numbered] at admitted ⊢
  exact (asks_operations p.toList).safelyCompiled (closes compilable) (size_near small)
    (compile_emitted p) (compile_succeeds targeted compilable small) rfl admitted

end ScalarCode

namespace VectorCode

def operations (program : List Instruction) : Instruction × Nat → List Operation
  | (.branch mask, k) => (branchPieces mask (bodyBefore program k) 0).map Piece.op
  | (i, _) => (pieces none i).map Piece.op

-- Everything that compiling a program encodes, with the body of a branch encoded
-- once more for the lanes that take it.
def encoded (program : List Instruction) : List Operation :=
  prologuePieces.map Piece.op ++ program.zipIdx.flatMap (operations program) ++ epilogue

variable {program : List Instruction}

theorem pieces_asked (mask : Option Opmask) (i : Instruction) :
    (pieces mask i).map Piece.asked = (pieces mask i).map Piece.op := by
  cases i <;> rfl

theorem replayPieces_asked (body : List Instruction) :
    (replayPieces body).map Piece.asked = (replayPieces body).map Piece.op := by
  induction body with
  | nil => rfl
  | cons i body ih => rw [replayPieces_cons, List.map_append, List.map_append, pieces_asked, ih]

theorem branchPieces_asked (mask : UInt32) (body : List Instruction) (d : Int32) :
    (branchPieces mask body d).map Piece.asked = (branchPieces mask body 0).map Piece.op := by
  simp only [branchPieces, takePieces, List.map_append, List.map_cons, replayPieces_asked]
  rfl

theorem bodyBefore_noted (targeted : EveryBranchHasTarget program) {k target : Nat} {mask : UInt32}
    {s : State} (here : program[k]? = some (.branch mask)) (early : emitted? program k = .ok s)
    (noted : s.target = some target) : bodyBefore program k = (program.take k).drop (target + 1) := by
  cases found : latestTarget? program k with
  | none => exact absurd found (targeted k mask here)
  | some t =>
      obtain ⟨m, before⟩ := stateAfter_ok_of_le (Nat.le_of_lt (latestTarget_lt found)) early
      have latest := (notes_targets program.toArray).latest early found before
      rw [noted] at latest
      cases latest
      simp only [bodyBefore, found]

theorem asks_operations (targeted : EveryBranchHasTarget program) :
    AsksFor (emit program.toArray) opened State.assembly program 8 (prologuePieces.map Piece.op)
      (operations program) where
  atStart := by
    rw [opened_pieces]
    exact Assembly.madeOf_putAll rfl
  emitted := by
    intro s t i k here early done
    by_cases straight : i.opcode = .branch
    · cases i with
      | branch mask =>
          obtain ⟨target, d, noted, same, _⟩ := emit_branch done
          rw [← bodyBefore_noted targeted here early noted, ← Assembly.putAll_append] at same
          refine ⟨branchPieces mask (bodyBefore program k) d, branchPieces_asked _ _ _, ?_⟩
          rw [same]
          rfl
      | _ => cases straight
    · refine ⟨pieces none i, ?_, emit_other straight done⟩
      rw [pieces_asked]
      cases i with
      | branch mask => exact absurd rfl straight
      | _ => rfl

theorem branchPieces_fit (mask : UInt32) (body : List Instruction) (d : Int32) :
    ∀ piece ∈ branchPieces mask body d, piece.Fits := by
  intro piece member
  rcases List.mem_append.mp member with tests | rest
  · exact testPieces_fit mask piece tests
  · rcases List.mem_cons.mp rest with rfl | taken
    · exact jump_fits d
    · exact takePieces_fit body piece taken

theorem encoded_admitted (program : List Instruction) : ∀ op ∈ encoded program, op.Admitted := by
  have closing : epilogue = epiloguePieces.map Piece.op ++ [.ret] := rfl
  intro op member
  rw [encoded, closing] at member
  simp only [List.mem_append, List.mem_singleton, List.mem_flatMap] at member
  rcases member with (early | ⟨item, _, asked⟩) | late | rfl
  · exact admitted_of_fit prologuePieces_fit op early
  · unfold operations at asked
    split at asked
    · exact admitted_of_fit (branchPieces_fit _ _ _) op asked
    · exact admitted_of_fit (pieces_fit _ (.inl rfl)) op asked
  · exact admitted_of_fit epiloguePieces_fit op late
  · trivial

theorem compile_safe {p : Program} (targeted : EveryBranchHasTarget p.toList)
    (small : p.size ≤ sizeLimit) : SafelyCompiled 8 (encoded p.toList) (compile p) :=
  (asks_operations targeted).safelyCompiled (closes p.toList) (size_near small) (compile_emitted p)
    (compile_succeeds targeted small) rfl (encoded_admitted p.toList)

end VectorCode

structure CompilesSafely (p : Program) : Prop where
  targeted : EveryBranchHasTarget p.toList
  scalar : SafelyCompiled 1 (ScalarCode.encoded p.toList) (ScalarCode.compile p)
  vector : SafelyCompiled 8 (VectorCode.encoded p.toList) (VectorCode.compile p)

theorem compilable_of_sound {program : List Instruction} (sound : ∀ i ∈ program, i.Sound) :
    ScalarCode.Compilable program := by
  intro i member
  have sound := sound i member
  constructor
  · cases i with
    | addShift dst src shift => exact ⟨sound.2.2, sound.1⟩
    | _ => trivial
  · rintro _ rfl rfl
    exact absurd (show weight 0 = branchWeight from sound) (by decide)

theorem compilesSafely_of_sound {p : Program} (targeted : EveryBranchHasTarget p.toList)
    (sound : ∀ i ∈ p.toList, i.Sound) (small : p.size ≤ VectorCode.sizeLimit) : CompilesSafely p where
  targeted := targeted
  scalar := ScalarCode.compile_safe targeted (compilable_of_sound sound) (Nat.le_trans small (by decide))
  vector := VectorCode.compile_safe targeted small

theorem Generator.draft_compilesSafely {σ : Type} [Draw σ] {draws : σ} {limit : Nat}
    (accepted : ((Generator.fresh draws).draft limit).verdict = .accepted) :
    CompilesSafely (.ofList ((Generator.fresh draws).draft limit).program) := by
  have patterned := Generator.draft_patterned accepted
  refine compilesSafely_of_sound patterned.targeted run_sound ?_
  change ((Generator.fresh draws).draft limit).program.length ≤ _
  rw [patterned.length]
  decide

-- Whatever state a generator is in, its next instruction is one that compiling
-- counts on; and so every program that is generated can be compiled.
theorem generated_programs_compile_safely :
    (∀ (σ : Type) [Draw σ] (g h : Generator σ) (limit : Nat) (issue : Issue),
      g.next limit = .made issue h → issue.instruction.Sound) ∧
    (∀ (σ : Type) [Draw σ] (draws : σ) (limit : Nat),
      ((Generator.fresh draws).draft limit).verdict = .accepted →
        CompilesSafely (.ofList ((Generator.fresh draws).draft limit).program)) ∧
    ∀ (key : SipState) (limit attempts salt : Nat) (p : Program),
      (Program.generateFrom key limit attempts salt).2 = .ok p → CompilesSafely p := by
  refine ⟨?_, ?_, ?_⟩
  · intro σ _ g h limit issue made
    exact Generator.next_sound made
  · intro σ _ draws limit accepted
    exact Generator.draft_compilesSafely accepted
  · intro key limit attempts salt p generated
    obtain ⟨accepted, rfl⟩ := Program.generateFrom_ok generated
    exact Generator.draft_compilesSafely accepted

theorem sweep_program_compiles_safely :
    (∃ (g h : Generator Sweep) (issue : Issue),
      g.next 4 = .made issue h ∧ issue.instruction.Sound) ∧
    ((Generator.fresh (⟨0⟩ : Sweep)).draft 4).verdict = .accepted ∧
      CompilesSafely (.ofList ((Generator.fresh (⟨0⟩ : Sweep)).draft 4).program) := by
  obtain ⟨everyState, everyDraft, _⟩ := generated_programs_compile_safely
  have accepted := Draft.verdict_accepted.mpr Sweep.draft_ends
  refine ⟨?_, accepted, everyDraft Sweep ⟨0⟩ 4 accepted⟩
  have inside : 511 < ((Generator.fresh (⟨0⟩ : Sweep)).draft 4).issues.length := by
    rw [Generator.draft_length Sweep.draft_ends]
    decide
  have here := List.getElem?_eq_getElem inside
  obtain ⟨g, h, _, made, _⟩ := Generator.draft_issued here
  exact ⟨g, h, _, made, everyState Sweep g h 4 _ made⟩

end ProgramHash
