import ProgramHash.Proofs.Machine.Reach
import ProgramHash.Proofs.StaticTarget

namespace ProgramHash

open Machine

-- Both compilers put pieces behind what they have emitted, instruction by
-- instruction, so that the code of every instruction stands in the finished image
-- where it was emitted. No instruction takes more pieces than some limit.
section Pieces

variable {S : Type} (emit : S → Instruction × Nat → Except Fault S) (opened : S)
  (assembly : S → Assembly) (program : List Instruction) (first limit : Nat)

structure PutsPieces : Prop where
  atStart : (assembly opened).WellFormed
  small : Assembly.Small first (assembly opened)
  emitted : ∀ {s t i k}, program[k]? = some i → emit s (i, k) = .ok t →
    ∃ pieces : List Piece, (∀ piece ∈ pieces, piece.Fits) ∧ pieces.length ≤ limit ∧
      assembly t = (assembly s).putAll pieces

variable {emit opened assembly program first limit}

theorem PutsPieces.succ (puts : PutsPieces emit opened assembly program first limit) {k : Nat} {t : S}
    (done : stateAfter? emit opened program (k + 1) = .ok t) :
    ∃ s pieces, stateAfter? emit opened program k = .ok s ∧ (∀ piece ∈ pieces, Piece.Fits piece) ∧
      pieces.length ≤ limit ∧ assembly t = (assembly s).putAll pieces := by
  by_cases inside : k < program.length
  · have here := List.getElem?_eq_getElem inside
    obtain ⟨s, before, last⟩ := stateAfter_succ_ok here done
    obtain ⟨pieces, fit, few, same⟩ := puts.emitted here last
    exact ⟨s, pieces, before, fit, few, same⟩
  · rw [stateAfter_beyond (Nat.le_of_not_lt inside)] at done
    exact ⟨t, [], done, by simp, Nat.zero_le _, rfl⟩

theorem PutsPieces.formed (puts : PutsPieces emit opened assembly program first limit) {k : Nat} {s : S}
    (done : stateAfter? emit opened program k = .ok s) : (assembly s).WellFormed := by
  induction k generalizing s with
  | zero => cases done; exact puts.atStart
  | succ k ih =>
      obtain ⟨m, pieces, before, fit, _, same⟩ := puts.succ done
      rw [same]
      exact Assembly.putAll_wellFormed (ih before) fit

theorem PutsPieces.extends (puts : PutsPieces emit opened assembly program first limit) {j k : Nat} {s t : S}
    (earlier : j ≤ k) (first : stateAfter? emit opened program j = .ok s)
    (second : stateAfter? emit opened program k = .ok t) : (assembly s).Extends (assembly t) := by
  induction k generalizing t with
  | zero =>
      cases Nat.le_zero.mp earlier
      rw [first] at second
      cases second
      exact .refl _
  | succ k ih =>
      by_cases last : j = k + 1
      · subst last
        rw [first] at second
        cases second
        exact .refl _
      · obtain ⟨m, pieces, before, fit, _, same⟩ := puts.succ second
        rw [same]
        exact (ih (by omega) before).trans (Assembly.putAll_extends fit)

theorem PutsPieces.linkedAt (puts : PutsPieces emit opened assembly program first limit) {last : S}
    {whole : Assembly} {image : Array UInt8} {pool : Nat}
    (done : stateAfter? emit opened program program.length = .ok last)
    (onward : (assembly last).Extends whole) (linked : whole.Linked image pool) {k : Nat}
    (inside : k ≤ program.length) :
    ∃ s, stateAfter? emit opened program k = .ok s ∧ (assembly s).WellFormed ∧
      (assembly s).lanes = (assembly opened).lanes ∧ (assembly s).Linked image pool := by
  obtain ⟨s, early⟩ := stateAfter_ok_of_le inside done
  have formed := puts.formed early
  exact ⟨s, early, formed, (puts.extends (Nat.zero_le k) rfl early).lanes,
    linked.earlier formed ((puts.extends inside early done).trans onward)⟩

theorem PutsPieces.smallAfter (puts : PutsPieces emit opened assembly program first limit) {k : Nat}
    {s : S} (done : stateAfter? emit opened program k = .ok s) :
    Assembly.Small (first + limit * k) (assembly s) := by
  induction k generalizing s with
  | zero => cases done; exact puts.small
  | succ k ih =>
      obtain ⟨m, pieces, before, _, few, same⟩ := puts.succ done
      rw [same]
      exact ((ih before).putAll pieces).more (by rw [Nat.mul_succ]; omega)

end Pieces

section Closing

variable {S : Type} (emit : S → Instruction × Nat → Except Fault S) (opened : S)
  (assembly : S → Assembly) (program : List Instruction) (first limit width : Nat)
  (epilogue : List Operation) (closing : List Piece)

structure Closes : Prop extends PutsPieces emit opened assembly program first limit where
  width : (assembly opened).lanes = width
  fit : ∀ piece ∈ closing, piece.Fits
  ends : ∀ a : Assembly, a.emitAll epilogue = (a.putAll closing).emit Operation.ret.encode

structure LaidOut (image : Array UInt8) (pool : Nat) : Prop extends
    Closes emit opened assembly program first limit width epilogue closing where
  compiled : ∃ s, stateAfter? emit opened program program.length = .ok s ∧
    (((assembly s).putAll closing).emit Operation.ret.encode).Linked image pool

variable {emit opened assembly program first limit width epilogue closing}

section Emitted

variable {s : S} (closes : Closes emit opened assembly program first limit width epilogue closing)
  (done : stateAfter? emit opened program program.length = .ok s)
include closes done

theorem Closes.lanes : (assembly s).lanes = width :=
  (closes.extends (Nat.zero_le _) rfl done).lanes.trans closes.width

theorem Closes.wellFormed : ((assembly s).emitAll epilogue).WellFormed := by
  rw [closes.ends]
  exact Assembly.emit_wellFormed (Assembly.putAll_wellFormed (closes.formed done) closes.fit) _

theorem Closes.near
    (room : (11 + 8 * width) * (first + limit * program.length + closing.length + 2) < Assembly.reach) :
    ∃ m, ((assembly s).emitAll epilogue).Small m ∧
      (11 + 8 * ((assembly s).emitAll epilogue).lanes) * (m + 1) < Assembly.reach := by
  have extended := (Assembly.putAll_extends closes.fit).trans
    (Assembly.emit_extends (a := (assembly s).putAll closing) Operation.ret.encode)
  refine ⟨first + limit * program.length + closing.length + 1, ?_, ?_⟩
  · rw [closes.ends]
    exact ((closes.smallAfter done).putAll closing).emit .ret
  · rw [closes.ends, extended.lanes, closes.lanes done]
    exact room

theorem Closes.finishes
    (room : (11 + 8 * width) * (first + limit * program.length + closing.length + 2) < Assembly.reach) :
    ∃ code, ((assembly s).emitAll epilogue).finish = .ok code := by
  obtain ⟨m, small, near⟩ := closes.near done room
  exact Assembly.finish_near (closes.wellFormed done) small near

end Emitted

theorem Closes.laidOut
    (closes : Closes emit opened assembly program first limit width epilogue closing)
    {code : Array UInt8} (done : (stateAfter? emit opened program program.length >>= fun s =>
      ((assembly s).emitAll epilogue).finish) = .ok code) :
    ∃ pool ≤ code.size,
      LaidOut emit opened assembly program first limit width epilogue closing code pool := by
  obtain ⟨s, emitted, finished⟩ := bind_ok.mp done
  have linked := Assembly.finish_linked (closes.wellFormed emitted) finished
  rw [closes.ends] at linked
  exact ⟨_, linked.room, closes, s, emitted, linked⟩

variable {image : Array UInt8} {pool k : Nat}
  (laid : LaidOut emit opened assembly program first limit width epilogue closing image pool)
include laid

theorem LaidOut.upTo (inside : k ≤ program.length) :
    ∃ s, stateAfter? emit opened program k = .ok s ∧ (assembly s).WellFormed ∧
      (assembly s).lanes = width ∧ (assembly s).Linked image pool := by
  obtain ⟨last, done, linked⟩ := laid.compiled
  obtain ⟨s, early, formed, lanes, linked⟩ := laid.linkedAt done
    ((Assembly.putAll_extends laid.fit).trans (Assembly.emit_extends _)) linked inside
  exact ⟨s, early, formed, lanes.trans laid.width, linked⟩

theorem LaidOut.instruction {i : Instruction} (here : program[k]? = some i) :
    ∃ s t, stateAfter? emit opened program k = .ok s ∧
      stateAfter? emit opened program (k + 1) = .ok t ∧ emit s (i, k) = .ok t ∧
      (assembly s).WellFormed ∧ (assembly s).lanes = width ∧ (assembly t).Linked image pool := by
  obtain ⟨t, late, _, _, linked⟩ := laid.upTo (List.getElem?_eq_some_iff.mp here).1
  obtain ⟨s, early, last⟩ := stateAfter_succ_ok here late
  obtain ⟨_, again, formed, lanes, _⟩ :=
    laid.upTo (Nat.le_of_lt (List.getElem?_eq_some_iff.mp here).1)
  rw [early] at again
  cases again
  exact ⟨s, t, early, late, last, formed, lanes, linked⟩

end Closing

end ProgramHash
