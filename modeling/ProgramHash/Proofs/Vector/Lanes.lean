import ProgramHash.Compile.Vector
import ProgramHash.Proofs.Machine.Running

namespace ProgramHash.VectorCode

open Machine

def lane (p : Processor) (l : Fin 8) (r : Zmm) : Word := p.zmms[r][l]

def assign (chosen : Bool) (w : Zmm → Word) (dst : Zmm) (x : Word) : Zmm → Word :=
  fun r => if r = dst ∧ chosen = true then x else w r

-- What an operation between registers does to a lane, whatever stands in the
-- others: an operation with a mask changes the lane if it was chosen.
def onLane (chosen : Bool) (op : Operation) (w : Zmm → Word) : Zmm → Word :=
  match op with
  | .lanes op dst a (.register b) mask =>
      assign (mask.isNone || chosen) w dst (op.apply (w a) (w b))
  | .shiftLanes op dst src amount mask =>
      assign (mask.isNone || chosen) w dst (op.apply (w src) amount)
  | .moveLanes dst (.register src) mask => assign (mask.isNone || chosen) w dst (w src)
  | _ => w

def Masked (mask : Option Opmask) : Prop := mask = none ∨ mask = some taking

def BetweenUnder (given : Option Opmask) : Operation → Prop
  | .lanes _ _ _ (.register _) mask | .shiftLanes _ _ _ _ mask
  | .moveLanes _ (.register _) mask => mask = none ∨ mask = given
  | _ => False

abbrev BetweenRegisters : Operation → Prop := BetweenUnder (some taking)

-- Vector code works on the vector registers and the masks alone.
structure Keeps (p q : Processor) : Prop where
  gprs : q.gprs = p.gprs
  memory : q.memory = p.memory
  base : q.base = p.base
  stack : q.stack = p.stack

theorem Keeps.trans {p q r : Processor} (first : Keeps p q) (second : Keeps q r) : Keeps p r where
  gprs := second.gprs.trans first.gprs
  memory := second.memory.trans first.memory
  base := second.base.trans first.base
  stack := second.stack.trans first.stack

structure Still (p q : Processor) : Prop extends Keeps p q where
  masks : q.masks = p.masks

theorem Still.refl (p : Processor) : Still p p := ⟨⟨rfl, rfl, rfl, rfl⟩, rfl⟩

theorem Still.trans {p q r : Processor} (first : Still p q) (second : Still q r) : Still p r :=
  ⟨first.toKeeps.trans second.toKeeps, second.masks.trans first.masks⟩

theorem masked_ne_zero {mask : Option Opmask} (masked : Masked mask) : mask ≠ some 0 := by
  intro zero
  rcases masked with rfl | rfl
  · cases zero
  · revert zero
    decide

section Merging

variable {p : Processor} {dst : Zmm} {mask : Option Opmask} {v : Lanes}

theorem merge_lane_under {given : Option Opmask} (under : mask = none ∨ mask = given) (l : Fin 8) :
    lane (p.mergeLanes dst mask v) l =
      assign (mask.isNone || p.selected given l) (lane p l) dst v[l] := by
  have selected : p.selected mask l = (mask.isNone || p.selected given l) := by
    rcases under with rfl | rfl
    · rfl
    · cases mask <;> rfl
  funext r
  rw [← selected]
  simp only [lane, Processor.mergeLanes, assign, Bank.read_set]
  by_cases same : r = dst
  · subst same
    cases mask with
    | none => simp [Processor.selected]
    | some k => simp
  · simp [same]

theorem merge_lane (masked : Masked mask) (l : Fin 8) :
    lane (p.mergeLanes dst mask v) l =
      assign (mask.isNone || maskBit p.masks[taking] l) (lane p l) dst v[l] :=
  merge_lane_under masked l

theorem mapLanes_get (op : Word → Word → Word) (a b : Lanes) (l : Fin 8) :
    (Processor.mapLanes op a b)[l] = op a[l] b[l] := by
  simp [Processor.mapLanes]

end Merging

section Operations

variable {image : Array UInt8} {pool : Nat} {p : Processor}

theorem operation_does_under {given : Option Opmask} (op : Operation) (between : BetweenUnder given op) :
    ∃ q, (Piece.plain op).Does image pool 8 p q ∧ q.position = p.position + op.encode.length ∧
      Still p q ∧ ∀ l, lane q l = onLane (p.selected given l) op (lane p l) := by
  unfold BetweenUnder at between
  split at between
  · refine ⟨_, rfl, rfl, ⟨⟨rfl, rfl, rfl, rfl⟩, rfl⟩, ?_⟩
    intro l
    rw [merge_lane_under between, mapLanes_get]
    rfl
  · refine ⟨_, rfl, rfl, ⟨⟨rfl, rfl, rfl, rfl⟩, rfl⟩, ?_⟩
    intro l
    rw [merge_lane_under between]
    simp only [onLane, Bank.read_map]
    rfl
  · refine ⟨_, rfl, rfl, ⟨⟨rfl, rfl, rfl, rfl⟩, rfl⟩, ?_⟩
    intro l
    rw [merge_lane_under between]
    rfl
  · cases between

theorem operation_does (op : Operation) (between : BetweenRegisters op) :
    ∃ q, (Piece.plain op).Does image pool 8 p q ∧ q.position = p.position + op.encode.length ∧
      Still p q ∧ ∀ l, lane q l = onLane (maskBit p.masks[taking] l) op (lane p l) :=
  operation_does_under op between

theorem fits_of_under {given : Option Opmask} (named : given ≠ some 0) {op : Operation}
    (between : BetweenUnder given op) : (Piece.plain op).Fits := by
  have nonzero {own : Option Opmask} (under : own = none ∨ own = given) : own ≠ some 0 := by
    rcases under with rfl | rfl
    · simp
    · exact named
  unfold BetweenUnder at between
  split at between
  · exact ⟨⟨trivial, nonzero between⟩, nofun, .inr rfl⟩
  · exact ⟨nonzero between, nofun, .inr rfl⟩
  · exact ⟨⟨trivial, nonzero between⟩, nofun, .inr rfl⟩
  · cases between

theorem operation_fits (op : Operation) (between : BetweenRegisters op) : (Piece.plain op).Fits :=
  fits_of_under (by decide) between

def allOnLane (chosen : Bool) (ops : List Operation) (w : Zmm → Word) : Zmm → Word :=
  ops.foldl (fun w op => onLane chosen op w) w

theorem operations_do (ops : List Operation) (between : ∀ op ∈ ops, BetweenRegisters op) :
    ∃ q, DoAll image pool 8 (ops.map .plain) p q ∧ Still p q ∧
      ∀ l, lane q l = allOnLane (maskBit p.masks[taking] l) ops (lane p l) := by
  induction ops generalizing p with
  | nil => exact ⟨p, rfl, .refl p, fun _ => rfl⟩
  | cons op ops ih =>
      obtain ⟨m, does, moved, still, result⟩ :=
        @operation_does image pool p op (between op List.mem_cons_self)
      obtain ⟨q, all, later, results⟩ :=
        @ih m fun other member => between other (List.mem_cons_of_mem _ member)
      refine ⟨q, ⟨m, does, moved, all⟩, still.trans later, ?_⟩
      intro l
      rw [results, result, still.masks]
      rfl

theorem constant_does (op : LaneOp) (dst a : Zmm) {mask : Option Opmask} (masked : Masked mask)
    (value : Word) :
    ∃ q, (Piece.constant (.lanes op dst a (.pool 0) mask) value).Does image pool 8 p q ∧
      q.position = p.position + (Operation.lanes op dst a (.pool 0) mask).encode.length ∧
      Still p q ∧ ∀ l, lane q l = assign (mask.isNone || maskBit p.masks[taking] l) (lane p l) dst
        (op.apply (lane p l a) value) := by
  let m := p.passing (.lanes op dst a (.pool 0) mask)
  refine ⟨m.mergeLanes dst mask (Processor.mapLanes op.apply m.zmms[a] (.filled value)), ?_, rfl,
    ⟨⟨rfl, rfl, rfl, rfl⟩, rfl⟩, ?_⟩
  · intro d start reaches entry
    have read : Processor.imageLanes? image (m.position + d.toInt) = some (.filled value) := by
      rw [← Processor.entry_lanes entry, ← reaches]
      rfl
    change (do
      let v ← Processor.trap .badAddress (Processor.imageLanes? image (m.position + d.toInt))
      return m.mergeLanes dst mask (Processor.mapLanes op.apply m.zmms[a] v)) = _
    rw [read]
    rfl
  · intro l
    rw [merge_lane masked, mapLanes_get]
    simp only [Bank.read_filled]
    rfl

end Operations

end ProgramHash.VectorCode
