import ProgramHash.Proofs.Schedule.Slots

namespace ProgramHash

-- Changing a predicate at one place changes its count by one at most.
section Counting

variable {α : Type} {l : List α} {p q : α → Bool} {d : α}

theorem countP_le_of_off (same : ∀ a ∈ l, a ≠ d → q a = p a) (holds : q d = true → p d = true) :
    l.countP q ≤ l.countP p := by
  refine List.countP_mono_left fun a member satisfied => ?_
  by_cases equal : a = d
  · subst equal; exact holds satisfied
  · rw [← same a member equal]; exact satisfied

theorem countP_le_succ_of_off (nodup : l.Nodup) (same : ∀ a ∈ l, a ≠ d → q a = p a) :
    l.countP q ≤ l.countP p + 1 := by
  induction l with
  | nil => exact Nat.zero_le _
  | cons a l ih =>
      obtain ⟨fresh, rest⟩ := List.nodup_cons.mp nodup
      simp only [List.countP_cons]
      by_cases equal : a = d
      · subst equal
        have tail : l.countP q ≤ l.countP p :=
          List.countP_mono_left fun b member satisfied => by
            rw [← same b (List.mem_cons_of_mem _ member) (fun e => fresh (e ▸ member))]
            exact satisfied
        split <;> omega
      · have tail := ih rest fun b member => same b (List.mem_cons_of_mem _ member)
        rw [same a List.mem_cons_self equal]
        omega

end Counting

namespace Register

theorem mem_all (r : Register) : r ∈ all := List.mem_finRange r

theorem nodup_all : all.Nodup := List.nodup_finRange 8

end Register

theorem RegisterSet.mem_ofPredicate {p : Register → Bool} {r : Register} :
    r ∈ (ofPredicate p).members ↔ p r = true := by
  simp [ofPredicate, Register.mem_all]

theorem RegisterSet.nodup_ofPredicate (p : Register → Bool) : (ofPredicate p).members.Nodup :=
  Register.nodup_all.sublist List.filter_sublist

namespace Schedule

def inFlight (s : Schedule) (cycle : Nat) : Nat := Register.all.countP fun r => cycle < s.ready[r]

theorem mem_readyAt {s : Schedule} {cycle : Nat} {r : Register} :
    r ∈ (s.readyAt cycle).members ↔ s.ready[r] ≤ cycle := by
  simp [readyAt, RegisterSet.mem_ofPredicate, isReady]

theorem readyAt_size (s : Schedule) (cycle : Nat) :
    (s.readyAt cycle).size + s.inFlight cycle = 8 := by
  have total := List.length_eq_countP_add_countP (l := Register.all) fun r => s.isReady r cycle
  have late : Register.all.countP (fun r => !s.isReady r cycle) = s.inFlight cycle :=
    List.countP_congr fun r _ => by simp [isReady]
  rw [List.countP_eq_length_filter, Register.all, List.length_finRange] at total
  simp only [Bool.not_eq_true, Bool.decide_eq_false] at total
  exact (late ▸ total).symm

theorem exists_ready_avoiding {s : Schedule} {cycle : Nat} (enough : 3 ≤ (s.readyAt cycle).size)
    (x y : Register) : ∃ d ∈ (s.readyAt cycle).members, d ≠ x ∧ d ≠ y := by
  have nodup := RegisterSet.nodup_ofPredicate fun r => s.isReady r cycle
  refine Classical.byContradiction fun none => ?_
  have within : (s.readyAt cycle).members ⊆ [x, y] := by
    intro d member
    by_cases one : d = x
    · simp [one]
    · by_cases two : d = y
      · simp [two]
      · exact absurd ⟨d, member, one, two⟩ none
  have few : (s.readyAt cycle).size ≤ 2 := nodup.length_le_of_subset within
  omega

section Booking

variable {s : Schedule} {slot : Slot} {i : Instruction}

@[simp] theorem book_cursor : (s.book slot i).cursor = s.cursor := rfl

theorem book_busy_same {units : UnitSet} (inside : slot.cycle < 196)
    (before : s.busy[slot.cycle]? = some units) :
    (s.book slot i).busy[slot.cycle]? = some (units.union slot.units) := by
  rw [Vector.getElem?_eq_getElem inside, Option.some.injEq] at before
  simp [book, inside, before]

theorem book_busy_other {cycle : Nat} (other : cycle ≠ slot.cycle) :
    (s.book slot i).busy[cycle]? = s.busy[cycle]? := by
  unfold book
  dsimp only
  split
  · rw [Vector.getElem?_set_ne _ other.symm]
  · rfl

theorem book_ready_plain (plain : i.destination? = none) : (s.book slot i).ready = s.ready := by
  simp [book, plain]

theorem book_ready_same {d : Register} (written : i.destination? = some d) :
    (s.book slot i).ready[d] = slot.cycle + i.opcode.latency := by
  simp [book, written]

theorem book_ready_other {d r : Register} (written : i.destination? = some d) (other : r ≠ d) :
    (s.book slot i).ready[r] = s.ready[r] := by
  simp [book, written, other]

-- What a booking comes to: the units of the slot are busy in its cycle, and the
-- destination is ready once the instruction has finished. Nothing else changes.
structure Booked (s : Schedule) (slot : Slot) (i : Instruction) (t : Schedule) : Prop where
  cursor : t.cursor = s.cursor
  busy : ∀ cycle (inside : cycle < 196) p, t.busy[cycle].has p = true ↔
    s.busy[cycle].has p = true ∨ slot.cycle = cycle ∧ slot.units.has p = true
  ready : ∀ r : Register, t.ready[r] =
    if i.destination? = some r then slot.cycle + i.opcode.latency else s.ready[r]

theorem book_booked : s.Booked slot i (s.book slot i) where
  cursor := rfl
  busy cycle inside p := by
    by_cases same : slot.cycle = cycle
    · subst same
      have later := book_busy_same (s := s) (i := i) inside (Vector.getElem?_eq_getElem inside)
      rw [Vector.getElem?_eq_getElem inside, Option.some.injEq] at later
      simp [later, UnitSet.has_union]
    · have later := book_busy_other (s := s) (i := i) (Ne.symm same)
      rw [Vector.getElem?_eq_getElem inside, Vector.getElem?_eq_getElem inside,
        Option.some.injEq] at later
      simp [later, same]
  ready r := by
    cases written : i.destination? with
    | none => simp [book_ready_plain written]
    | some d =>
        by_cases same : r = d
        · subst same
          simp [book_ready_same written]
        · simp [book_ready_other written same, Ne.symm same]

theorem inFlight_book (cycle : Nat) :
    (s.book slot i).inFlight cycle ≤
      s.inFlight cycle + if cycle < slot.cycle + i.opcode.latency then 1 else 0 := by
  cases written : i.destination? with
  | none =>
      simp only [inFlight, book_ready_plain written]
      omega
  | some d =>
      have same : ∀ r ∈ Register.all, r ≠ d →
          decide (cycle < (s.book slot i).ready[r]) = decide (cycle < s.ready[r]) :=
        fun r _ other => by rw [book_ready_other written other]
      split
      · exact countP_le_succ_of_off Register.nodup_all same
      · rename_i done
        refine countP_le_of_off same fun late => ?_
        rw [book_ready_same written] at late
        exact absurd (of_decide_eq_true late) done

end Booking

theorem inFlight_book_plain {s : Schedule} {slot : Slot} {i : Instruction}
    (plain : i.destination? = none) (cycle : Nat) :
    (s.book slot i).inFlight cycle = s.inFlight cycle := by
  simp only [inFlight, book_ready_plain plain]

theorem inFlight_zero {s : Schedule} {cycle : Nat} :
    s.inFlight cycle = 0 ↔ ∀ r : Register, s.ready[r] ≤ cycle := by
  simp [inFlight, List.countP_eq_zero, Register.mem_all]

theorem foldl_max_le {l : List Nat} {b n : Nat} :
    l.foldl max b ≤ n ↔ b ≤ n ∧ ∀ a ∈ l, a ≤ n := by
  induction l generalizing b with
  | nil => simp
  | cons a l ih => rw [List.foldl_cons, ih, Nat.max_le, List.forall_mem_cons, and_assoc]

theorem latency_le {s : Schedule} {n : Nat} : s.latency ≤ n ↔ ∀ r : Register, s.ready[r] ≤ n := by
  unfold latency
  rw [← Bank.foldl_toArray, ← Array.foldl_toList, foldl_max_le]
  constructor
  · rintro ⟨_, all⟩ r
    exact all _ (Array.mem_toList_iff.mpr (Bank.mem_toArray.mpr ⟨r, rfl⟩))
  · intro all
    refine ⟨Nat.zero_le _, fun a member => ?_⟩
    obtain ⟨r, rfl⟩ := Bank.mem_toArray.mp (Array.mem_toList_iff.mp member)
    exact all r

end Schedule

end ProgramHash
