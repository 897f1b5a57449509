import ProgramHash.Schedule

-- Where an instruction can issue. The parts of an instruction choose their units one
-- after the other, which misses no cycle that has room for them, and the slot of an
-- instruction is the first cycle with room.
namespace ProgramHash

namespace UnitSet

theorem has_single (p q : ExecutionUnit) : (single p).has q = true ↔ q = p := by
  cases p <;> cases q <;> decide

theorem has_union (s t : UnitSet) (p : ExecutionUnit) :
    (s.union t).has p = true ↔ s.has p = true ∨ t.has p = true := by
  cases p <;> simp [union, has]

theorem choose_some {allowed busy : UnitSet} {p : ExecutionUnit}
    (chosen : choose allowed busy = some p) : allowed.has p = true ∧ busy.has p = false := by
  simpa using List.find?_some chosen

theorem choose_isSome {allowed busy : UnitSet} {p : ExecutionUnit} (fits : allowed.has p = true)
    (free : busy.has p = false) : ∃ q, choose allowed busy = some q := by
  refine Option.isSome_iff_exists.mp (List.find?_isSome.mpr ⟨p, ?_, by simp [fits, free]⟩)
  cases p <;> decide

end UnitSet

namespace MicroOps

inductive Assigned (busy : UnitSet) : MicroOps → UnitSet → Prop where
  | single {allowed : UnitSet} {p : ExecutionUnit} (fits : allowed.has p = true)
      (free : busy.has p = false) : Assigned busy (.single allowed) (.single p)
  | dual {first second : UnitSet} {p q : ExecutionUnit} (fits : first.has p = true)
      (free : busy.has p = false) (fits' : second.has q = true) (free' : busy.has q = false)
      (apart : p ≠ q) : Assigned busy (.dual first second) ((UnitSet.single p).union (.single q))

theorem Assigned.free {busy taken : UnitSet} {ops : MicroOps} (assigned : Assigned busy ops taken)
    {p : ExecutionUnit} (takes : taken.has p = true) : busy.has p = false := by
  cases assigned with
  | single _ free =>
      rw [UnitSet.has_single] at takes
      rwa [takes]
  | dual _ free _ free' _ =>
      rw [UnitSet.has_union, UnitSet.has_single, UnitSet.has_single] at takes
      rcases takes with rfl | rfl
      · exact free
      · exact free'

theorem Assigned.count {busy taken : UnitSet} {ops : MicroOps} (assigned : Assigned busy ops taken) :
    taken.count = ops.units.length := by
  cases assigned with
  | @single _ p _ _ => cases p <;> rfl
  | @dual _ _ p q _ _ _ _ apart =>
      cases p <;> cases q <;> first | rfl | exact absurd rfl apart

theorem place_assigned {busy taken : UnitSet} {ops : MicroOps} (placed : ops.place busy = some taken) :
    Assigned busy ops taken := by
  cases ops with
  | single allowed =>
      obtain ⟨p, chosen, rfl⟩ := Option.map_eq_some_iff.mp placed
      obtain ⟨fits, free⟩ := UnitSet.choose_some chosen
      exact .single fits free
  | dual first second =>
      obtain ⟨p, chosen, placed⟩ := Option.bind_eq_some_iff.mp placed
      obtain ⟨q, beside, same⟩ := Option.bind_eq_some_iff.mp placed
      cases same
      obtain ⟨fits, free⟩ := UnitSet.choose_some chosen
      obtain ⟨fits', free'⟩ := UnitSet.choose_some beside
      -- The second part saw the unit of the first as busy.
      rw [Bool.eq_false_iff, Ne, UnitSet.has_union, UnitSet.has_single, not_or] at free'
      obtain ⟨still, apart⟩ := free'
      exact .dual fits free fits' (Bool.eq_false_iff.mpr still) (Ne.symm apart)

-- The first part can take a unit that only the second could have used when its own
-- set is larger. Parts with the same units or with none in common cannot be caught so.
def Unentangled : MicroOps → Prop
  | .single _ => True
  | .dual first second => first = second ∨ ∀ p, first.has p = true → second.has p = false

theorem place_succeeds {busy taken : UnitSet} {ops : MicroOps} (unentangled : ops.Unentangled)
    (assigned : Assigned busy ops taken) : ∃ units, ops.place busy = some units := by
  cases assigned with
  | single fits free =>
      obtain ⟨p, chosen⟩ := UnitSet.choose_isSome fits free
      exact ⟨_, by rw [place, chosen]; rfl⟩
  | @dual first second p q fits free fits' free' apart =>
      obtain ⟨r, chosen⟩ := UnitSet.choose_isSome fits free
      have left (other : ExecutionUnit) (fits' : second.has other = true)
          (free' : busy.has other = false) (apart : other ≠ r) :
          ∃ units, place busy (.dual first second) = some units := by
        have still : (busy.union (UnitSet.single r)).has other = false := by
          rw [Bool.eq_false_iff, Ne, UnitSet.has_union, UnitSet.has_single, free']
          simp [apart]
        obtain ⟨t, beside⟩ := UnitSet.choose_isSome fits' still
        exact ⟨(UnitSet.single r).union (.single t), by simp [place, chosen, beside]⟩
      by_cases same : q = r
      · -- The first part took the unit meant for the second, which leaves the other one.
        subst same
        rcases unentangled with rfl | disjoint
        · exact left p fits free apart
        · rw [disjoint q (UnitSet.choose_some chosen).1] at fits'
          cases fits'
      · exact left q fits' free' same

example : Assigned .none (.dual ⟨true, false, true⟩ (.single .p5)) ⟨true, false, true⟩ ∧
    (dual ⟨true, false, true⟩ (.single .p5)).place .none = none :=
  ⟨.dual (p := .p0) (q := .p5) rfl rfl rfl rfl (by decide), by decide⟩

end MicroOps

theorem Opcode.microOps_unentangled (op : Opcode) : op.microOps.Unentangled := by
  cases op with
  | umulh | smulh =>
      refine .inr fun p => ?_
      cases p <;> decide
  | target | branch => exact .inl rfl
  | _ => trivial

theorem Opcode.place_isSome_iff (op : Opcode) (busy : UnitSet) :
    (op.microOps.place busy).isSome = true ↔ ∃ units, op.microOps.Assigned busy units := by
  rw [Option.isSome_iff_exists]
  constructor
  · rintro ⟨units, placed⟩
    exact ⟨units, MicroOps.place_assigned placed⟩
  · rintro ⟨units, assigned⟩
    exact MicroOps.place_succeeds op.microOps_unentangled assigned

namespace Schedule

def Offers (s : Schedule) (ops : MicroOps) (cycle : Nat) (units : UnitSet) : Prop :=
  ∃ busy, s.busy[cycle]? = some busy ∧ ops.Assigned busy units

theorem Offers.inside {s : Schedule} {ops : MicroOps} {cycle : Nat} {units : UnitSet}
    (offers : s.Offers ops cycle units) : cycle < 196 := by
  obtain ⟨busy, here, _⟩ := offers
  exact (Vector.getElem?_eq_some_iff.mp here).1

section Search

variable {s : Schedule} {ops : MicroOps} {left cycle : Nat} {slot : Slot}

theorem slotAt_some (found : s.slotAt? ops cycle = some slot) :
    slot.cycle = cycle ∧ ∃ busy, s.busy[slot.cycle]? = some busy ∧ ops.place busy = some slot.units := by
  obtain ⟨busy, now, placed⟩ := Option.bind_eq_some_iff.mp found
  obtain ⟨taken, fits, rfl⟩ := Option.map_eq_some_iff.mp placed
  exact ⟨rfl, busy, now, fits⟩

theorem searchSlot_some (found : s.searchSlot? ops left cycle = some slot) :
    ∃ busy, s.busy[slot.cycle]? = some busy ∧ ops.place busy = some slot.units := by
  induction left generalizing cycle with
  | zero => cases found
  | succ left ih =>
      unfold searchSlot? at found
      split at found
      · rename_i here
        cases found
        exact (slotAt_some here).2
      · exact ih found

theorem searchSlot_offers (found : s.searchSlot? ops left cycle = some slot) :
    s.Offers ops slot.cycle slot.units := by
  obtain ⟨busy, here, placed⟩ := searchSlot_some found
  exact ⟨busy, here, MicroOps.place_assigned placed⟩

theorem searchSlot_after (found : s.searchSlot? ops left cycle = some slot) : cycle ≤ slot.cycle := by
  induction left generalizing cycle with
  | zero => cases found
  | succ left ih =>
      unfold searchSlot? at found
      split at found
      · rename_i here
        cases found
        exact Nat.le_of_eq (slotAt_some here).1.symm
      · exact Nat.le_of_succ_le (ih found)

theorem searchSlot_stops {op : Opcode} {later : Nat} {units : UnitSet}
    (offers : s.Offers op.microOps later units) (from_ : cycle ≤ later) (within : later < cycle + left) :
    ∃ slot, s.searchSlot? op.microOps left cycle = some slot ∧ slot.cycle ≤ later := by
  induction left generalizing cycle with
  | zero => omega
  | succ left ih =>
      cases here : s.slotAt? op.microOps cycle with
      | some slot =>
          exact ⟨slot, by rw [searchSlot?, here], Nat.le_trans (Nat.le_of_eq (slotAt_some here).1) from_⟩
      | none =>
          have passed : cycle ≠ later := by
            rintro rfl
            obtain ⟨busy, now, assigned⟩ := offers
            obtain ⟨taken, placed⟩ := MicroOps.place_succeeds op.microOps_unentangled assigned
            simp [slotAt?, now, placed] at here
          obtain ⟨slot, found, early⟩ := @ih (cycle + 1) (by omega) (by omega)
          exact ⟨slot, by rw [searchSlot?, here]; exact found, early⟩

end Search

theorem slotFrom_least {s : Schedule} {op : Opcode} {earliest later : Nat} {units : UnitSet}
    (offers : s.Offers op.microOps later units) (from_ : earliest ≤ later) :
    ∃ slot, s.slotFrom? op.microOps earliest = some slot ∧ slot.cycle ≤ later :=
  searchSlot_stops offers from_ (by have := offers.inside; omega)

theorem slotFrom_here {s : Schedule} {ops : MicroOps} {cycle : Nat} {slot : Slot}
    (inside : cycle < 196) (here : s.slotAt? ops cycle = some slot) :
    s.slotFrom? ops cycle = some slot := by
  unfold slotFrom?
  obtain ⟨left, same⟩ : ∃ left, 196 - cycle = left + 1 := ⟨195 - cycle, by omega⟩
  rw [same, searchSlot?, here]

-- A slot is found exactly when a cycle from the given one on has room. It lies in the
-- first such cycle, with a free unit for each part, and inside the schedule, so that
-- booking it takes its units and no others. For no opcode does taking units part by
-- part miss a cycle with room.
theorem slots_legal_and_earliest (s : Schedule) (op : Opcode) (earliest : Nat) :
    ((s.slotFrom? op.microOps earliest).isSome = true ↔
      ∃ cycle units, earliest ≤ cycle ∧ cycle < 196 ∧ s.Offers op.microOps cycle units) ∧
    (∀ slot, s.slotFrom? op.microOps earliest = some slot →
      earliest ≤ slot.cycle ∧ s.Offers op.microOps slot.cycle slot.units ∧
      slot.units.count = op.microOps.units.length ∧
      (∀ cycle units, earliest ≤ cycle → s.Offers op.microOps cycle units → slot.cycle ≤ cycle) ∧
      ∃ inside : slot.cycle < 196, ∀ i,
        (s.book slot i).busy = s.busy.set slot.cycle (s.busy[slot.cycle].union slot.units)) ∧
    ∀ busy, (op.microOps.place busy).isSome = true ↔ ∃ units, op.microOps.Assigned busy units := by
  refine ⟨⟨fun found => ?_, ?_⟩, fun slot found => ?_, op.place_isSome_iff⟩
  · obtain ⟨slot, found⟩ := Option.isSome_iff_exists.mp found
    have offers := searchSlot_offers found
    exact ⟨slot.cycle, slot.units, searchSlot_after found, offers.inside, offers⟩
  · rintro ⟨cycle, units, from_, _, offers⟩
    obtain ⟨slot, found, _⟩ := slotFrom_least offers from_
    exact Option.isSome_iff_exists.mpr ⟨slot, found⟩
  · have offers := searchSlot_offers found
    have inside := offers.inside
    have ⟨_, _, assigned⟩ := offers
    refine ⟨searchSlot_after found, offers, assigned.count, fun cycle units from_ room => ?_,
      inside, fun i => by simp [book, inside]⟩
    obtain ⟨first, again, early⟩ := slotFrom_least room from_
    rw [found, Option.some.injEq] at again
    rwa [again]

def crowded : Schedule :=
  { initial with busy :=
      ((initial.busy.set 0 (.single .p1)).set 1 ⟨true, false, true⟩).set 195 (.single .p1) }

theorem crowded_slot_earliest :
    crowded.slotFrom? Opcode.umulh.microOps 0 = some ⟨2, ⟨false, true, true⟩⟩ ∧
      crowded.Offers Opcode.umulh.microOps 2 ⟨false, true, true⟩ ∧
      (∀ cycle units, crowded.Offers Opcode.umulh.microOps cycle units → 2 ≤ cycle) ∧
      ¬ ∃ cycle units, 195 ≤ cycle ∧ cycle < 196 ∧ crowded.Offers Opcode.mul.microOps cycle units := by
  have found : crowded.slotFrom? Opcode.umulh.microOps 0 = some ⟨2, ⟨false, true, true⟩⟩ := by
    decide +kernel
  have none : crowded.slotFrom? Opcode.mul.microOps 195 = none := by decide +kernel
  obtain ⟨_, offers, _, least, _⟩ := (slots_legal_and_earliest crowded .umulh 0).2.1 _ found
  refine ⟨found, offers, fun cycle units => least cycle units (Nat.zero_le cycle), ?_⟩
  rw [← (slots_legal_and_earliest crowded .mul 195).1, none]
  decide

end Schedule

end ProgramHash
