import Mathlib.Logic.Function.Basic
import ProgramHash.Fault

-- Eight register files in one of 64 words. Each word is one register of one lane, so
-- that the lanes are cells of their own: what is set in one is there until the next
-- time it is set, whatever is set in the others.
namespace ProgramHash.LaneFile

theorem place_injective {r s : Register} {l k : Fin 8} (same : place r l = place s k) : r = s ∧ l = k := by
  have values := congrArg Fin.val same
  simp only [place] at values
  exact ⟨Fin.ext (by omega), Fin.ext (by omega)⟩

def registerOf (i : Fin 64) : Register := ⟨i.val / 8, by omega⟩

def laneOf (i : Fin 64) : Fin 8 := ⟨i.val % 8, Nat.mod_lt _ (by decide)⟩

theorem place_parts (i : Fin 64) : place (registerOf i) (laneOf i) = i :=
  Fin.ext (Nat.div_add_mod i.val 8)

theorem setLane_place (values : LaneFile) (l : Fin 8) (file : RegisterFile) (s : Register) (k : Fin 8) :
    (values.setLane l file)[place s k] = if k = l then file[s] else values[place s k] := by
  have folded (rs : List Register) (values : LaneFile) :
      (rs.foldl (fun values r => values.set (place r l) file[r]) values)[place s k] =
        if k = l ∧ s ∈ rs then file[s] else values[place s k] := by
    induction rs generalizing values with
    | nil => simp
    | cons r rs ih =>
        rw [List.foldl_cons, ih, Bank.read_set]
        by_cases later : k = l ∧ s ∈ rs
        · rw [if_pos later, if_pos ⟨later.1, List.mem_cons_of_mem _ later.2⟩]
        · rw [if_neg later]
          by_cases here : k = l ∧ s = r
          · obtain ⟨rfl, rfl⟩ := here
            simp
          · have apart : place s k ≠ place r l := by
              intro equal
              obtain ⟨register, lane⟩ := place_injective equal
              exact here ⟨lane, register⟩
            have none : ¬ (k = l ∧ s ∈ r :: rs) := by
              rintro ⟨lane, member⟩
              rcases List.mem_cons.mp member with register | member
              · exact here ⟨lane, register⟩
              · exact later ⟨lane, member⟩
            rw [if_neg apart, if_neg none]
  have whole := folded Register.all values
  simpa [setLane, Register.all] using whole

theorem ext_lanes {a b : LaneFile} (same : ∀ l, a.lane l = b.lane l) : a = b := by
  apply Bank.ext
  intro i
  have words := congrArg (fun file => file[registerOf i]) (same (laneOf i))
  simpa [lane, place_parts] using words

theorem lane_setLane (values : LaneFile) (l k : Fin 8) (file : RegisterFile) :
    (values.setLane l file).lane k = if k = l then file else values.lane k := by
  apply Bank.ext
  intro r
  rw [lane, Bank.read_ofFn, setLane_place]
  split
  · rfl
  · rw [lane, Bank.read_ofFn]

def setLanes (values : LaneFile) (calls : List (Fin 8 × RegisterFile)) : LaneFile :=
  calls.foldl (fun values call => values.setLane call.1 call.2) values

def latest? (calls : List (Fin 8 × RegisterFile)) (l : Fin 8) : Option RegisterFile :=
  (calls.reverse.find? fun call => call.1 = l).map Prod.snd

theorem latest_cons (call : Fin 8 × RegisterFile) (calls : List (Fin 8 × RegisterFile)) (l : Fin 8) :
    latest? (call :: calls) l = (latest? calls l).or (if call.1 = l then some call.2 else none) := by
  by_cases here : call.1 = l
  · simp [latest?, List.find?_append, here]
  · simp [latest?, List.find?_append, here]

theorem lane_setLanes (values : LaneFile) (calls : List (Fin 8 × RegisterFile)) (l : Fin 8) :
    (values.setLanes calls).lane l = (latest? calls l).getD (values.lane l) := by
  induction calls generalizing values with
  | nil => rfl
  | cons call calls ih =>
      rw [setLanes, List.foldl_cons, ← setLanes, ih, lane_setLane, latest_cons]
      cases latest? calls l with
      | some file => rfl
      | none => by_cases here : l = call.1 <;> simp [here, eq_comm]

theorem setLanes_ok (values : LaneFile) (calls : List (Fin 8 × RegisterFile)) :
    calls.foldlM (fun values call => values.setLaneAt call.1 call.2) values =
      .ok (values.setLanes calls) := by
  induction calls generalizing values with
  | nil => rfl
  | cons call calls ih =>
      rw [List.foldlM_cons, setLaneAt, dif_pos call.1.isLt]
      exact ih _

-- A file made of lanes is an empty one in which each of them is set.
theorem ofLanes_eq (lanes : Bank RegisterFile 8) :
    ofLanes lanes = zero.setLanes ((List.finRange 8).map fun l => (l, lanes[l])) := by
  rw [setLanes, List.foldl_map]
  rfl

theorem latest_each (lanes : Bank RegisterFile 8) {ls : List (Fin 8)} {k : Fin 8} (member : k ∈ ls) :
    latest? (ls.map fun l => (l, lanes[l])) k = some lanes[k] := by
  have found : ls.reverse.find? (fun l => l = k) = some k := by
    cases search : ls.reverse.find? (fun l => l = k) with
    | none =>
        have missed := List.find?_eq_none.mp search k (List.mem_reverse.mpr member)
        exact absurd (decide_eq_true rfl) missed
    | some l =>
        have same := List.find?_some search
        exact congrArg some (of_decide_eq_true same)
  rw [latest?, ← List.map_reverse, List.find?_map]
  change Option.map Prod.snd (Option.map _ (ls.reverse.find? fun l => l = k)) = _
  rw [found]
  rfl

theorem lane_ofLanes (lanes : Bank RegisterFile 8) (k : Fin 8) : (ofLanes lanes).lane k = lanes[k] := by
  rw [ofLanes_eq, lane_setLanes, latest_each lanes (List.mem_finRange k)]
  rfl

def lanes (file : LaneFile) : Bank RegisterFile 8 := .ofFn file.lane

theorem lanes_ofLanes (lanes : Bank RegisterFile 8) : (ofLanes lanes).lanes = lanes := by
  apply Bank.ext
  intro l
  rw [LaneFile.lanes, Bank.read_ofFn, lane_ofLanes]

theorem ofLanes_lanes (file : LaneFile) : ofLanes file.lanes = file :=
  ext_lanes fun l => by rw [lane_ofLanes, lanes, Bank.read_ofFn]

-- A lane reads what was set last for it, setting it touches the words that stand for it
-- and no others, and the eight lanes together are the file.
theorem lanes_independent :
    (∀ (file : LaneFile) (calls : List (Fin 8 × RegisterFile)), ∃ result,
      calls.foldlM (fun file call => file.setLaneAt call.1 call.2) file = .ok result ∧
        ∀ l : Fin 8, result.laneAt l = .ok ((latest? calls l).getD (file.lane l))) ∧
    (∀ (file : LaneFile) (l : Fin 8) (values : RegisterFile) (i : Fin 64),
      (file.setLane l values)[i] = if i.val % 8 = l.val then values[registerOf i] else file[i]) ∧
    Function.LeftInverse lanes ofLanes ∧ Function.RightInverse lanes ofLanes := by
  refine ⟨fun file calls => ⟨_, setLanes_ok file calls, fun l => ?_⟩, fun file l values i => ?_,
    lanes_ofLanes, ofLanes_lanes⟩
  · rw [laneAt, dif_pos l.isLt, ← lane_setLanes]
  · have word := setLane_place file l values (registerOf i) (laneOf i)
    rw [place_parts] at word
    simpa only [Fin.ext_iff, laneOf] using word

end ProgramHash.LaneFile
