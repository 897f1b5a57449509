import ProgramHash.Proofs.Machine.Building

namespace ProgramHash.Machine.Script

open Assembly (reach)

section Finishing

variable {lanes : Nat} {calls : List Call} {s : Session} {n t : Nat}

-- The text up to where the pool starts, and then the pool, before any field is filled.
def lengthened (lanes : Nat) (calls : List Call) : List UInt8 :=
  text calls ++ List.replicate (poolStart lanes calls - (text calls).length) Assembly.padding

def blank (lanes : Nat) (calls : List Call) : List UInt8 := lengthened lanes calls ++ pool lanes calls

theorem target?_eq_some : target? lanes calls n = some t ↔
    (∃ bytes value, calls[n]? = some (.constant bytes value) ∧ entryStart lanes calls value = t) ∨
      jumpTarget? calls n = some t := by
  unfold target?
  split
  · rename_i bytes value here
    have none : jumpTarget? calls n = none := by rw [jumpTarget?, here]
    rw [none, here]
    constructor
    · exact fun same => .inl ⟨bytes, value, rfl, Option.some.inj same⟩
    · rintro (⟨_, _, same, rfl⟩ | never)
      · cases same
        rfl
      · cases never
  · rename_i other
    constructor
    · exact .inr
    · rintro (⟨bytes, value, here, _⟩ | aims)
      · exact absurd here (other bytes value)
      · exact aims

theorem Built.poolStart_eq (built : Built lanes calls s) :
    s.assembly.poolStart = poolStart lanes calls := by
  rw [Assembly.poolStart, Assembly.entrySize, built.patched.size, built.noted.lanes, poolStart]

theorem Built.pool_eq (built : Built lanes calls s) : s.assembly.pool = pool lanes calls := by
  rw [Assembly.pool, built.noted.listed, built.noted.lanes, pool]

theorem Built.entrySize_eq (built : Built lanes calls s) : s.assembly.entrySize = 8 * lanes := by
  rw [Assembly.entrySize, built.noted.lanes]

theorem Built.padded (built : Built lanes calls s) :
    Patched s.assembly.padded (lengthened lanes calls) (Aims calls) := by
  rw [lengthened, ← built.poolStart_eq, ← built.patched.size]
  exact built.patched.append _

theorem text_le_lengthened (lanes : Nat) (calls : List Call) :
    (text calls).length ≤ (lengthened lanes calls).length := by
  rw [lengthened, List.length_append]
  exact Nat.le_add_right _ _

theorem Built.used (built : Built lanes calls s) (proper : Proper calls) {u : Nat × Nat}
    (member : u ∈ s.assembly.uses.toList) :
    ∃ n bytes value, calls[n]? = some (.constant bytes value) ∧
      u = (field calls n, (constants calls).idxOf value) ∧
      field calls n + 4 ≤ (text calls).length := by
  obtain ⟨n, bytes, value, here, same⟩ := built.noted.uses u (Array.mem_toList_iff.mp member)
  exact ⟨n, bytes, value, here, same, proper.field_inside ⟨_, here, rfl⟩⟩

theorem Built.links (built : Built lanes calls s) (proper : Proper calls)
    (near : ∀ value ∈ constants calls, entryStart lanes calls value < reach) :
    ∃ after, s.assembly.uses.toList.foldlM s.assembly.linkUse s.assembly.padded = .ok after := by
  refine Assembly.linkUses_near fun u member => ?_
  obtain ⟨n, bytes, value, here, rfl, inside⟩ := built.used proper member
  have reached := near value (mem_constants.mpr ⟨bytes, List.mem_of_getElem? here⟩)
  rw [entryStart] at reached
  rw [built.poolStart_eq, built.entrySize_eq]
  exact ⟨Nat.lt_of_le_of_lt inside proper.size, reached⟩

theorem Built.linked (built : Built lanes calls s) (proper : Proper calls) {after : Array UInt8}
    (done : s.assembly.uses.toList.foldlM s.assembly.linkUse s.assembly.padded = .ok after) :
    Patched after (lengthened lanes calls)
      fun f t => ∃ n, field calls n = f ∧ target? lanes calls n = some t := by
  have padded := built.padded
  have longer := text_le_lengthened lanes calls
  obtain ⟨same, outside, fields⟩ := Assembly.linkUses_ok s.assembly
    (fun u member => by
      obtain ⟨n, bytes, value, here, rfl, inside⟩ := built.used proper member
      exact padded.size ▸ Nat.le_trans inside longer)
    built.noted.formed.apart done
  refine ⟨same.trans padded.size, fun i out => ?_, ?_, ?_⟩
  · rw [outside i fun u member => ?_]
    · refine padded.plain i ?_
      rintro f t ⟨n, known, aims⟩
      exact out f t ⟨n, known, target?_eq_some.mpr (.inr aims)⟩
    · obtain ⟨n, bytes, value, here, rfl, inside⟩ := built.used proper member
      exact out _ _ ⟨n, rfl, target?_eq_some.mpr (.inl ⟨bytes, value, here, rfl⟩)⟩
  · rintro f t ⟨n, rfl, aims⟩
    exact Nat.le_trans (proper.field_inside (target?_hasField aims)) longer
  · rintro f t ⟨n, rfl, aims⟩
    rcases target?_eq_some.mp aims with ⟨bytes, value, here, rfl⟩ | aims
    · have leads := fields _ (Array.mem_toList_iff.mpr (built.noted.noted n bytes value here))
      rwa [built.poolStart_eq, built.entrySize_eq] at leads
    · refine (padded.leads _ _ ⟨n, rfl, aims⟩).of_same fun j small => outside _ fun u member => ?_
      obtain ⟨m, bytes, value, here, rfl, inside⟩ := built.used proper member
      have has : HasField calls m := ⟨_, here, rfl⟩
      dsimp only
      -- A call that uses a constant is no jump, so that the fields are two.
      rcases proper.aims_apart has ⟨n, rfl, aims⟩ with equal | before | behind
      · obtain rfl := proper.field_unique (jumpTarget?_hasField aims) has equal
        rw [jumpTarget?, here] at aims
        cases aims
      · omega
      · omega

theorem finish_built (built : Built lanes calls s) (proper : Proper calls)
    (near : ∀ value ∈ constants calls, entryStart lanes calls value < reach) :
    ∃ image, s.assembly.finish = .ok image ∧ Patched image (blank lanes calls)
      fun f t => ∃ n, field calls n = f ∧ target? lanes calls n = some t := by
  obtain ⟨after, done⟩ := built.links proper near
  refine ⟨after ++ s.assembly.pool, by rw [Assembly.finish, done]; rfl, ?_⟩
  rw [built.pool_eq]
  exact (built.linked proper done).append _

theorem poolStart_least (present : 0 < lanes) : (text calls).length ≤ poolStart lanes calls ∧
    8 * lanes ∣ poolStart lanes calls ∧
    ∀ place, 8 * lanes ∣ place → (text calls).length ≤ place → poolStart lanes calls ≤ place := by
  have positive : 0 < 8 * lanes := Nat.mul_pos (by decide) present
  unfold poolStart
  refine ⟨?_, Nat.dvd_mul_left _ _, ?_⟩
  · have rounded := Nat.lt_div_mul_add positive (a := (text calls).length + 8 * lanes - 1)
    omega
  · rintro _ ⟨k, rfl⟩ inside
    have few : ((text calls).length + 8 * lanes - 1) / (8 * lanes) < k + 1 := by
      rw [Nat.div_lt_iff_lt_mul positive, Nat.add_mul, Nat.one_mul, Nat.mul_comm k]
      omega
    rw [Nat.mul_comm]
    exact Nat.mul_le_mul_left _ (Nat.le_of_lt_succ few)

theorem assemble_patched (present : 0 < lanes) (proper : Proper calls)
    (near : ∀ value ∈ constants calls, entryStart lanes calls value < reach) :
    ∃ image, assemble lanes calls = .ok image ∧ Patched image (blank lanes calls)
      fun f t => ∃ n, field calls n = f ∧ target? lanes calls n = some t := by
  obtain ⟨s, ran, built⟩ := run_built (built_empty present) proper
  obtain ⟨image, done, patched⟩ := finish_built built proper near
  exact ⟨image, by rw [assemble, ran]; exact done, patched⟩

theorem pool_entry {value : Word} (member : value ∈ constants calls) {j : Nat}
    (inside : j < 8 * lanes) :
    (pool lanes calls)[(constants calls).idxOf value * (8 * lanes) + j]? =
      (Bytes.ofWord value)[j % 8]? := by
  have known : (constants calls).toArray[(constants calls).idxOf value]? = some value := by
    have found := List.idxOf_lt_length_of_mem member
    rw [List.getElem?_toArray, List.getElem?_eq_getElem found, List.getElem_idxOf]
  have entry := Assembly.pool_bytes ⟨#[], (constants calls).toArray, #[], lanes⟩ known inside
  rwa [Assembly.entrySize, Nat.mul_comm] at entry

theorem length_lengthened (least : (text calls).length ≤ poolStart lanes calls) :
    (lengthened lanes calls).length = poolStart lanes calls := by
  rw [lengthened, List.length_append, List.length_replicate]
  omega

theorem blank_text {i : Nat} (inside : i < (text calls).length) :
    (blank lanes calls)[i]? = (text calls)[i]? := by
  rw [blank, lengthened, List.append_assoc, List.getElem?_append_left inside]

theorem blank_padding {i : Nat} (early : i < poolStart lanes calls) (late : (text calls).length ≤ i) :
    (blank lanes calls)[i]? = some Assembly.padding := by
  have length := length_lengthened (Nat.le_trans late (Nat.le_of_lt early))
  rw [blank, List.getElem?_append_left (by omega), lengthened, List.getElem?_append_right late,
    List.getElem?_replicate, if_pos (by omega)]

theorem blank_pool (least : (text calls).length ≤ poolStart lanes calls) (i : Nat) :
    (blank lanes calls)[poolStart lanes calls + i]? = (pool lanes calls)[i]? := by
  have length := length_lengthened least
  rw [blank, List.getElem?_append_right (by omega), length, Nat.add_sub_cancel_left]

end Finishing

-- Whatever the calls, the image holds what they emitted, filled up to the first place
-- for the pool, and every constant once, for each lane; each field that has a target
-- leads there, and no other byte is changed. Any number of lanes will do.
theorem calls_laid_out_and_linked {lanes : Nat} {calls : List Call} (present : 0 < lanes)
    (proper : Proper calls)
    (near : ∀ value ∈ constants calls, entryStart lanes calls value < reach) :
    ∃ image, assemble lanes calls = .ok image ∧
      (∀ i < (text calls).length,
        (∀ n t, target? lanes calls n = some t → i < field calls n ∨ field calls n + 4 ≤ i) →
          image[i]? = (text calls)[i]?) ∧
      (text calls).length ≤ poolStart lanes calls ∧ 8 * lanes ∣ poolStart lanes calls ∧
      (∀ place, 8 * lanes ∣ place → (text calls).length ≤ place →
        poolStart lanes calls ≤ place) ∧
      (∀ i < poolStart lanes calls, (text calls).length ≤ i → image[i]? = some 0xcc) ∧
      image.toList.drop (poolStart lanes calls) = pool lanes calls ∧ (constants calls).Nodup ∧
      (∀ value, value ∈ constants calls ↔ ∃ bytes, .constant bytes value ∈ calls) ∧
      (∀ n t, target? lanes calls n = some t → Leads image (field calls n) t) ∧
      ∀ value ∈ constants calls, 8 * lanes ∣ entryStart lanes calls value ∧
        ∀ j < 8 * lanes,
          image[entryStart lanes calls value + j]? = (Bytes.ofWord value)[j % 8]? := by
  obtain ⟨image, done, patched⟩ := assemble_patched present proper near
  obtain ⟨least, aligned, first⟩ := @poolStart_least lanes calls present
  have beyond {i : Nat} (late : (text calls).length ≤ i) : image[i]? = (blank lanes calls)[i]? := by
    refine patched.plain i ?_
    rintro _ t ⟨n, rfl, aims⟩
    exact .inr (Nat.le_trans (proper.field_inside (target?_hasField aims)) late)
  have pooled (i : Nat) : image[poolStart lanes calls + i]? = (pool lanes calls)[i]? :=
    (beyond (Nat.le_add_right_of_le least)).trans (blank_pool least i)
  refine ⟨image, done, fun i inside out => ?_, least, aligned, first, fun i early late => ?_, ?_,
    nodup_constants calls, fun value => mem_constants, fun n t aims => patched.leads _ t ⟨n, rfl, aims⟩,
    fun value member => ⟨?_, fun j small => ?_⟩⟩
  · rw [← blank_text inside]
    refine patched.plain i ?_
    rintro _ t ⟨n, rfl, aims⟩
    exact out n t aims
  · exact (beyond late).trans (blank_padding early late)
  · apply List.ext_getElem?
    intro i
    rw [List.getElem?_drop, Array.getElem?_toList, pooled]
  · exact Nat.dvd_add aligned (Nat.dvd_mul_left _ _)
  · rw [entryStart, Nat.add_assoc, pooled, pool_entry member small]

def crossing : List Call :=
  [.plain [0x90, 0x90], .forward [0x0f, 0x84, 0, 0, 0, 0], .constant [0x8b, 0, 0, 0, 0] 7,
    .forward [0xe9, 1, 2, 3, 4], .bind 0, .constant [0x8b, 0, 0, 0, 0] 9,
    .constant [0x8b, 0, 0, 0, 0] 7, .bind 0, .jumpTo [0xe9, 0, 0, 0, 0] 1]

theorem crossing_laid_out_and_linked :
    (List.range 9).map (target? 2 crossing) =
        [none, some 28, some 48, none, none, some 64, some 48, none, some 1] ∧
      ∃ image, assemble 2 crossing = .ok image ∧
        (∀ i < 18, 14 ≤ i → image[i]? = (text crossing)[i]?) ∧
        (∀ i < 48, 33 ≤ i → image[i]? = some 0xcc) ∧ image.toList.drop 48 = pool 2 crossing ∧
        Leads image 4 28 ∧ Leads image 9 48 ∧ Leads image 19 64 ∧ Leads image 29 1 := by
  refine ⟨by decide +kernel, ?_⟩
  have proper : Proper crossing := by
    refine ⟨by decide +kernel, by decide +kernel, fun bytes target member => ?_⟩
    simp only [crossing, List.mem_cons, List.not_mem_nil, reduceCtorEq, Call.jumpTo.injEq,
      false_or, or_false] at member
    obtain ⟨_, rfl⟩ := member
    decide
  have used : constants crossing = [7, 9] := by decide +kernel
  have near : ∀ value ∈ constants crossing, entryStart 2 crossing value < reach := by
    intro value member
    rw [used, List.mem_cons, List.mem_singleton] at member
    rcases member with rfl | rfl <;> decide +kernel
  obtain ⟨image, done, plain, _, _, _, padding, pooled, _, _, leads, _⟩ :=
    calls_laid_out_and_linked (by decide) proper near
  have fields : ∀ n < crossing.length, target? 2 crossing n = none ∨ 18 ≤ field crossing n ∨
      field crossing n + 4 ≤ 14 := by decide +kernel
  refine ⟨image, done, fun i early late => plain i ?_ fun n t aims => ?_, padding, pooled,
    leads 1 28 (by decide +kernel), leads 2 48 (by decide +kernel), leads 5 64 (by decide +kernel),
    leads 8 1 (by decide +kernel)⟩
  · exact Nat.lt_of_lt_of_le early (by decide +kernel)
  · rcases fields n (target?_hasField aims).lt with none | after | before
    · rw [none] at aims
      cases aims
    · exact .inl (Nat.lt_of_lt_of_le early after)
    · exact .inr (Nat.le_trans before late)

end ProgramHash.Machine.Script
