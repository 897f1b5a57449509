import ProgramHash.Proofs.Machine.Running

namespace ProgramHash.Machine.Assembly

-- An assembly put together from few pieces. Each adds eleven bytes at most, and
-- a constant at most.
structure Small (m : Nat) (a : Assembly) : Prop where
  code : a.offset ≤ 11 * m
  constants : a.constants.size ≤ m

theorem small_empty (lanes : Nat) : Small 0 (empty lanes) := ⟨Nat.le_refl _, Nat.le_refl _⟩

variable {a : Assembly} {m : Nat}

theorem Small.more (small : Small m a) {n : Nat} (fewer : m ≤ n) : Small n a :=
  ⟨Nat.le_trans small.code (by omega), Nat.le_trans small.constants fewer⟩

theorem indexOf_size (constants : Array Word) (value : Word) :
    (indexOf constants value).1.size ≤ constants.size + 1 := by
  unfold indexOf
  split
  · exact Nat.le_succ _
  · simp

theorem Small.emit (small : Small m a) (op : Operation) : Small (m + 1) (a.emit op.encode) := by
  have one := (encode_length op).2
  have code := small.code
  have constants := small.constants
  refine ⟨?_, Nat.le_trans constants (Nat.le_succ _)⟩
  rw [emit_offset]
  omega

theorem Small.put (small : Small m a) (piece : Piece) : Small (m + 1) (a.put piece) := by
  cases piece with
  | plain op => exact small.emit op
  | constant op value =>
      refine ⟨(small.emit op).code, ?_⟩
      have one := indexOf_size a.constants value
      have constants := small.constants
      change (indexOf a.constants value).1.size ≤ _
      omega

theorem Small.putAll (small : Small m a) (pieces : List Piece) :
    Small (m + pieces.length) (a.putAll pieces) := by
  induction pieces generalizing a m with
  | nil => exact small
  | cons piece pieces ih =>
      have rest := ih (small.put piece)
      rw [Nat.add_assoc, Nat.add_comm 1] at rest
      exact rest

section Near

variable {code : Array UInt8}

theorem link_near {field target : Nat} (near : field + 4 < reach ∧ target < reach) :
    ∃ linked, link code field target = .ok linked := by
  obtain ⟨d, measured⟩ := distance_near near
  exact ⟨_, by rw [link, measured]; rfl⟩

theorem bindTo_near {field target : Nat} (near : field + 4 < reach ∧ target < reach) :
    ∃ b, a.bindTo field target = .ok b := by
  obtain ⟨linked, done⟩ := @link_near a.code field target near
  exact ⟨_, by rw [bindTo, done]; rfl⟩

theorem linkUses_near {uses : List (Nat × Nat)}
    (near : ∀ u ∈ uses, u.1 + 4 < reach ∧ a.poolStart + u.2 * a.entrySize < reach) :
    ∃ after, uses.foldlM a.linkUse code = .ok after := by
  induction uses generalizing code with
  | nil => exact ⟨code, rfl⟩
  | cons u uses ih =>
      obtain ⟨linked, first⟩ := @link_near code _ _ (near u List.mem_cons_self)
      obtain ⟨after, rest⟩ := @ih linked fun v member => near v (List.mem_cons_of_mem _ member)
      refine ⟨after, ?_⟩
      rw [List.foldlM_cons, linkUse, first]
      exact rest

theorem pool_length (a : Assembly) : a.pool.length = a.constants.size * a.entrySize := by
  unfold pool entrySize
  simp only [List.length_flatMap, copies_length, List.map_const', List.sum_replicate_nat,
    Array.length_toList]

theorem Small.whole (small : Small m a) :
    a.poolStart + a.constants.size * a.entrySize ≤ (11 + 8 * a.lanes) * (m + 1) := by
  have code := small.code
  have entries := Nat.mul_le_mul_right (8 * a.lanes) small.constants
  have start : a.poolStart ≤ a.code.size + 8 * a.lanes :=
    Nat.le_trans (Nat.div_mul_le_self _ _) (by unfold entrySize; omega)
  have sum : (11 + 8 * a.lanes) * (m + 1) = 11 * m + m * (8 * a.lanes) + 11 + 8 * a.lanes := by
    rw [Nat.add_mul, Nat.mul_succ, Nat.mul_succ, Nat.mul_comm (8 * a.lanes) m]
    omega
  simp only [offset] at code
  simp only [entrySize]
  omega

theorem finish_near (formed : a.WellFormed) (small : Small m a)
    (near : (11 + 8 * a.lanes) * (m + 1) < reach) : ∃ image, a.finish = .ok image := by
  have whole := small.whole
  have start := (poolStart_spec formed).1
  obtain ⟨linked, done⟩ := @linkUses_near a a.padded a.uses.toList fun u member => by
    obtain ⟨room, known⟩ := formed.inside u (by simpa using member)
    have before := Nat.mul_le_mul_right a.entrySize (Nat.le_of_lt known)
    omega
  exact ⟨_, by rw [finish, done]; rfl⟩

theorem finish_size {image : Array UInt8} (formed : a.WellFormed) (done : a.finish = .ok image) :
    image.size = a.poolStart + a.constants.size * a.entrySize := by
  obtain ⟨filled, linked, rfl⟩ := finish_ok done
  have room := padded_size formed
  have inside : ∀ u ∈ a.uses.toList, u.1 + 4 ≤ a.padded.size := by
    intro u member
    have field := (formed.inside u (by simpa using member)).1
    have start := (poolStart_spec formed).1
    omega
  have size := (linkUses_ok a inside formed.apart linked).1
  rw [Array.size_append, size, room, List.size_toArray, pool_length]

end Near

end ProgramHash.Machine.Assembly
