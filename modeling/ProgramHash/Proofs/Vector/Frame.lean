import ProgramHash.Proofs.Vector.Branching

namespace ProgramHash.VectorCode

open Machine

def load (r : Register) : Operation := .loadLanes (home r) file (fileOffset r)

def store (r : Register) : Operation := .storeLanes file (fileOffset r) (home r)

def prologuePieces : List Piece :=
  Register.all.map (fun r => .plain (load r)) ++
    [.plain (plain .xor product product product),
     .constant (.moveLanes lowerHalves (.pool 0) none) 0xffffffff,
     .plain (.maskXnor mayBranch mayBranch mayBranch)]

def epiloguePieces : List Piece := Register.all.map (fun r => .plain (store r)) ++ [.plain .zeroUpper]

theorem prologue_pieces (a : Assembly) : prologue a = a.putAll prologuePieces := by
  have loaded : a.emitAll (Register.all.map load) =
      a.putAll (Register.all.map fun r => .plain (load r)) := by
    rw [Assembly.emitAll_pieces, List.map_map]
    rfl
  rw [prologuePieces, Assembly.putAll_append, ← loaded]
  change (((a.emitAll (Register.all.map load)).emitAll _).emitWithConstant _ _).emitAll _ = _
  generalize a.emitAll (Register.all.map load) = b
  rfl

theorem emit_epilogue (a : Assembly) :
    a.emitAll epilogue = (a.putAll epiloguePieces).emit Operation.ret.encode := by
  rw [Assembly.emitAll_pieces, epilogue, epiloguePieces, List.map_append, List.map_map,
    Assembly.putAll_append, Assembly.putAll_append]
  rfl

theorem prologuePieces_fit : ∀ piece ∈ prologuePieces, piece.Fits := by
  intro piece member
  rcases List.mem_append.mp member with loaded | rest
  · obtain ⟨r, _, rfl⟩ := List.mem_map.mp loaded
    exact ⟨show low file.val ≠ indexedOperand by decide, nofun, .inr rfl⟩
  · simp only [List.mem_cons, List.not_mem_nil, or_false] at rest
    rcases rest with rfl | rfl | rfl
    · exact operation_fits _ (.inl rfl)
    · exact ⟨⟨trivial, nofun⟩, rfl, _, rfl⟩
    · exact ⟨trivial, nofun, .inr rfl⟩

theorem epiloguePieces_fit : ∀ piece ∈ epiloguePieces, piece.Fits := by
  intro piece member
  rcases List.mem_append.mp member with stored | last
  · obtain ⟨r, _, rfl⟩ := List.mem_map.mp stored
    exact ⟨show low file.val ≠ indexedOperand by decide, nofun, .inr rfl⟩
  · rw [List.mem_singleton.mp last]
    exact ⟨trivial, nofun, .inr rfl⟩

section Memory

variable {image : Array UInt8} {pool : Nat} {p : Processor}

theorem place_register (argument : p.gprs[file] = p.base) (size : p.memory.size = 64) (r : Register) :
    p.place? (p.address file (fileOffset r).toInt) = some (8 * r.val) := by
  have offset : ∀ r : Register, (UInt64.ofInt (fileOffset r).toInt).toNat = 64 * r.val := by decide
  unfold Processor.place? Processor.address
  rw [argument, UInt64.add_comm, UInt64.add_sub_cancel]
  simp only [offset]
  rw [if_pos (by omega)]
  congr 1
  omega

def row (p : Processor) (r : Register) : Lanes := .ofFn fun i => p.memory.getD (8 * r.val + i.val) 0

theorem memoryLanes_row (argument : p.gprs[file] = p.base) (size : p.memory.size = 64) (r : Register) :
    p.memoryLanes? (p.address file (fileOffset r).toInt) = some (row p r) := by
  have room : 8 * r.val + 8 ≤ p.memory.size := by omega
  unfold Processor.memoryLanes?
  rw [place_register argument size]
  simp only [Option.bind_eq_bind, Option.bind_some]
  rw [if_pos room]
  rfl

theorem loads_do (l : List Register) (argument : p.gprs[file] = p.base) (size : p.memory.size = 64) :
    ∃ q, DoAll image pool 8 (l.map fun r => .plain (load r)) p q ∧ Still p q ∧
      (∀ r ∈ l, ∀ i, lane q i (home r) = (row p r)[i]) ∧
      ∀ i z, (∀ r ∈ l, z ≠ home r) → lane q i z = lane p i z := by
  induction l generalizing p with
  | nil => exact ⟨p, rfl, .refl p, nofun, fun _ _ _ => rfl⟩
  | cons r l ih =>
      let m := (p.passing (load r)).mergeLanes (home r) none (row p r)
      have does : Processor.execute image (p.passing (load r)) (load r) = .ok m := by
        change (do
          let v ← Processor.trap .badAddress
            ((p.passing (load r)).memoryLanes? ((p.passing (load r)).address file (fileOffset r).toInt))
          return (p.passing (load r)).mergeLanes (home r) none v) = _
        rw [@memoryLanes_row (p.passing (load r)) argument size r]
        rfl
      have value (i : Fin 8) (z : Zmm) : lane m i z = if z = home r then (row p r)[i] else lane p i z := by
        rw [merge_lane (.inl rfl)]
        simp only [assign, Option.isNone_none, Bool.true_or, and_true]
        rfl
      obtain ⟨q, all, still, loaded, others⟩ := @ih m argument size
      have first : Still p m := ⟨⟨rfl, rfl, rfl, rfl⟩, rfl⟩
      refine ⟨q, ⟨m, does, rfl, all⟩, first.trans still, ?_, ?_⟩
      · intro s member i
        by_cases later : s ∈ l
        · exact loaded s later i
        · have same : s = r := by
            rcases List.mem_cons.mp member with same | inside
            · exact same
            · exact absurd inside later
          subst same
          rw [others i (home s) (fun t inside equal => later (home_injective equal ▸ inside)), value,
            if_pos rfl]
      · intro i z apart
        rw [others i z (fun s member => apart s (List.mem_cons_of_mem _ member)), value,
          if_neg (apart r List.mem_cons_self)]

theorem writeLanes_spec {memory : Array Word} {start : Nat} (room : start + 8 ≤ memory.size)
    (v : Lanes) : (Processor.writeLanes memory start v).size = memory.size ∧
      (∀ i : Fin 8, (Processor.writeLanes memory start v)[start + i.val]? = some v[i]) ∧
      ∀ j, j < start ∨ start + 8 ≤ j → (Processor.writeLanes memory start v)[j]? = memory[j]? := by
  have folded (l : List (Fin 8)) (m : Array Word) (same : m.size = memory.size) :
      let stored := l.foldl (fun m i => m.setIfInBounds (start + i.val) v[i]) m
      stored.size = memory.size ∧
        (∀ i : Fin 8, stored[start + i.val]? = if i ∈ l then some v[i] else m[start + i.val]?) ∧
        ∀ j, j < start ∨ start + 8 ≤ j → stored[j]? = m[j]? := by
    induction l generalizing m with
    | nil => simp [same]
    | cons k l ih =>
        obtain ⟨size, inside, outside⟩ := ih (m.setIfInBounds (start + k.val) v[k])
          (by rw [Array.size_setIfInBounds, same])
        refine ⟨size, ?_, ?_⟩
        · intro i
          rw [List.foldl_cons, inside i, Array.getElem?_setIfInBounds]
          by_cases later : i ∈ l
          · simp [later]
          · by_cases same : i = k
            · subst same
              have here : start + i.val < m.size := by omega
              simp [later, here]
            · have apart : k.val ≠ i.val := by
                intro equal
                exact same (Fin.ext equal.symm)
              simp [later, same, apart]
        · intro j beyond
          rw [List.foldl_cons, outside j beyond, Array.getElem?_setIfInBounds, if_neg (by omega)]
  obtain ⟨size, inside, outside⟩ := folded (List.finRange 8) memory rfl
  refine ⟨size, ?_, outside⟩
  intro i
  rw [Processor.writeLanes, inside i, if_pos (List.mem_finRange i)]

theorem stores_do (l : List Register) (argument : p.gprs[file] = p.base) (size : p.memory.size = 64) :
    ∃ q, DoAll image pool 8 (l.map fun r => .plain (store r)) p q ∧ q.gprs = p.gprs ∧
      q.base = p.base ∧ q.stack = p.stack ∧ q.memory.size = 64 ∧
      ∀ (r : Register) (i : Fin 8),
        (r ∈ l ∧ q.memory[8 * r.val + i.val]? = some (lane p i (home r))) ∨
          (r ∉ l ∧ q.memory[8 * r.val + i.val]? = p.memory[8 * r.val + i.val]?) := by
  induction l generalizing p with
  | nil => exact ⟨p, rfl, rfl, rfl, rfl, size, by simp⟩
  | cons r l ih =>
      have room : 8 * r.val + 8 ≤ p.memory.size := by omega
      obtain ⟨same, inside, outside⟩ := writeLanes_spec room p.zmms[home r]
      generalize becomes : Processor.writeLanes p.memory (8 * r.val) p.zmms[home r] = memory
        at same inside outside
      let m := { p.passing (store r) with memory }
      have does : Processor.execute image (p.passing (store r)) (store r) = .ok m := by
        change (do
          let start ← Processor.trap .badAddress
            ((p.passing (store r)).place? ((p.passing (store r)).address file (fileOffset r).toInt))
          if start + 8 ≤ p.memory.size then
            return { p.passing (store r) with
              memory := Processor.writeLanes p.memory start p.zmms[home r] }
          else .error .badAddress) = _
        rw [@place_register (p.passing (store r)) argument size r]
        simp only [Processor.trap, bind, Except.bind]
        rw [if_pos room, becomes]
        rfl
      obtain ⟨q, all, gprs, base, stack, size', stored⟩ := @ih m argument (same.trans size)
      refine ⟨q, ⟨m, does, rfl, all⟩, gprs, base, stack, size', ?_⟩
      intro s i
      rcases stored s i with ⟨later, held⟩ | ⟨missing, held⟩
      · exact .inl ⟨List.mem_cons_of_mem _ later, held⟩
      · by_cases here : s = r
        · subst here
          exact .inl ⟨List.mem_cons_self, held.trans (inside i)⟩
        · have apart : s.val ≠ r.val := by
            intro equal
            exact here (Fin.ext equal)
          exact .inr ⟨by simp [here, missing], held.trans (outside _ (by omega))⟩

end Memory

-- What the surroundings find again: new rows in their memory, and all general
-- registers as they were.
structure Restored (values : LaneFile) (entry q : Processor) : Prop where
  memory : q.memory = values.toArray
  stack : q.stack = []
  gprs : q.gprs = entry.gprs

theorem lane_word (values : LaneFile) (l : Fin 8) (r : Register) :
    values.toArray[8 * r.val + l.val]? = some (values.lane l)[r] := by
  have inside : 8 * r.val + l.val < 64 := by omega
  simp [LaneFile.lane, LaneFile.place, inside]

section Frame

variable {image : Array UInt8} {pool : Nat} {p entry : Processor}

-- Entries stand at multiples of their size, as this move wants its operand.
theorem constant_moved (p : Processor) (dst : Zmm) (value : Word) :
    ∃ q, (Piece.constant (.moveLanes dst (.pool 0) none) value).Does image pool 8 p q ∧
      q.position = p.position + (Operation.moveLanes dst (.pool 0) none).encode.length ∧
      Still p q ∧ ∀ l z, lane q l z = if z = dst then value else lane p l z := by
  let m := p.passing (.moveLanes dst (.pool 0) none)
  refine ⟨m.mergeLanes dst none (.filled value), ?_, rfl, ⟨⟨rfl, rfl, rfl, rfl⟩, rfl⟩, ?_⟩
  · intro d start reaches entry
    have there : (m.position : Int) + d.toInt = start := reaches
    have read : Processor.imageLanes? image (m.position + d.toInt) = some (.filled value) := by
      rw [there, Processor.entry_lanes entry]
    have aligned : m.aligned m.position (.pool d) = true := by
      have multiple := entry.aligned
      simp only [Processor.aligned, there, decide_eq_true_eq]
      omega
    change (if m.aligned m.position (.pool d) = true then do
      let v ← Processor.trap .badAddress (Processor.imageLanes? image (m.position + d.toInt))
      return m.mergeLanes dst none v else .error .badAddress) = _
    rw [if_pos aligned, read]
    rfl
  · intro l z
    rw [merge_lane (.inl rfl)]
    simp only [assign, Option.isNone_none, Bool.true_or, and_true, Bank.read_filled]
    rfl

theorem prologue_does {values : LaneFile} (entered : Entered values p) :
    ∃ q, DoAll image pool 8 prologuePieces p q ∧
      Mirrors p (fun _ => true) (fun l => ⟨values.lane l, 0⟩) q := by
  have size : p.memory.size = 64 := by rw [entered.memory]; simp
  obtain ⟨m, loads, still, loaded, _⟩ := @loads_do image pool p Register.all entered.argument size
  obtain ⟨n, clears, still', cleared⟩ := @operations_do image pool m
    [plain .xor product product product] (by simp [BetweenUnder, plain])
  obtain ⟨o, selects, moved, still'', selected⟩ := @constant_moved image pool n lowerHalves 0xffffffff
  let bits := ~~~(o.masks[mayBranch] ^^^ o.masks[mayBranch])
  let q := { o.passing (.maskXnor mayBranch mayBranch mayBranch) with
    masks := o.masks.set mayBranch bits }
  have whole := (still.trans still').trans still''
  have value (l : Fin 8) (z : Zmm) : lane q l z =
      if z = lowerHalves then 0xffffffff else if z = product then 0 else lane m l z := by
    change lane o l z = _
    rw [selected, cleared]
    simp only [allOnLane, List.foldl_cons, List.foldl_nil, onLane_plain, LaneOp.apply, UInt64.xor_self]
  refine ⟨q, loads.append (clears.append ⟨o, selects, moved, q, rfl, rfl, rfl⟩),
    ⟨whole.gprs, whole.memory, whole.base, whole.stack⟩, ?_, ?_⟩
  · intro l
    refine ⟨?_, ?_, ?_⟩
    · intro r
      obtain ⟨_, notProduct, notHalves⟩ := home_not_scratch r
      rw [value, if_neg notHalves, if_neg notProduct, loaded r (List.mem_finRange r)]
      have word := lane_word values l r
      simp only [row, entered.memory, Bank.read_ofFn, Array.getD_eq_getD_getElem?]
      rw [word]
      rfl
    · rw [value, if_neg (by decide), if_pos rfl]
      rfl
    · rw [value, if_pos rfl]
  · intro l
    change maskBit (o.masks.set mayBranch bits)[mayBranch] l = _
    rw [Bank.read_set, if_pos rfl, maskBit_not, UInt16.xor_self]
    exact congrArg not (Nat.zero_testBit _)

theorem epilogue_does {values : LaneFile} {may : Fin 8 → Bool} {v : Fin 8 → Values}
    (entered : Entered values entry) (mirrors : Mirrors entry may v p) :
    ∃ q result, DoAll image pool 8 epiloguePieces p q ∧ Restored result entry q ∧
      ∀ l, result.lane l = (v l).file := by
  have size : p.memory.size = 64 := by rw [mirrors.keeps.memory, entered.memory]; simp
  have argument : p.gprs[file] = p.base := by
    rw [mirrors.keeps.gprs, mirrors.keeps.base]
    exact entered.argument
  obtain ⟨m, stores, gprs, base, stack, size', stored⟩ := @stores_do image pool p Register.all argument size
  let q := (m.passing .zeroUpper).clearUpper
  let result : LaneFile := ⟨m.memory, size'⟩
  refine ⟨q, result, stores.append ⟨q, rfl, rfl, rfl⟩, ⟨rfl, ?_, ?_⟩, ?_⟩
  · exact stack.trans (mirrors.keeps.stack.trans entered.stack)
  · exact gprs.trans mirrors.keeps.gprs
  · intro l
    apply Bank.ext
    intro r
    rcases stored r l with ⟨_, here⟩ | ⟨missing, _⟩
    · rw [(mirrors.lanes l).file] at here
      have word := lane_word result l r
      rw [show result.toArray = m.memory from rfl, here, Option.some.injEq] at word
      exact word.symm
    · exact absurd (List.mem_finRange r) missing

end Frame

end ProgramHash.VectorCode
