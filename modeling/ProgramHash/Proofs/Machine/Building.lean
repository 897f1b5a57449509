import ProgramHash.Proofs.Machine.Script

-- What a script has built so far: its text with the fields that have been filled, the
-- constants with the fields that await them, and the fields of the numbered jumps. Each
-- call keeps the three, and none of them can fail within reach.
namespace ProgramHash.Machine.Script

open Assembly (reach)

section Patching

def Leads (code : Array UInt8) (field target : Nat) : Prop :=
  ∃ d : Int32, ((field + 4 : Nat) : Int) + d.toInt = target ∧
    ∀ j < 4, code[field + j]? = (bytesOfInt32 d)[j]?

-- Bytes as they were emitted, but for some fields that lead to their targets.
structure Patched (code : Array UInt8) (text : List UInt8) (aims : Nat → Nat → Prop) : Prop where
  size : code.size = text.length
  plain : ∀ i, (∀ f t, aims f t → i < f ∨ f + 4 ≤ i) → code[i]? = text[i]?
  inside : ∀ f t, aims f t → f + 4 ≤ text.length
  leads : ∀ f t, aims f t → Leads code f t

variable {code : Array UInt8} {text : List UInt8} {aims aims' : Nat → Nat → Prop} {f t : Nat}

theorem Patched.congr (patched : Patched code text aims) (same : ∀ f t, aims' f t ↔ aims f t) :
    Patched code text aims' where
  size := patched.size
  plain := fun i outside => patched.plain i fun f t aim => outside f t ((same f t).mpr aim)
  inside := fun f t aim => patched.inside f t ((same f t).mp aim)
  leads := fun f t aim => patched.leads f t ((same f t).mp aim)

theorem Leads.of_same {code' : Array UInt8} (leads : Leads code f t)
    (same : ∀ j < 4, code'[f + j]? = code[f + j]?) : Leads code' f t := by
  obtain ⟨d, reaches, bytes⟩ := leads
  exact ⟨d, reaches, fun j small => (same j small).trans (bytes j small)⟩

theorem Patched.append (patched : Patched code text aims) (more : List UInt8) :
    Patched (code ++ more) (text ++ more) aims := by
  have size := patched.size
  rw [Assembly.append_list]
  refine ⟨by simp [size], fun i outside => ?_, fun f t aim => ?_, fun f t aim => ?_⟩
  · by_cases before : i < code.size
    · rw [Array.getElem?_append_left before, List.getElem?_append_left (size ▸ before)]
      exact patched.plain i outside
    · have after := Nat.le_of_not_lt before
      rw [Array.getElem?_append_right after, List.getElem?_append_right (size ▸ after), size,
        List.getElem?_toArray]
  · rw [List.length_append]
    exact Nat.le_add_right_of_le (patched.inside f t aim)
  · have room := patched.inside f t aim
    refine (patched.leads f t aim).of_same fun j small => ?_
    rw [Array.getElem?_append_left (by omega)]

theorem Patched.fill {a : Assembly} (patched : Patched a.code text aims) (room : f + 4 ≤ text.length)
    (near : f + 4 < reach ∧ t < reach) (apart : ∀ g u, aims g u → g = f ∨ g + 4 ≤ f ∨ f + 4 ≤ g)
    (filled : ∀ g u, aims' g u ↔ if g = f then u = t else aims g u) :
    ∃ linked, a.bindTo f t = .ok { a with code := linked } ∧ Patched linked text aims' := by
  obtain ⟨linked, done⟩ := @Assembly.link_near a.code f t near
  obtain ⟨d, rfl, reaches⟩ := Assembly.link_ok done
  have four := bytesOfInt32_length d
  have size := patched.size
  refine ⟨_, by rw [Assembly.bindTo, done]; rfl, by rw [Assembly.write_size, size], fun i outside => ?_, fun g u aim => ?_,
    fun g u aim => ?_⟩
  · have here := outside f t ((filled f t).mpr (by simp))
    rw [Assembly.write_outside (by omega)]
    refine patched.plain i fun g u aim => ?_
    by_cases same : g = f
    · rw [same]
      exact here
    · exact outside g u ((filled g u).mpr (by rwa [if_neg same]))
  · rw [filled] at aim
    split at aim
    · omega
    · exact patched.inside g u aim
  · rw [filled] at aim
    split at aim
    · subst g u
      exact ⟨d, reaches, fun j small => Assembly.write_inside (by omega) (by omega)⟩
    · have away := apart g u aim
      refine (patched.leads g u aim).of_same fun j small => ?_
      rw [Assembly.write_outside (by omega)]

end Patching

section Building

variable {lanes : Nat} {calls : List Call} {c : Call}

theorem constants_snoc_none (none : c.value? = none) : constants (calls ++ [c]) = constants calls := by
  simp [constants, none]

theorem constants_snoc_some {value : Word} (used : c.value? = some value) :
    constants (calls ++ [c]) =
      constants calls ++ if value ∈ constants calls then [] else [value] := by
  simp only [constants, List.filterMap_append, List.filterMap_cons, used, List.filterMap_nil,
    List.eraseDups_append, List.mem_eraseDups]
  congr 1
  split <;> simp_all [List.removeAll, List.eraseDups_cons]

theorem nodup_constants (calls : List Call) : (constants calls).Nodup := nodup_eraseDups _

theorem mem_constants {value : Word} :
    value ∈ constants calls ↔ ∃ bytes, .constant bytes value ∈ calls := by
  rw [constants, List.mem_eraseDups, List.mem_filterMap]
  constructor
  · rintro ⟨c, member, used⟩
    cases c <;> cases used
    exact ⟨_, member⟩
  · rintro ⟨bytes, member⟩
    exact ⟨_, member, rfl⟩

theorem idxOf_snoc (c : Call) {value : Word} (member : value ∈ constants calls) :
    (constants (calls ++ [c])).idxOf value = (constants calls).idxOf value := by
  cases used : c.value? with
  | none => rw [constants_snoc_none used]
  | some other => rw [constants_snoc_some used, List.idxOf_append, if_pos member]

structure Noted (lanes : Nat) (calls : List Call) (a : Assembly) : Prop where
  lanes : a.lanes = lanes
  formed : a.WellFormed
  listed : a.constants.toList = constants calls
  uses : ∀ u ∈ a.uses, ∃ n bytes value, calls[n]? = some (.constant bytes value) ∧
    u = (field calls n, (constants calls).idxOf value)
  noted : ∀ n bytes value, calls[n]? = some (.constant bytes value) →
    (field calls n, (constants calls).idxOf value) ∈ a.uses

structure Numbered (calls : List Call) (jumps : List Nat) : Prop where
  length : jumps.length = calls.countP Call.isForward
  fields : ∀ n bytes, calls[n]? = some (.forward bytes) →
    jumps[jumpNumber calls n]? = some (field calls n)

theorem use_snoc (c : Call) {n : Nat} {bytes : List UInt8} {value : Word}
    (here : calls[n]? = some (.constant bytes value)) :
    (field (calls ++ [c]) n, (constants (calls ++ [c])).idxOf value) =
      (field calls n, (constants calls).idxOf value) := by
  rw [field_snoc c (List.getElem?_eq_some_iff.mp here).1,
    idxOf_snoc c (mem_constants.mpr ⟨bytes, List.mem_of_getElem? here⟩)]

theorem Noted.snoc {a b : Assembly} (noted : Noted lanes calls a) (none : c.value? = none)
    (same : b.lanes = a.lanes ∧ b.uses = a.uses ∧ b.constants = a.constants)
    (size : a.code.size ≤ b.code.size) : Noted lanes (calls ++ [c]) b where
  lanes := same.1.trans noted.lanes
  formed := noted.formed.of_same same size
  listed := by rw [same.2.2, noted.listed, constants_snoc_none none]
  uses := fun u member => by
    rw [same.2.1] at member
    obtain ⟨n, bytes, value, here, rfl⟩ := noted.uses u member
    exact ⟨n, bytes, value, getElem?_snoc.mpr (.inl here), (use_snoc c here).symm⟩
  noted := fun n bytes value here => by
    rcases getElem?_snoc.mp here with here | ⟨_, rfl⟩
    · rw [same.2.1, use_snoc c here]
      exact noted.noted n bytes value here
    · cases none

theorem Noted.constant {a : Assembly} {bytes : List UInt8} {value : Word}
    (noted : Noted lanes calls a) (size : a.code.size = (text calls).length)
    (long : 4 ≤ bytes.length) :
    Noted lanes (calls ++ [.constant bytes value]) (a.emitWithConstant bytes value) := by
  have constants' : (Assembly.indexOf a.constants value).1.toList =
      constants (calls ++ [.constant bytes value]) := by
    rw [Assembly.indexOf_toList, noted.listed, constants_snoc_some rfl]
  have number : (Assembly.indexOf a.constants value).2 =
      (constants (calls ++ [.constant bytes value])).idxOf value := by
    have here := (Assembly.indexOf_spec a.constants value).1
    rw [← Array.getElem?_toList, constants'] at here
    obtain ⟨inside, same⟩ := List.getElem?_eq_some_iff.mp here
    have first := (nodup_constants _).idxOf_getElem _ inside
    rw [same] at first
    exact first.symm
  have last : (a.emit bytes).field = field (calls ++ [.constant bytes value]) calls.length := by
    rw [field_last, Assembly.field, Assembly.emit_code_eq]
    simp [size, Call.bytes]
  have use : (a.emitWithConstant bytes value).uses =
      a.uses.push (field (calls ++ [.constant bytes value]) calls.length,
        (constants (calls ++ [.constant bytes value])).idxOf value) := by
    rw [← last, ← number]
    rfl
  refine ⟨noted.lanes, Assembly.emitWithConstant_wellFormed noted.formed long value, constants',
    fun u member => ?_, fun n bytes' value' here => ?_⟩
  · rw [use] at member
    rcases Array.mem_push.mp member with early | rfl
    · obtain ⟨n, bytes', value', here, rfl⟩ := noted.uses u early
      exact ⟨n, bytes', value', getElem?_snoc.mpr (.inl here), (use_snoc _ here).symm⟩
    · exact ⟨calls.length, bytes, value, getElem?_snoc.mpr (.inr ⟨rfl, rfl⟩), rfl⟩
  · rw [use]
    rcases getElem?_snoc.mp here with early | ⟨rfl, same⟩
    · rw [use_snoc _ early]
      exact Array.mem_push.mpr (.inl (noted.noted n bytes' value' early))
    · cases same
      exact Array.mem_push_self

theorem Numbered.fields_snoc {jumps : List Nat} (numbered : Numbered calls jumps) (c : Call) {n : Nat}
    {bytes : List UInt8} (here : calls[n]? = some (.forward bytes)) :
    jumps[jumpNumber (calls ++ [c]) n]? = some (field (calls ++ [c]) n) := by
  have before := (List.getElem?_eq_some_iff.mp here).1
  rw [jumpNumber_snoc c (Nat.le_of_lt before), field_snoc c before]
  exact numbered.fields n bytes here

theorem Numbered.snoc {jumps : List Nat} (numbered : Numbered calls jumps)
    (other : c.isForward = false) : Numbered (calls ++ [c]) jumps where
  length := by simp [numbered.length, other]
  fields := fun n bytes here => by
    rcases getElem?_snoc.mp here with early | ⟨_, rfl⟩
    · exact numbered.fields_snoc c early
    · cases other

theorem Numbered.forward {jumps : List Nat} (numbered : Numbered calls jumps) (bytes : List UInt8) :
    Numbered (calls ++ [.forward bytes])
      (jumps ++ [field (calls ++ [.forward bytes]) calls.length]) where
  length := by simp [numbered.length, Call.isForward]
  fields := fun n bytes' here => by
    rcases getElem?_snoc.mp here with early | ⟨rfl, same⟩
    · exact getElem?_snoc.mpr (.inl (numbered.fields_snoc _ early))
    · refine getElem?_snoc.mpr (.inr ⟨?_, rfl⟩)
      rw [jumpNumber_snoc _ (Nat.le_refl _), jumpNumber, List.take_length, numbered.length]

theorem Numbered.place {jumps : List Nat} (numbered : Numbered calls jumps) {j f : Nat}
    (known : jumps[j]? = some f) : ∃ n bytes, calls[n]? = some (.forward bytes) ∧
      jumpNumber calls n = j ∧ field calls n = f := by
  have few := (List.getElem?_eq_some_iff.mp known).1
  rw [numbered.length, List.countP_eq_length_filter] at few
  obtain ⟨n, here, number, kind⟩ := exists_of_getElem?_filter (List.getElem?_eq_getElem few)
  cases forward : (calls.filter Call.isForward)[j] with
  | forward bytes =>
      rw [forward] at here
      have same := numbered.fields n bytes here
      rw [jumpNumber, number, known] at same
      exact ⟨n, bytes, here, number, (Option.some.inj same).symm⟩
  | _ => rw [forward] at kind; cases kind

structure Built (lanes : Nat) (calls : List Call) (s : Session) : Prop where
  patched : Patched s.assembly.code (text calls) (Aims calls)
  noted : Noted lanes calls s.assembly
  numbered : Numbered calls s.jumps

theorem built_empty {lanes : Nat} (some : 0 < lanes) : Built lanes [] ⟨.empty lanes, []⟩ where
  patched := by
    refine ⟨rfl, fun i _ => rfl, ?_, ?_⟩ <;> rintro f t ⟨n, _, aims⟩ <;> cases aims
  noted := by
    refine ⟨rfl, Assembly.wellFormed_empty some, rfl, fun u member => ?_, fun n bytes value here => ?_⟩
    · cases Array.not_mem_empty u member
    · cases here
  numbered := ⟨rfl, fun n bytes here => by cases here⟩

end Building

section Steps

variable {lanes : Nat} {calls : List Call} {c : Call} {s : Session} {n f t : Nat}

theorem HasField.snoc (has : HasField calls n) (c : Call) : HasField (calls ++ [c]) n := by
  obtain ⟨d, here, kind⟩ := has
  exact ⟨d, getElem?_snoc.mpr (.inl here), kind⟩

theorem Proper.aims_apart (proper : Proper calls) (has : HasField calls n) (aim : Aims calls f t) :
    f = field calls n ∨ f + 4 ≤ field calls n ∨ field calls n + 4 ≤ f := by
  obtain ⟨m, rfl, aims⟩ := aim
  have has' := jumpTarget?_hasField aims
  rcases Nat.lt_trichotomy m n with before | rfl | after
  · exact .inr (.inl (proper.fields_apart has' has before))
  · exact .inl rfl
  · exact .inr (.inr (proper.fields_apart has has' after))

theorem aims_kept (given : c.given? = none) (kept : ∀ n, ¬ Binds c calls n) :
    Aims (calls ++ [c]) f t ↔ Aims calls f t := by
  rw [aims_snoc, given]
  constructor
  · rintro (⟨_, never⟩ | ⟨n, _, bound, _⟩ | ⟨n, same, _, aims⟩)
    · cases never
    · exact absurd bound (kept n)
    · exact ⟨n, same, aims⟩
  · rintro ⟨n, same, aims⟩
    exact .inr (.inr ⟨n, same, kept n, aims⟩)

theorem aims_given {bytes : List UInt8} {target : Nat}
    (proper : Proper (calls ++ [.jumpTo bytes target])) :
    Aims (calls ++ [.jumpTo bytes target]) f t ↔
      if f = field (calls ++ [.jumpTo bytes target]) calls.length then t = target
      else Aims calls f t := by
  have last : HasField (calls ++ [.jumpTo bytes target]) calls.length :=
    ⟨_, getElem?_snoc.mpr (.inr ⟨rfl, rfl⟩), rfl⟩
  have kept : ∀ n, ¬ Binds (.jumpTo bytes target) calls n := fun n bound => nomatch bound.1
  have other {n : Nat} (has : HasField calls n) :
      field calls n ≠ field (calls ++ [.jumpTo bytes target]) calls.length := by
    rw [← field_snoc (.jumpTo bytes target) has.lt]
    intro same
    exact Nat.ne_of_lt has.lt (proper.field_unique (has.snoc _) last same)
  rw [aims_snoc, Call.given?]
  constructor
  · rintro (⟨rfl, given⟩ | ⟨n, _, bound, _⟩ | ⟨n, rfl, _, aims⟩)
    · rw [if_pos rfl]
      exact (Option.some.inj given).symm
    · exact absurd bound (kept n)
    · rw [if_neg (other (jumpTarget?_hasField aims))]
      exact ⟨n, rfl, aims⟩
  · intro aim
    split at aim
    · exact .inl ⟨‹_›, congrArg _ aim.symm⟩
    · obtain ⟨n, same, aims⟩ := aim
      exact .inr (.inr ⟨n, same, kept n, aims⟩)

theorem aims_bound {jumps : List Nat} {bytes : List UInt8} (proper : Proper calls)
    (numbered : Numbered calls jumps) (here : calls[n]? = some (.forward bytes)) :
    Aims (calls ++ [.bind (jumpNumber calls n)]) f t ↔
      if f = field calls n then t = (text calls).length else Aims calls f t := by
  have has : HasField calls n := ⟨_, here, rfl⟩
  -- Two jumps of one number have one field.
  have own {m : Nat} (bound : Binds (.bind (jumpNumber calls n)) calls m) :
      field calls m = field calls n := by
    obtain ⟨number, bytes', there⟩ := bound
    have same := numbered.fields m bytes' there
    rw [← Call.bind.inj number, numbered.fields n bytes here] at same
    exact (Option.some.inj same).symm
  rw [aims_snoc, show (Call.bind (jumpNumber calls n)).given? = none from rfl]
  constructor
  · rintro (⟨_, never⟩ | ⟨m, rfl, bound, rfl⟩ | ⟨m, rfl, kept, aims⟩)
    · cases never
    · rw [if_pos (own bound)]
    · have apart : field calls m ≠ field calls n := by
        intro same
        obtain rfl := proper.field_unique (jumpTarget?_hasField aims) has same
        exact kept ⟨rfl, bytes, here⟩
      rw [if_neg apart]
      exact ⟨m, rfl, aims⟩
  · intro aim
    split at aim
    · exact .inr (.inl ⟨n, ‹f = _›.symm, ⟨rfl, bytes, here⟩, aim.symm⟩)
    · obtain ⟨m, rfl, aims⟩ := aim
      exact .inr (.inr ⟨m, rfl, fun bound => absurd (own bound) ‹_›, aims⟩)

theorem Patched.emit {code : Array UInt8} (patched : Patched code (text calls) (Aims calls)) (c : Call)
    (given : c.given? = none) (kept : ∀ n, ¬ Binds c calls n) :
    Patched (code ++ c.bytes) (text (calls ++ [c])) (Aims (calls ++ [c])) := by
  rw [text_snoc]
  exact (patched.append c.bytes).congr fun f t => aims_kept given kept

theorem emitted_field {a : Assembly} (size : a.code.size = (text calls).length) (c : Call) :
    (a.emit c.bytes).field = field (calls ++ [c]) calls.length := by
  rw [field_last, Assembly.field, Assembly.emit_code_eq]
  simp [size]

theorem step_jumpTo (built : Built lanes calls s) {bytes : List UInt8} {target : Nat}
    (proper : Proper (calls ++ [.jumpTo bytes target])) :
    ∃ s', s.step (.jumpTo bytes target) = .ok s' ∧
      Built lanes (calls ++ [.jumpTo bytes target]) s' := by
  have last := @emitted_field calls s.assembly built.patched.size (.jumpTo bytes target)
  have long := proper.long (.jumpTo bytes target) (by simp) rfl
  have emitted : Patched (s.assembly.emit bytes).code (text (calls ++ [.jumpTo bytes target]))
      (Aims calls) := by
    rw [text_snoc]
    exact built.patched.append bytes
  have room := proper.field_inside ⟨_, getElem?_snoc.mpr (.inr ⟨rfl, rfl⟩), rfl⟩
  have size := proper.size
  have behind : ∀ f t, Aims calls f t →
      f + 4 ≤ field (calls ++ [.jumpTo bytes target]) calls.length := by
    intro f t aim
    have inside := built.patched.inside f t aim
    rw [field_last, List.length_append]
    omega
  obtain ⟨linked, done, patched⟩ := emitted.fill room
    ⟨by omega, proper.targets bytes target (by simp)⟩
    (fun f t aim => .inr (.inl (behind f t aim))) fun f t => aims_given proper
  rw [← last] at done
  refine ⟨⟨{ s.assembly.emit bytes with code := linked }, s.jumps⟩, ?_, patched,
    built.noted.snoc rfl ⟨rfl, rfl, rfl⟩ ?_, built.numbered.snoc rfl⟩
  · exact congrArg (Except.map fun assembly => { s with assembly }) done
  · rw [patched.size, built.patched.size, text_snoc, List.length_append]
    exact Nat.le_add_right _ _

theorem step_bind (built : Built lanes calls s) {jump : Nat} (proper : Proper calls) :
    ∃ s', s.step (.bind jump) = .ok s' ∧ Built lanes (calls ++ [.bind jump]) s' := by
  have same : text (calls ++ [.bind jump]) = text calls := (text_snoc _ _).trans (List.append_nil _)
  cases known : s.jumps[jump]? with
  | none =>
      -- No jump has that number yet, and none is bound.
      have kept (n : Nat) : ¬ Binds (.bind jump) calls n := by
        rintro ⟨number, bytes, here⟩
        rw [Call.bind.inj number, built.numbered.fields n bytes here] at known
        cases known
      refine ⟨s, by rw [Session.step, known], ?_,
        built.noted.snoc rfl ⟨rfl, rfl, rfl⟩ (Nat.le_refl _), built.numbered.snoc rfl⟩
      rw [same]
      exact built.patched.congr fun f t => aims_kept rfl kept
  | some f =>
      obtain ⟨n, bytes, here, rfl, rfl⟩ := built.numbered.place known
      have has : HasField calls n := ⟨_, here, rfl⟩
      have room := proper.field_inside has
      have size := proper.size
      obtain ⟨linked, done, patched⟩ := built.patched.fill room ⟨by omega, size⟩
        (fun f t aim => proper.aims_apart has aim) fun f t => aims_bound proper built.numbered here
      rw [← built.patched.size] at done
      refine ⟨⟨{ s.assembly with code := linked }, s.jumps⟩, ?_, ?_,
        built.noted.snoc rfl ⟨rfl, rfl, rfl⟩ ?_, built.numbered.snoc rfl⟩
      · rw [Session.step, known]
        exact congrArg (Except.map fun assembly => { s with assembly }) done
      · rw [same]
        exact patched
      · exact Nat.le_of_eq (built.patched.size.trans patched.size.symm)

theorem step_built (built : Built lanes calls s) (proper : Proper (calls ++ [c])) :
    ∃ s', s.step c = .ok s' ∧ Built lanes (calls ++ [c]) s' := by
  have kept (other : ∀ jump, c ≠ .bind jump) (n : Nat) : ¬ Binds c calls n :=
    fun bound => other _ bound.1
  cases c with
  | plain bytes =>
      exact ⟨_, rfl, built.patched.emit (.plain bytes) rfl (kept nofun),
        built.noted.snoc rfl ⟨rfl, rfl, rfl⟩ (Assembly.emit_extends bytes).size,
        built.numbered.snoc rfl⟩
  | constant bytes value =>
      have long := proper.long (.constant bytes value) (by simp) rfl
      exact ⟨_, rfl, built.patched.emit (.constant bytes value) rfl (kept nofun),
        built.noted.constant built.patched.size long, built.numbered.snoc rfl⟩
  | jumpTo bytes target => exact step_jumpTo built proper
  | forward bytes =>
      have numbered := built.numbered.forward bytes
      rw [← emitted_field built.patched.size] at numbered
      exact ⟨_, rfl, built.patched.emit (.forward bytes) rfl (kept nofun),
        built.noted.snoc rfl ⟨rfl, rfl, rfl⟩ (Assembly.emit_extends bytes).size, numbered⟩
  | bind jump => exact step_bind built proper.earlier

theorem run_built {rest : List Call} (built : Built lanes calls s) (proper : Proper (calls ++ rest)) :
    ∃ s', rest.foldlM Session.step s = .ok s' ∧ Built lanes (calls ++ rest) s' := by
  induction rest generalizing calls s with
  | nil => exact ⟨s, rfl, by rwa [List.append_nil]⟩
  | cons c rest ih =>
      rw [List.append_cons] at proper
      obtain ⟨s', first, built⟩ := step_built built proper.earlier
      obtain ⟨s'', last, built⟩ := ih built proper
      refine ⟨s'', ?_, by rwa [List.append_cons]⟩
      rw [List.foldlM_cons, first]
      exact last

end Steps

end ProgramHash.Machine.Script
