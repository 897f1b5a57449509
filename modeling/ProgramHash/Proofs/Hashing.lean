import ProgramHash.Proofs.Batches
import ProgramHash.Proofs.Compilation
import ProgramHash.Proofs.Generation.Attempts

-- Hash functions that are built from keys. Their programs are generated, so that
-- compiling cannot fail and the code does what is relied on.
namespace ProgramHash

section Compiled

variable {p : Program}

theorem ScalarCode.runs_compiled (targeted : EveryBranchHasTarget p.toList)
    (compilable : Compilable p.toList) {code : Array UInt8} (done : compile p = .ok code) :
    Runs code p := by
  obtain ⟨_, _, laid⟩ := compile_laid compilable done
  intro file result
  obtain ⟨last, ended, interpreted⟩ := Program.executed targeted file
  obtain ⟨q, returned, restored, _⟩ := laid.returns (Machine.entered file) ended
  rw [run, runCode_returned returned restored.memory, interpreted, Except.ok.injEq, Except.ok.injEq]

theorem VectorCode.encodable_of_scalar {i : Instruction} (encodable : ScalarCode.Encodable i) :
    Encodable i := by
  cases i with
  | addShift dst src shift => exact UInt8.lt_trans encodable.2 (by decide)
  | _ => trivial

theorem VectorCode.runs_compiled (targeted : EveryBranchHasTarget p.toList)
    (compilable : Compilable p.toList) {code : Array UInt8} (done : compile p = .ok code) :
    Runs code p := by
  obtain ⟨_, _, laid⟩ := compile_laid compilable done
  intro files result
  obtain ⟨q, after, returned, restored, lanes, _⟩ :=
    laid.returns (Machine.entered (LaneFile.ofLanes files))
  have interpreted (l : Fin 8) : p.interpret files[l] = .ok (after.lane l) := by
    rw [lanes, LaneFile.lane_ofLanes]
    exact interpret_laneAfter targeted files[l]
  -- A file is settled by its lanes, and so the run comes to this one and no other.
  rw [run, runCode_returned returned restored.memory, Except.ok.injEq]
  constructor
  · rintro rfl
    exact interpreted
  · intro same
    exact LaneFile.ext_lanes fun l => Except.ok.inj ((interpreted l).symm.trans (same l))

end Compiled

namespace Backend

variable {host : Host} {p : Program}

theorem compileScalar_ok {code : Array UInt8} :
    (compileScalar host p).2 = .ok code ↔ host.mayExecute = true ∧ ScalarCode.compile p = .ok code := by
  unfold compileScalar
  cases ScalarCode.compile p <;> cases host.mayExecute <;> simp

theorem compileVector_ok {code : Array UInt8} : (compileVector host p).2 = .ok code ↔
    host.hasLanes = true ∧ host.mayExecute = true ∧ VectorCode.compile p = .ok code := by
  unfold compileVector
  cases host.hasLanes <;> cases VectorCode.compile p <;> cases host.mayExecute <;> simp

def Compiled (p : Program) : Backend → Prop
  | .interpreter => True
  | .scalar code => ScalarCode.compile p = .ok code
  | .vector single lanes => ScalarCode.compile p = .ok single ∧ VectorCode.compile p = .ok lanes

theorem bestOf_compiled {b : Backend} (built : (bestOf host p).2 = .ok b) : b.Compiled p := by
  unfold bestOf at built
  rcases first : compileScalar host p with ⟨events, e | single⟩
  · rw [first] at built
    cases e with
    | executableMemory => cases built; trivial
    | generation | compilation | notAvailable => cases built
  · rw [first] at built
    have scalar := (compileScalar_ok.mp (congrArg Prod.snd first)).2
    rcases second : compileVector host p with ⟨more, e | lanes⟩
    · rw [second] at built
      cases e with
      | executableMemory | notAvailable => cases built; exact scalar
      | generation | compilation => cases built
    · rw [second] at built
      cases built
      exact ⟨scalar, (compileVector_ok.mp (congrArg Prod.snd second)).2.2⟩

theorem build_compiled {r : Runtime} {b : Backend} (built : (build host r p).2 = .ok b) :
    b.Compiled p := by
  cases r with
  | interpretOnly => cases built; trivial
  | scalarOnly =>
      obtain ⟨code, scalar, same⟩ := Reported.andThen_ok.mp built
      cases same
      exact (compileScalar_ok.mp scalar).2
  | vectorOnly =>
      rw [build, vectorOf, Reported.andThen_ok] at built
      obtain ⟨single, scalar, rest⟩ := built
      obtain ⟨lanes, vector, same⟩ := Reported.andThen_ok.mp rest
      cases same
      exact ⟨(compileScalar_ok.mp scalar).2, (compileVector_ok.mp vector).2.2⟩
  | tryCompile => exact bestOf_compiled built

theorem bestOf_total {single lanes : Array UInt8} (scalar : ScalarCode.compile p = .ok single)
    (vector : VectorCode.compile p = .ok lanes) : ∃ b, (bestOf host p).2 = .ok b := by
  obtain ⟨mayExecute, hasLanes⟩ := host
  cases mayExecute <;> cases hasLanes <;> simp [bestOf, compileScalar, compileVector, scalar, vector]

theorem Compiled.runs (targeted : EveryBranchHasTarget p.toList)
    (compilable : ScalarCode.Compilable p.toList) {b : Backend} (compiled : b.Compiled p) : b.Runs p := by
  cases b with
  | interpreter => trivial
  | scalar code => exact ScalarCode.runs_compiled targeted compilable compiled
  | vector single lanes =>
      have encodable : VectorCode.Compilable p.toList := fun i member =>
        VectorCode.encodable_of_scalar (compilable i member).1
      exact ⟨ScalarCode.runs_compiled targeted compilable compiled.1,
        VectorCode.runs_compiled targeted encodable compiled.2⟩

end Backend

theorem Program.generate_compilable {key : SipState} {attempts : Nat} {p : Program}
    (generated : (generate key attempts).2 = .ok p) :
    CompilesSafely p ∧ ScalarCode.Compilable p.toList := by
  obtain ⟨accepted, rfl⟩ := generateFrom_ok generated
  exact ⟨Generator.draft_compilesSafely accepted, compilable_of_sound Generator.run_sound⟩

theorem Program.generate_unique {key : SipState} {m n : Nat} {p q : Program}
    (first : (generate key m).2 = .ok p) (second : (generate key n).2 = .ok q) : p = q := by
  cases m with
  | zero => cases first
  | succ m =>
      cases n with
      | zero => cases second
      | succ n =>
          rw [generate_succ] at first second
          exact Except.ok.inj (first.symm.trans second)

namespace Hasher

variable {host : Host} {s : BuildSettings} {keys : KeyPair} {h : Hasher}

theorem build_ok : (build host s keys).2 = .ok h ↔
    (Program.generate keys.program s.attempts).2 = .ok h.program ∧
      (Backend.build host s.runtime h.program).2 = .ok h.backend ∧ h.registerKey = keys.register := by
  rw [build, Reported.andThen_ok]
  constructor
  · rintro ⟨p, generated, rest⟩
    obtain ⟨b, built, same⟩ := Reported.andThen_ok.mp rest
    cases same
    exact ⟨Reported.mapError_ok.mp generated, built, rfl⟩
  · rintro ⟨generated, built, same⟩
    refine ⟨h.program, Reported.mapError_ok.mpr generated, ?_⟩
    refine Reported.andThen_ok.mpr ⟨h.backend, built, ?_⟩
    rw [← same]
    rfl

theorem build_runs (built : (build host s keys).2 = .ok h) :
    EveryBranchHasTarget h.program.toList ∧ h.backend.Runs h.program := by
  obtain ⟨generated, backend, _⟩ := build_ok.mp built
  obtain ⟨safe, compilable⟩ := Program.generate_compilable generated
  exact ⟨safe.targeted, (Backend.build_compiled backend).runs safe.targeted compilable⟩

theorem hash_total (targeted : EveryBranchHasTarget h.program.toList) (runs : h.backend.Runs h.program)
    (nonce : Word) : ∃ d, h.hash nonce = .ok d := by
  obtain ⟨d, digested⟩ := Program.digestOf_total targeted h.registerKey nonce
  exact ⟨d, (hash_ok runs).mpr digested⟩

theorem build_unique {other : Host} {t : BuildSettings} {g : Hasher}
    (first : (build host s keys).2 = .ok g) (second : (build other t keys).2 = .ok h) :
    g.program = h.program ∧ ∀ nonce, g.hash nonce = h.hash nonce := by
  obtain ⟨generated, _, key⟩ := build_ok.mp first
  obtain ⟨again, _, sameKey⟩ := build_ok.mp second
  have same : g.program = h.program := Program.generate_unique generated again
  refine ⟨same, fun nonce => ?_⟩
  -- The digest by one backend is that of the program, which the other comes to.
  obtain ⟨targeted, runs⟩ := build_runs first
  obtain ⟨d, hashed⟩ := hash_total targeted runs nonce
  have digested := (hash_ok runs).mp hashed
  rw [same, key, ← sameKey] at digested
  rw [hashed, (hash_ok (build_runs second).2).mpr digested]

section Once

variable {α : Type} {key : SipState} {use : Hasher → Except RunError α} {a : α}

theorem once_ok : (once host s key use).2 = .ok a ↔
    ∃ h, (ofKey host s key).2 = .ok h ∧ use h = .ok a := by
  rw [once, Reported.andThen_ok]
  exact exists_congr fun h => and_congr Reported.mapError_ok mapError_ok

theorem once_generated {meaning : Program → Prop}
    (available : ∀ p, CompilesSafely p → ∃ b, (Backend.build host s.runtime p).2 = .ok b)
    (meant : ∀ h : Hasher, h.registerKey = key → h.backend.Runs h.program →
      (use h = .ok a ↔ meaning h.program)) :
    (once host s key use).2 = .ok a ↔
      ∃ p, (Program.generate key s.attempts).2 = .ok p ∧ meaning p := by
  rw [once_ok]
  constructor
  · rintro ⟨h, built, done⟩
    obtain ⟨generated, _, same⟩ := build_ok.mp built
    exact ⟨h.program, generated, (meant h same (build_runs built).2).mp done⟩
  · rintro ⟨p, generated, means⟩
    obtain ⟨b, backend⟩ := available p (Program.generate_compilable generated).1
    have built : (ofKey host s key).2 = .ok ⟨key, p, b⟩ := build_ok.mpr ⟨generated, backend, rfl⟩
    exact ⟨_, built, (meant _ rfl (build_runs built).2).mpr means⟩

theorem hashOnce_ok {nonce d : Word} : (hashOnce host key nonce).2 = .ok d ↔
    ∃ p, (Program.generate key 1).2 = .ok p ∧ p.digestOf key nonce = .ok d := by
  refine once_generated (fun p _ => ⟨.interpreter, rfl⟩) fun h same runs => ?_
  rw [hash_ok runs, same]

theorem batchOnce_ok {n : Nat} (few : n < 8) {first : Word} {ds : List Word} :
    (once host .default key fun h => h.hashLanes (nonces (n + 1) first)).2 = .ok ds ↔
      ∃ p, (Program.generate key 1).2 = .ok p ∧ Answers (p.digestOf key) (n + 1) first ds := by
  refine once_generated (fun p safe => ?_) fun h same runs => ?_
  · obtain ⟨_, _, scalar, _⟩ := safe.scalar.completes
    obtain ⟨_, _, vector, _⟩ := safe.vector.completes
    exact Backend.bestOf_total scalar vector
  · rw [batch_ok few runs, Answers.congr fun _ _ => hash_ok runs, same]

theorem batchOnce_answers {n : Nat} (few : n < 8) {other : Host} {first : Word} {ds : List Word} :
    (once host .default key fun h => h.hashLanes (nonces (n + 1) first)).2 = .ok ds ↔
      Answers (fun nonce => (hashOnce other key nonce).2) (n + 1) first ds := by
  rw [batchOnce_ok few]
  constructor
  · rintro ⟨p, generated, answers⟩
    exact answers.mono fun _ _ done => hashOnce_ok.mpr ⟨p, generated, done⟩
  · intro answers
    -- There is a first nonce, and its digest comes from the program of the key.
    obtain ⟨_, _, hashed⟩ := answers.nth 0 (Nat.succ_pos n)
    obtain ⟨p, generated, _⟩ := hashOnce_ok.mp hashed
    refine ⟨p, generated, answers.mono fun nonce d done => ?_⟩
    obtain ⟨q, again, done⟩ := hashOnce_ok.mp done
    rw [generated] at again
    cases again
    exact done

end Once

structure Consistent (h : Hasher) : Prop where
  single : ∀ nonce d, h.hash nonce = .ok d ↔ h.program.digestOf h.registerKey nonce = .ok d
  batch4 : ∀ first ds, h.batch4 first = .ok ds ↔ Answers h.hash 4 first ds
  batch8 : ∀ first ds, h.batch8 first = .ok ds ↔ Answers h.hash 8 first ds
  returns : EveryBranchHasTarget h.program.toList → ∀ first, (∃ d, h.hash first = .ok d) ∧
    (∃ ds, h.batch4 first = .ok ds) ∧ ∃ ds, h.batch8 first = .ok ds

theorem consistent_of_runs (runs : h.backend.Runs h.program) : h.Consistent where
  single := fun _ _ => hash_ok runs
  batch4 := fun _ _ => batch_ok (by decide) runs
  batch8 := fun _ _ => batch_ok (by decide) runs
  returns := fun targeted first => by
    have total := hash_total targeted runs
    obtain ⟨four, answers4⟩ := Answers.total total 4 first
    obtain ⟨eight, answers8⟩ := Answers.total total 8 first
    exact ⟨total first, ⟨four, (batch_ok (by decide) runs).mpr answers4⟩,
      eight, (batch_ok (by decide) runs).mpr answers8⟩

structure AgreeOnce (key : SipState) : Prop where
  batch4 : ∀ host other first ds, (batch4Once host key first).2 = .ok ds ↔
    Answers (fun nonce => (hashOnce other key nonce).2) 4 first ds
  batch8 : ∀ host other first ds, (batch8Once host key first).2 = .ok ds ↔
    Answers (fun nonce => (hashOnce other key nonce).2) 8 first ds
  shared : ∀ host other (first second : Word) ds es (i j : Nat) (d e : Word),
    (batch4Once host key first).2 = .ok ds → (batch8Once other key second).2 = .ok es →
      UInt64.ofNat (first.toNat + i) = UInt64.ofNat (second.toNat + j) →
        ds[i]? = some d → es[j]? = some e → d = e
  returns : ∀ host p, (Program.generate key 1).2 = .ok p → ∀ first,
    (∃ d, (hashOnce host key first).2 = .ok d) ∧ (∃ ds, (batch4Once host key first).2 = .ok ds) ∧
      ∃ ds, (batch8Once host key first).2 = .ok ds

theorem agreeOnce (key : SipState) : AgreeOnce key where
  batch4 := fun _ _ _ _ => batchOnce_answers (by decide)
  batch8 := fun _ _ _ _ => batchOnce_answers (by decide)
  shared := by
    intro host other first second ds es i j d e four eight same here there
    have answers4 : Answers (fun nonce => (hashOnce host key nonce).2) 4 first ds :=
      (batchOnce_answers (by decide)).mp four
    have answers8 : Answers (fun nonce => (hashOnce host key nonce).2) 8 second es :=
      (batchOnce_answers (by decide)).mp eight
    have one := answers4.each i d here
    have two := answers8.each j e there
    rw [same, two] at one
    exact (Except.ok.inj one).symm
  returns := by
    intro host p generated first
    have targeted := (Program.generate_compilable generated).1.targeted
    have total (nonce : Word) : ∃ d, (hashOnce host key nonce).2 = .ok d := by
      obtain ⟨d, digested⟩ := Program.digestOf_total targeted key nonce
      exact ⟨d, hashOnce_ok.mpr ⟨p, generated, digested⟩⟩
    obtain ⟨four, answers4⟩ := Answers.total total 4 first
    obtain ⟨eight, answers8⟩ := Answers.total total 8 first
    exact ⟨total first, ⟨four, (batchOnce_answers (by decide)).mpr answers4⟩,
      eight, (batchOnce_answers (by decide)).mpr answers8⟩

end Hasher

-- Whatever runs the program, a batch is made of single hashes, and these are what
-- interpreting the program comes to. What code has to do for that is what the code
-- of every hash function that is built does.
theorem batches_match_single_hashes :
    (∀ h : Hasher, h.backend.Runs h.program → h.Consistent) ∧
    (∀ (host : Host) (s : BuildSettings) (keys : KeyPair) (h : Hasher),
      (Hasher.build host s keys).2 = .ok h →
        h.registerKey = keys.register ∧ EveryBranchHasTarget h.program.toList ∧
          h.backend.Runs h.program) ∧
    (∀ (host other : Host) (s t : BuildSettings) (keys : KeyPair) (g h : Hasher),
      (Hasher.build host s keys).2 = .ok g → (Hasher.build other t keys).2 = .ok h →
        g.program = h.program ∧ ∀ nonce, g.hash nonce = h.hash nonce) ∧
    ∀ key : SipState, Hasher.AgreeOnce key := by
  refine ⟨fun h => Hasher.consistent_of_runs, ?_, ?_, Hasher.agreeOnce⟩
  · intro host s keys h built
    exact ⟨(Hasher.build_ok.mp built).2.2, Hasher.build_runs built⟩
  · intro host other s t keys g h first second
    exact Hasher.build_unique first second

theorem Backend.vectorOnly_compiled {p : Program} {single lanes : Array UInt8}
    (scalar : ScalarCode.compile p = .ok single) (vector : VectorCode.compile p = .ok lanes) :
    (build ⟨true, true⟩ .vectorOnly p).2 = .ok (.vector single lanes) := by
  simp [build, vectorOf, Reported.andThen, Reported.ok, compileScalar, compileVector, scalar, vector]

-- Under the zero key. Batches that start one and two nonces before the end go on with
-- the first nonces, in lanes as well as one by one.
theorem zero_key_batches_match :
    ∃ (g h : Hasher) (ds four eight : List Word) (d e : Word),
      let key : SipState := ⟨0, 0, 0, 0⟩
      let keys : KeyPair := ⟨key, ⟨1, 2, 3, 4⟩⟩
      (Hasher.build ⟨true, true⟩ ⟨.vectorOnly, 1⟩ keys).2 = .ok g ∧
      (Hasher.build ⟨false, true⟩ ⟨.interpretOnly, 16⟩ keys).2 = .ok h ∧
      (∃ single lanes, g.backend = .vector single lanes) ∧ h.backend = .interpreter ∧
      g.backend.Runs g.program ∧ g.program = h.program ∧
      g.batch4 0xfffffffffffffffe = .ok ds ∧ ds[2]? = some d ∧ h.hash 0 = .ok d ∧
      g.program.digestOf ⟨1, 2, 3, 4⟩ 0 = .ok d ∧
      (Hasher.batch4Once ⟨true, true⟩ key 0xfffffffffffffffe).2 = .ok four ∧
      (Hasher.batch8Once ⟨true, false⟩ key 0xffffffffffffffff).2 = .ok eight ∧
      four[2]? = some e ∧ eight[1]? = some e := by
  obtain ⟨consistent, built, same, once⟩ := batches_match_single_hashes
  obtain ⟨p, one, sixteen⟩ : ∃ p, (Program.generate ⟨0, 0, 0, 0⟩ 1).2 = .ok p ∧
      (Program.generate ⟨0, 0, 0, 0⟩ 16).2 = .ok p :=
    ⟨_, Program.generate_ended (by decide) Generator.zeroKey_ends,
      Program.generate_ended (by decide) Generator.zeroKey_ends⟩
  obtain ⟨safe, _⟩ := Program.generate_compilable one
  obtain ⟨single, _, scalar, _⟩ := safe.scalar.completes
  obtain ⟨lanes, _, vector, _⟩ := safe.vector.completes
  have first : (Hasher.build ⟨true, true⟩ ⟨.vectorOnly, 1⟩ ⟨⟨0, 0, 0, 0⟩, ⟨1, 2, 3, 4⟩⟩).2 =
      .ok ⟨⟨1, 2, 3, 4⟩, p, .vector single lanes⟩ :=
    Hasher.build_ok.mpr ⟨one, Backend.vectorOnly_compiled scalar vector, rfl⟩
  have second : (Hasher.build ⟨false, true⟩ ⟨.interpretOnly, 16⟩ ⟨⟨0, 0, 0, 0⟩, ⟨1, 2, 3, 4⟩⟩).2 =
      .ok ⟨⟨1, 2, 3, 4⟩, p, .interpreter⟩ :=
    Hasher.build_ok.mpr ⟨sixteen, rfl, rfl⟩
  obtain ⟨_, targeted, runs⟩ := built _ _ _ _ first
  have agrees := consistent _ runs
  obtain ⟨_, ⟨ds, batch⟩, _⟩ := agrees.returns targeted 0xfffffffffffffffe
  obtain ⟨d, here, hashed⟩ := ((agrees.batch4 _ _).mp batch).nth 2 (by decide)
  obtain ⟨program, hashes⟩ := same _ _ _ _ _ _ _ first second
  have agree := once ⟨0, 0, 0, 0⟩
  obtain ⟨_, ⟨four, batch4⟩, _⟩ := agree.returns ⟨true, true⟩ p one 0xfffffffffffffffe
  obtain ⟨_, _, eight, batch8⟩ := agree.returns ⟨true, false⟩ p one 0xffffffffffffffff
  obtain ⟨e, third, _⟩ := ((agree.batch4 _ ⟨true, true⟩ _ _).mp batch4).nth 2 (by decide)
  obtain ⟨f, second8, _⟩ := ((agree.batch8 _ ⟨true, true⟩ _ _).mp batch8).nth 1 (by decide)
  have shared : e = f := agree.shared _ _ _ _ _ _ 2 1 _ _ batch4 batch8 (by decide) third second8
  exact ⟨_, _, ds, four, eight, d, e, first, second, ⟨single, lanes, rfl⟩, rfl, runs, program, batch,
    here, (hashes 0).symm.trans hashed, (agrees.single _ _).mp hashed, batch4, batch8, third,
    shared ▸ second8⟩

end ProgramHash
