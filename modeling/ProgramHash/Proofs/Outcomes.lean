-- What is known of computations that can fail once it is known how they ended: of
-- one after the other, of one for every element of a list, and of a fold that stops
-- where it first fails.
namespace ProgramHash

section Outcomes

variable {ε δ α β : Type}

theorem bind_ok {x : Except ε α} {f : α → Except ε β} {b : β} :
    x >>= f = .ok b ↔ ∃ a, x = .ok a ∧ f a = .ok b := by
  cases x <;> simp [Bind.bind, Except.bind]

theorem map_ok {x : Except ε α} {f : α → β} {b : β} :
    x.map f = .ok b ↔ ∃ a, x = .ok a ∧ f a = b := by
  cases x <;> simp [Except.map]

theorem map_error {x : Except ε α} {f : α → β} {e : ε} : x.map f = .error e ↔ x = .error e := by
  cases x <;> simp [Except.map]

theorem mapError_ok {x : Except ε α} {f : ε → δ} {a : α} : x.mapError f = .ok a ↔ x = .ok a := by
  cases x with
  | error e => exact ⟨nofun, nofun⟩
  | ok b =>
      constructor
      · intro same
        cases same
        rfl
      · intro same
        cases same
        rfl

theorem mapM_ok {f : α → Except ε β} {l : List α} {bs : List β} :
    l.mapM f = .ok bs ↔ bs.length = l.length ∧
      ∀ (i : Nat) (a : α) (b : β), l[i]? = some a → bs[i]? = some b → f a = .ok b := by
  induction l generalizing bs with
  | nil =>
      rw [List.mapM_nil]
      constructor
      · intro done
        cases done
        exact ⟨rfl, by simp⟩
      · rintro ⟨length, _⟩
        rw [List.eq_nil_of_length_eq_zero length]
        rfl
  | cons a l ih =>
      rw [List.mapM_cons, bind_ok]
      constructor
      · rintro ⟨b, first, done⟩
        obtain ⟨rest, later, done⟩ := bind_ok.mp done
        cases done
        obtain ⟨length, each⟩ := ih.mp later
        refine ⟨congrArg (· + 1) length, fun i x y here there => ?_⟩
        cases i with
        | zero => cases here; cases there; exact first
        | succ i => exact each i x y here there
      · rintro ⟨length, each⟩
        cases bs with
        | nil => cases length
        | cons b bs =>
            have later : l.mapM f = .ok bs :=
              ih.mpr ⟨Nat.succ.inj length, fun i x y here there => each (i + 1) x y here there⟩
            exact ⟨b, each 0 a b rfl rfl, bind_ok.mpr ⟨bs, later, rfl⟩⟩

end Outcomes

section StoppingFold

variable {α β ε : Type} {f : β → α → Except ε β} {l : List α} {s t : β}

theorem foldlM_take_succ {k : Nat} {a : α} (here : l[k]? = some a) :
    (l.take (k + 1)).foldlM f s = (l.take k).foldlM f s >>= fun m => f m a := by
  rw [List.take_add_one, here, List.foldlM_append]
  congr 1
  funext m
  simp

theorem foldlM_error_at {e : ε} (failed : l.foldlM f s = .error e) :
    ∃ k a m, l[k]? = some a ∧ (l.take k).foldlM f s = .ok m ∧ f m a = .error e := by
  induction l generalizing s with
  | nil => cases failed
  | cons a l ih =>
      rw [List.foldlM_cons] at failed
      cases first : f s a with
      | error e' =>
          rw [first] at failed
          cases failed
          exact ⟨0, a, s, rfl, rfl, first⟩
      | ok m =>
          rw [first] at failed
          obtain ⟨k, b, m', here, before, stopped⟩ := ih failed
          refine ⟨k + 1, b, m', here, ?_, stopped⟩
          rw [List.take_succ_cons, List.foldlM_cons, first]
          exact before

theorem foldlM_ok_take (ended : l.foldlM f s = .ok t) (k : Nat) :
    ∃ m, (l.take k).foldlM f s = .ok m := by
  rw [← List.take_append_drop k l, List.foldlM_append, bind_ok] at ended
  obtain ⟨m, early, _⟩ := ended
  exact ⟨m, early⟩

theorem foldlM_error_of_take {e : ε} {k : Nat} (failed : (l.take k).foldlM f s = .error e) :
    l.foldlM f s = .error e := by
  rw [← List.take_append_drop k l, List.foldlM_append, failed]
  rfl

end StoppingFold

end ProgramHash
