-- Where elements stand in lists that are joined from others or sifted.
namespace ProgramHash

section Joining

theorem getElem?_flatten_uniform {α : Type} {l : List (List α)} {n : Nat}
    (uniform : ∀ b ∈ l, b.length = n) (k : Nat) {j : Nat} (inside : j < n) :
    l.flatten[n * k + j]? = l[k]?.bind (·[j]?) := by
  induction l generalizing k with
  | nil => simp
  | cons b l ih =>
      have size := uniform b List.mem_cons_self
      cases k with
      | zero =>
          rw [Nat.mul_zero, Nat.zero_add, List.flatten_cons, List.getElem?_append_left (by omega)]
          rfl
      | succ k =>
          rw [List.flatten_cons, List.getElem?_append_right (by rw [Nat.mul_succ]; omega), size,
            show n * (k + 1) + j - n = n * k + j by rw [Nat.mul_succ]; omega,
            ih (fun c member => uniform c (List.mem_cons_of_mem _ member)) k]
          rfl

theorem getElem?_snoc {α : Type} {l : List α} {a b : α} {n : Nat} :
    (l ++ [a])[n]? = some b ↔ l[n]? = some b ∨ n = l.length ∧ a = b := by
  rcases Nat.lt_trichotomy n l.length with before | rfl | after
  · simp [List.getElem?_append_left before, Nat.ne_of_lt before]
  · simp
  · simp [List.getElem?_append_right (Nat.le_of_lt after), Nat.sub_ne_zero_of_lt after,
      Nat.ne_of_gt after, Nat.le_of_lt after]

theorem mem_intercalate {α : Type} {separator a : α} {l : List (List α)}
    (member : a ∈ [separator].intercalate l) : a = separator ∨ ∃ b ∈ l, a ∈ b := by
  induction l with
  | nil => simp at member
  | cons b l ih =>
      by_cases last : l = []
      · subst last
        exact .inr ⟨b, List.mem_cons_self, by simpa using member⟩
      · rw [List.intercalate_cons_of_ne_nil last, List.append_assoc, List.mem_append,
          List.mem_append, List.mem_singleton] at member
        rcases member with here | between | later
        · exact .inr ⟨b, List.mem_cons_self, here⟩
        · exact .inl between
        · rcases ih later with between | ⟨c, known, inside⟩
          · exact .inl between
          · exact .inr ⟨c, List.mem_cons_of_mem _ known, inside⟩

end Joining

section Filtering

variable {α : Type} {q : α → Bool} {l : List α} {a : α}

theorem getElem?_filter_of {n : Nat} (here : l[n]? = some a) (kind : q a = true) :
    (l.filter q)[(l.take n).countP q]? = some a := by
  induction l generalizing n with
  | nil => cases here
  | cons b l ih =>
      cases n with
      | zero =>
          cases here
          simp [kind]
      | succ n =>
          rw [List.take_succ_cons, List.countP_cons]
          by_cases other : q b = true
          · simpa [other] using ih here
          · simpa [other] using ih here

theorem exists_of_getElem?_filter {m : Nat} (here : (l.filter q)[m]? = some a) :
    ∃ n, l[n]? = some a ∧ (l.take n).countP q = m ∧ q a = true := by
  induction l generalizing m with
  | nil => cases here
  | cons b l ih =>
      by_cases kind : q b = true
      · rw [List.filter_cons_of_pos kind] at here
        cases m with
        | zero =>
            cases here
            exact ⟨0, rfl, rfl, kind⟩
        | succ m =>
            obtain ⟨n, there, before, of⟩ := ih here
            exact ⟨n + 1, there, by simp [kind, before], of⟩
      · rw [List.filter_cons_of_neg kind] at here
        obtain ⟨n, there, before, of⟩ := ih here
        exact ⟨n + 1, there, by simp [kind, before], of⟩

theorem nodup_eraseDups [BEq α] [LawfulBEq α] : ∀ l : List α, l.eraseDups.Nodup
  | [] => by simp
  | a :: l => by
      rw [List.eraseDups_cons, List.nodup_cons, List.mem_eraseDups]
      exact ⟨by simp, nodup_eraseDups _⟩
termination_by l => l.length
decreasing_by
  exact Nat.lt_succ_of_le (List.length_filter_le _ _)

end Filtering

end ProgramHash
