namespace ProgramHash

-- Registers of every kind are numbered from 0, and are written as numerals.
instance (priority := high) eight_neZero : @NeZero Nat Zero.ofOfNat0 8 := ⟨Nat.succ_ne_zero 7⟩

instance (priority := high) sixteen_neZero : @NeZero Nat Zero.ofOfNat0 16 := ⟨Nat.succ_ne_zero 15⟩

instance (priority := high) thirtyTwo_neZero : @NeZero Nat Zero.ofOfNat0 32 := ⟨Nat.succ_ne_zero 31⟩

-- Registers of one kind and what they hold. Every number stands for a register
-- of the bank, so that no access can miss.
def Bank (α : Type) (n : Nat) : Type := Vector α n

namespace Bank

variable {α β γ : Type} {n : Nat}

instance [DecidableEq α] : DecidableEq (Bank α n) := inferInstanceAs (DecidableEq (Vector α n))

instance [Repr α] : Repr (Bank α n) := inferInstanceAs (Repr (Vector α n))

instance readable : GetElem (Bank α n) (Fin n) α fun _ _ => True where
  getElem bank r _ := Vector.get bank r

def ofFn (f : Fin n → α) : Bank α n := Vector.ofFn f

def filled (x : α) : Bank α n := Vector.replicate n x

def set (bank : Bank α n) (r : Fin n) (x : α) : Bank α n := Vector.set bank r.val x r.isLt

def map (f : α → β) (bank : Bank α n) : Bank β n := Vector.map f bank

def zipWith (f : α → β → γ) (a : Bank α n) (b : Bank β n) : Bank γ n := Vector.zipWith f a b

def toArray (bank : Bank α n) : Array α := Vector.toArray bank

def foldl (f : β → α → β) (start : β) (bank : Bank α n) : β := Vector.foldl f start bank

@[ext] theorem ext {a b : Bank α n} (same : ∀ r : Fin n, a[r] = b[r]) : a = b :=
  Vector.ext fun r inside => same ⟨r, inside⟩

@[simp] theorem read_ofFn (f : Fin n → α) (r : Fin n) : (ofFn f)[r] = f r := Vector.getElem_ofFn r.isLt

@[simp] theorem read_filled (x : α) (r : Fin n) : (filled x : Bank α n)[r] = x :=
  Vector.getElem_replicate r.isLt

@[simp] theorem read_set (bank : Bank α n) (d r : Fin n) (x : α) :
    (bank.set d x)[r] = if r = d then x else bank[r] := by
  by_cases same : r = d
  · subst same
    rw [if_pos rfl]
    exact Vector.getElem_set_self r.isLt
  · have apart : d.val ≠ r.val := fun equal => same (Fin.ext equal.symm)
    rw [if_neg same]
    exact Vector.getElem_set_ne d.isLt r.isLt apart

@[simp] theorem read_map (f : α → β) (bank : Bank α n) (r : Fin n) : (bank.map f)[r] = f bank[r] :=
  Vector.getElem_map f r.isLt

@[simp] theorem read_zipWith (f : α → β → γ) (a : Bank α n) (b : Bank β n) (r : Fin n) :
    (zipWith f a b)[r] = f a[r] b[r] :=
  Vector.getElem_zipWith r.isLt

@[simp] theorem size_toArray (bank : Bank α n) : bank.toArray.size = n := Vector.size_toArray bank

@[simp] theorem read_toArray (bank : Bank α n) {i : Nat} (inside : i < bank.toArray.size) :
    bank.toArray[i] = bank[(⟨i, by simpa using inside⟩ : Fin n)] := rfl

theorem read_toArray? (bank : Bank α n) (r : Fin n) : bank.toArray[r.val]? = some bank[r] := by
  simp

theorem mem_toArray {bank : Bank α n} {x : α} : x ∈ bank.toArray ↔ ∃ r : Fin n, bank[r] = x := by
  rw [Array.mem_iff_getElem?]
  constructor
  · rintro ⟨i, held⟩
    have inside : i < n := by simpa using (Array.getElem?_eq_some_iff.mp held).1
    exact ⟨⟨i, inside⟩, Option.some.inj ((read_toArray? bank ⟨i, inside⟩).symm.trans held)⟩
  · rintro ⟨r, rfl⟩
    exact ⟨r.val, read_toArray? bank r⟩

theorem foldl_toArray (f : β → α → β) (start : β) (bank : Bank α n) :
    bank.toArray.foldl f start = bank.foldl f start := rfl

end Bank

end ProgramHash
