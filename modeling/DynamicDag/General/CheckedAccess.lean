import Mathlib.Data.List.Basic
import Mathlib.Data.Int.Basic

/-! # Vectors with bounds-checked access

A slot is named by a signed number, as in a program that indexes a vector with a `long`. An access
outside the vector fails instead of reading or writing some other memory, so that a run without
this failure has used only slots of its vectors. A sequence of such steps is taken apart by its outcome.
-/

namespace CheckedAccess

variable {α ε : Type*}

/-- Read one slot. -/
def readAt (fault : ε) (xs : List α) (slot : ℤ) : Except ε α :=
  if 0 ≤ slot then
    match xs[slot.toNat]? with
    | some a => .ok a
    | none => .error fault
  else .error fault

/-- Overwrite one slot. -/
def writeAt (fault : ε) (xs : List α) (slot : ℤ) (a : α) : Except ε (List α) :=
  if 0 ≤ slot ∧ slot.toNat < xs.length then .ok (xs.set slot.toNat a) else .error fault

variable {fault : ε}

/-- Inside the vector a read returns the slot's content. -/
theorem readAt_natCast {xs : List α} {slot : ℕ} (bound : slot < xs.length) :
    readAt fault xs slot = .ok xs[slot] := by
  simp [readAt, bound]

/-- Inside the vector a write replaces the slot's content. -/
theorem writeAt_natCast {xs : List α} {slot : ℕ} (bound : slot < xs.length) (a : α) :
    writeAt fault xs slot a = .ok (xs.set slot a) := by
  simp [writeAt, bound]

/-- A read fails in one way only, and only outside the vector. -/
theorem readAt_error {xs : List α} {slot : ℤ} {e : ε} (failed : readAt fault xs slot = .error e) :
    e = fault ∧ (slot < 0 ∨ (xs.length : ℤ) ≤ slot) := by
  unfold readAt at failed
  split_ifs at failed with nonneg
  · cases found : xs[slot.toNat]? with
    | some a => simp [found] at failed
    | none =>
      rw [found] at failed
      have beyond := List.getElem?_eq_none_iff.mp found
      exact ⟨(Except.error.inj failed).symm, .inr (by omega)⟩
  · exact ⟨(Except.error.inj failed).symm, .inl (by omega)⟩

/-- A read follows a map of the contents. -/
theorem readAt_map {β : Type*} (f : α → β) (xs : List α) (slot : ℤ) :
    readAt fault (xs.map f) slot = (readAt fault xs slot).map f := by
  unfold readAt
  split_ifs
  · rw [List.getElem?_map]
    cases xs[slot.toNat]? <;> rfl
  · rfl

/-- A write follows a map of the contents. -/
theorem writeAt_map {β : Type*} (f : α → β) (xs : List α) (slot : ℤ) (a : α) :
    writeAt fault (xs.map f) slot (f a) = (writeAt fault xs slot a).map (List.map f) := by
  unfold writeAt
  rw [List.length_map]
  split_ifs
  · rw [← List.map_set]
    rfl
  · rfl

/-- Slots behind the one read do not matter. -/
theorem readAt_take {xs : List α} {slot : ℤ} {k : ℕ} {a : α} (found : readAt fault xs slot = .ok a)
    (inside : slot < k) : readAt fault (xs.take k) slot = .ok a := by
  unfold readAt at found ⊢
  split_ifs at found ⊢ with nonneg
  rwa [List.getElem?_take_of_lt (by omega)]

/-- Slots behind the one written do not matter. -/
theorem writeAt_take {xs ys : List α} {slot : ℤ} {k : ℕ} {a : α} (written : writeAt fault xs slot a = .ok ys)
    (inside : slot < k) : writeAt fault (xs.take k) slot a = .ok (ys.take k) := by
  unfold writeAt at written ⊢
  split_ifs at written with bound
  rw [if_pos (by rw [List.length_take]; omega), ← List.take_set, Except.ok.inj written]

section Sequence

universe u

variable {σ τ : Type u} {first : Except ε σ} {next : σ → Except ε τ}

/-- A sequence returns if both parts do. -/
theorem bind_eq_ok {t : τ} : first >>= next = .ok t ↔ ∃ s, first = .ok s ∧ next s = .ok t := by
  cases first with
  | error e => simp [bind, Except.bind]
  | ok s => simp [bind, Except.bind]

/-- A sequence fails where its first or its second part does. -/
theorem bind_eq_error {e : ε} : first >>= next = .error e ↔
    first = .error e ∨ ∃ s, first = .ok s ∧ next s = .error e := by
  cases first with
  | error e => simp [bind, Except.bind]
  | ok s => simp [bind, Except.bind]

/-- Two sequences with one first part. -/
theorem bind_map_right {τ' : Type u} {next' : σ → Except ε τ'} {g : τ → τ'}
    (follows : ∀ s, next' s = (next s).map g) : first >>= next' = (first >>= next).map g := by
  cases first with
  | error e => rfl
  | ok s => exact follows s

/-- A sequence follows another one if both parts do. -/
theorem bind_map {σ' τ' : Type u} {first' : Except ε σ'} {next' : σ' → Except ε τ'} {f : σ → σ'}
    {g : τ → τ'} (starts : first' = first.map f) (follows : ∀ s, next' (f s) = (next s).map g) :
    first' >>= next' = (first >>= next).map g := by
  subst starts
  cases first with
  | error e => rfl
  | ok s => exact follows s

end Sequence

end CheckedAccess
