import DynamicDag.General.Acyclic
import Mathlib.Data.Finset.Prod
import Mathlib.Data.Nat.Choose.Basic
import Mathlib.Data.Fintype.Prod
import Mathlib.Data.Fintype.Card

/-! # How many arcs a simple directed graph can have

Arcs are ordered pairs of distinct nodes. Without a restriction all of them can be present at once.
An acyclic set of arcs has at most one of each pair and its converse, and the ascending pairs of any
linear order show that it can have all of these.
-/

namespace ArcCount

open Finset Relation

variable {α : Type*} [Fintype α]

theorem card_loopFree [DecidableEq α] :
    (univ : Finset α).offDiag.card = Fintype.card α * (Fintype.card α - 1) := by
  rw [offDiag_card, Finset.card_univ, Nat.mul_sub_one]

/-- A set of `count` arcs without loops exists exactly up to the number of ordered pairs. -/
theorem exists_loopFree_iff [DecidableEq α] (count : ℕ) :
    (∃ arcs : Finset (α × α), arcs.card = count ∧ ∀ e ∈ arcs, e.1 ≠ e.2) ↔
      count ≤ Fintype.card α * (Fintype.card α - 1) := by
  rw [← card_loopFree]
  constructor
  · rintro ⟨arcs, rfl, loopFree⟩
    exact card_le_card fun e member => mem_offDiag.mpr ⟨mem_univ _, mem_univ _, loopFree e member⟩
  · intro fits
    obtain ⟨arcs, sub, size⟩ := exists_subset_card_eq fits
    exact ⟨arcs, size, fun e member => (mem_offDiag.mp (sub member)).2.2⟩

omit [Fintype α] in
/-- Fewer names than arcs leave an arc without its name. -/
theorem exists_unused {β : Type*} {arcs : Finset (α × α)} {used : Finset β} (name : α × α ↪ β)
    (fewer : used.card < arcs.card) : ∃ e ∈ arcs, name e ∉ used := by
  rw [← card_map name] at fewer
  obtain ⟨_, member, unused⟩ := exists_mem_notMem_of_card_lt_card fewer
  obtain ⟨e, inArcs, rfl⟩ := mem_map.mp member
  exact ⟨e, inArcs, unused⟩

omit [Fintype α] in
/-- The arcs of an acyclic set are no loops. -/
theorem ne_of_acyclic {arcs : Finset (α × α)} (acyclic : Acyclic fun a b => (a, b) ∈ arcs) {e : α × α}
    (member : e ∈ arcs) : e.1 ≠ e.2 := by
  obtain ⟨a, b⟩ := e
  intro (same : a = b)
  exact acyclic.irrefl b (same ▸ member)

variable [LinearOrder α]

/-- The ascending pairs. -/
def ascending (α : Type*) [Fintype α] [LinearOrder α] : Finset (α × α) :=
  {e ∈ univ ×ˢ univ | e.1 < e.2}

theorem mem_ascending {e : α × α} : e ∈ ascending α ↔ e.1 < e.2 := by
  simp [ascending]

theorem card_ascending : (ascending α).card = Fintype.card α * (Fintype.card α - 1) / 2 := by
  rw [ascending, card_product_filter_lt, Finset.card_univ, Nat.choose_two_right]

/-- An acyclic set has no more arcs than there are ascending pairs. -/
theorem card_le_ascending {arcs : Finset (α × α)} (acyclic : Acyclic fun a b => (a, b) ∈ arcs) :
    arcs.card ≤ (ascending α).card := by
  refine card_le_card_of_injOn (fun e => (min e.1 e.2, max e.1 e.2)) ?_ ?_
  · intro e member
    exact mem_coe.mpr (mem_ascending.mpr (min_lt_max.mpr (ne_of_acyclic acyclic (mem_coe.mp member))))
  · -- an arc and its converse would be a cycle
    rintro ⟨a, b⟩ left ⟨c, d⟩ right same
    have twoCycle : ∀ x y, (x, y) ∈ arcs → (y, x) ∉ arcs := fun x y there back =>
      acyclic x (.tail (.single there) back)
    simp only [Prod.mk.injEq] at same ⊢
    rw [mem_coe] at left right
    rcases le_total a b with ab | ba <;> rcases le_total c d with cd | dc
    · simpa [ab, cd] using same
    · simp only [ab, dc, min_eq_left, max_eq_right, min_eq_right, max_eq_left] at same
      obtain ⟨rfl, rfl⟩ := same
      exact absurd right (twoCycle _ _ left)
    · simp only [ba, cd, min_eq_left, max_eq_right, min_eq_right, max_eq_left] at same
      obtain ⟨rfl, rfl⟩ := same
      exact absurd right (twoCycle _ _ left)
    · simpa [ba, dc, and_comm] using same

/-- An acyclic set of `count` arcs exists exactly up to half the number of ordered pairs. -/
theorem exists_acyclic_iff (count : ℕ) :
    (∃ arcs : Finset (α × α), arcs.card = count ∧ Acyclic fun a b => (a, b) ∈ arcs) ↔
      count ≤ Fintype.card α * (Fintype.card α - 1) / 2 := by
  rw [← card_ascending]
  constructor
  · rintro ⟨arcs, rfl, acyclic⟩
    exact card_le_ascending acyclic
  · intro fits
    obtain ⟨arcs, sub, size⟩ := exists_subset_card_eq fits
    exact ⟨arcs, size, .of_rank id fun a b member => mem_ascending.mp (sub member)⟩

end ArcCount
