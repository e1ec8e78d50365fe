import Mathlib.Data.List.Permutation
import Mathlib.Logic.Equiv.Basic
import Mathlib.Algebra.BigOperators.Group.Finset.Basic
import Mathlib.Algebra.Group.End

/-! # Arrangements and the order of chosen entries

The arrangements of a list without duplicates, divided by the order in which the chosen entries appear.
Renaming the chosen entries carries one class to any other, so that all classes have the same size: a
uniform arrangement puts the chosen entries in a uniform order.
-/

namespace Arrangements

variable {α : Type*} {xs ys : List α}

/-- A rearrangement is a renaming that moves nothing else. -/
theorem exists_renaming [DecidableEq α] (perm : xs.Perm ys) (unique : xs.Nodup) :
    ∃ σ : Equiv.Perm α, xs.map σ = ys ∧ ∀ a, a ∉ xs → σ a = a := by
  induction perm with
  | nil => exact ⟨1, rfl, fun _ _ => rfl⟩
  | @cons a xs ys _ ih =>
    obtain ⟨fresh, uniqueRest⟩ := List.nodup_cons.mp unique
    obtain ⟨σ, maps, fixes⟩ := ih uniqueRest
    refine ⟨σ, by rw [List.map_cons, maps, fixes a fresh], fun b other => fixes b ?_⟩
    exact fun inRest => other (List.mem_cons_of_mem _ inRest)
  | swap a b xs =>
    refine ⟨Equiv.swap a b, ?_, fun c other => ?_⟩
    · have rest : xs.map (Equiv.swap a b) = xs := by
        refine (List.map_congr_left fun c member => ?_).trans (List.map_id xs)
        refine Equiv.swap_apply_of_ne_of_ne ?_ ?_ <;> rintro rfl <;> simp_all
      rw [List.map_cons, List.map_cons, Equiv.swap_apply_left, Equiv.swap_apply_right, rest]
    · exact Equiv.swap_apply_of_ne_of_ne (by rintro rfl; simp at other) (by rintro rfl; simp at other)
  | trans first _ ih ih' =>
    obtain ⟨σ, maps, fixes⟩ := ih unique
    obtain ⟨τ, maps', fixes'⟩ := ih' (first.nodup_iff.mp unique)
    refine ⟨σ.trans τ, ?_, fun a other => ?_⟩
    · rw [← maps', ← maps, List.map_map]
      rfl
    · rw [Equiv.trans_apply, fixes a other, fixes' a (mt first.mem_iff.mpr other)]

variable [DecidableEq α] {nodes first second : List α} {chosen : α → Bool}

/-- The arrangements of a list in which the chosen entries appear in a given order. -/
def ordered (nodes : List α) (chosen : α → Bool) (order : List α) : Finset (List α) :=
  {xs ∈ nodes.permutations.toFinset | xs.filter chosen = order}

theorem mem_ordered {order : List α} :
    xs ∈ ordered nodes chosen order ↔ xs.Perm nodes ∧ xs.filter chosen = order := by
  rw [ordered, Finset.mem_filter, List.mem_toFinset, List.mem_permutations]

theorem card_arrangements (unique : nodes.Nodup) : nodes.permutations.toFinset.card = nodes.length.factorial := by
  rw [List.toFinset_card_of_nodup (List.nodup_permutations nodes unique), List.length_permutations]

/-- A renaming of the chosen entries carries arrangements to arrangements. -/
theorem card_ordered_le (unique : nodes.Nodup) (left : first.Perm (nodes.filter chosen))
    (right : second.Perm (nodes.filter chosen)) :
    (ordered nodes chosen first).card ≤ (ordered nodes chosen second).card := by
  obtain ⟨σ, maps, fixes⟩ := exists_renaming (left.trans right.symm) (left.nodup_iff.mpr (unique.filter _))
  have inFirst {a : α} : a ∈ first ↔ a ∈ nodes ∧ chosen a = true := by rw [left.mem_iff, List.mem_filter]
  have inSecond {a : α} : a ∈ second ↔ a ∈ nodes ∧ chosen a = true := by rw [right.mem_iff, List.mem_filter]
  have stays : ∀ a ∈ nodes, σ a ∈ nodes ∧ chosen (σ a) = chosen a := by
    intro a member
    by_cases picked : a ∈ first
    · have image : σ a ∈ second := by
        rw [← maps]
        exact List.mem_map_of_mem picked
      rw [(inFirst.mp picked).2]
      exact inSecond.mp image
    · rw [fixes a picked]
      exact ⟨member, rfl⟩
  refine Finset.card_le_card_of_injOn (List.map σ) (fun xs member => ?_)
    (Function.Injective.injOn (List.map_injective_iff.mpr σ.injective))
  obtain ⟨perm, order⟩ := mem_ordered.mp member
  refine mem_ordered.mpr ⟨?_, ?_⟩
  · have inside : xs.map σ ⊆ nodes := by
      intro b image
      obtain ⟨a, listed, rfl⟩ := List.mem_map.mp image
      exact (stays a (perm.mem_iff.mp listed)).1
    have distinct : (xs.map σ).Nodup := (perm.nodup_iff.mpr unique).map σ.injective
    exact (distinct.subperm inside).perm_of_length_le (by rw [List.length_map, perm.length_eq])
  · rw [← maps, ← order, List.filter_map]
    congr 1
    exact List.filter_congr fun a listed => (stays a (perm.mem_iff.mp listed)).2

/-- Every order of the chosen entries appears in the same share of the arrangements. -/
theorem card_ordered (unique : nodes.Nodup) (perm : first.Perm (nodes.filter chosen)) :
    (ordered nodes chosen first).card * (nodes.filter chosen).length.factorial = nodes.length.factorial := by
  have sorts : ∀ xs ∈ nodes.permutations.toFinset,
      xs.filter chosen ∈ (nodes.filter chosen).permutations.toFinset := by
    intro xs member
    rw [List.mem_toFinset, List.mem_permutations] at member ⊢
    exact member.filter _
  rw [← card_arrangements unique, Finset.card_eq_sum_card_fiberwise sorts, ← card_arrangements (unique.filter _),
    Nat.mul_comm]
  refine (Finset.sum_const_nat fun second member => ?_).symm
  rw [List.mem_toFinset, List.mem_permutations] at member
  exact le_antisymm (card_ordered_le unique member perm) (card_ordered_le unique perm member)

end Arrangements
