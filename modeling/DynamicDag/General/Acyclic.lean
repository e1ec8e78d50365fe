import Mathlib.Logic.Relation
import Mathlib.Order.WellFounded
import Mathlib.Data.Finset.Lattice.Fold
import Mathlib.Data.Fintype.EquivFin
import Mathlib.Order.Preorder.Finite

/-! # Relations without directed cycles

A rank that grows along every edge excludes cycles, and conversely a finite nonempty set of an
acyclic relation has a member that no other member points to. These are the two facts by which a
topological order certifies acyclicity and by which one can always be extended.
-/

open Relation

/-- What is reached depends on the steps from what is reached. -/
theorem reflTransGen_congr_of_reached {α : Type*} {step other : α → α → Prop} {a : α}
    (same : ∀ b, ReflTransGen step a b → ∀ c, step b c ↔ other b c) (b : α) :
    ReflTransGen step a b ↔ ReflTransGen other a b := by
  constructor
  · intro path
    induction path with
    | refl => exact .refl
    | tail before last ih => exact ih.tail ((same _ before _).mp last)
  · intro path
    induction path with
    | refl => exact .refl
    | tail _ last ih => exact ih.tail ((same _ ih _).mpr last)

/-- No element reaches itself by one or more edges. -/
def Acyclic {α : Type*} (edge : α → α → Prop) : Prop := ∀ a, ¬ TransGen edge a a

namespace Acyclic

variable {α κ : Type*} {edge other : α → α → Prop}

theorem mono (acyclic : Acyclic other) (sub : ∀ a b, edge a b → other a b) : Acyclic edge :=
  fun a cycle => acyclic a (TransGen.mono sub a a cycle)

theorem irrefl (acyclic : Acyclic edge) (a : α) : ¬ edge a a :=
  fun loop => acyclic a (.single loop)

/-- A rank that grows along every edge excludes cycles. -/
theorem of_rank [Preorder κ] (rank : α → κ) (grows : ∀ a b, edge a b → rank a < rank b) :
    Acyclic edge := by
  have reached : ∀ a b, TransGen edge a b → rank a < rank b := by
    intro a b path
    induction path with
    | single step => exact grows _ _ step
    | tail _ step before => exact before.trans (grows _ _ step)
  exact fun a cycle => lt_irrefl _ (reached a a cycle)

/-- Renaming the elements that have edges makes and breaks no cycle. -/
theorem comap_iff {β : Type*} {name : β → α} (injective : Function.Injective name)
    (named : ∀ a b, edge a b → a ∈ Set.range name ∧ b ∈ Set.range name) :
    Acyclic (fun i j => edge (name i) (name j)) ↔ Acyclic edge := by
  have lifted : ∀ i b, TransGen edge (name i) b →
      ∃ j, name j = b ∧ TransGen (fun i j => edge (name i) (name j)) i j := by
    intro i b path
    induction path with
    | single step =>
      obtain ⟨j, rfl⟩ := (named _ _ step).2
      exact ⟨j, rfl, .single step⟩
    | tail _ step ih =>
      obtain ⟨j, rfl, before⟩ := ih
      obtain ⟨k, rfl⟩ := (named _ _ step).2
      exact ⟨k, rfl, before.tail step⟩
  constructor
  · intro acyclic a cycle
    obtain ⟨_, first, _⟩ := TransGen.head'_iff.mp cycle
    obtain ⟨i, rfl⟩ := (named _ _ first).1
    obtain ⟨j, same, closed⟩ := lifted i _ cycle
    rw [injective same] at closed
    exact acyclic i closed
  · intro acyclic i cycle
    exact acyclic (name i) (TransGen.lift name (fun _ _ step => step) i i cycle)

/-- An acyclic relation on a finite nonempty set has a source within the set. -/
theorem exists_source (acyclic : Acyclic edge) {members : Finset α} (nonempty : members.Nonempty) :
    ∃ a ∈ members, ∀ b ∈ members, ¬ edge b a := by
  let before : Preorder α :=
    { le := ReflTransGen edge
      le_refl := fun _ => .refl
      le_trans := fun _ _ _ => ReflTransGen.trans }
  obtain ⟨a, member, least⟩ := members.exists_minimal nonempty
  refine ⟨a, member, fun b other step => ?_⟩
  have back : ReflTransGen edge a b := least other (ReflTransGen.single step)
  exact acyclic a (TransGen.tail' back step)

end Acyclic
