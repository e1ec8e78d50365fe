import DynamicDag.General.Acyclic
import Mathlib.Algebra.BigOperators.Group.Finset.Basic
import Mathlib.Algebra.Order.BigOperators.Group.Finset
import Mathlib.Data.Finset.Prod

/-! # The pairs that a relation connects

Edges that are only added can only connect more pairs, and an acyclic relation connects no pair in both
directions. So the number of connected pairs is a potential that never falls and is bounded: what every step
charges to pairs that it newly connects is paid for once and for all.
-/

namespace RelatedPairs

open Finset Relation

variable {α : Type*} {members : Finset α} {edge between other : α → α → Prop}

open Classical in
/-- The pairs of members of which the first reaches the second. -/
noncomputable def related (members : Finset α) (edge : α → α → Prop) : Finset (α × α) :=
  {p ∈ members ×ˢ members | TransGen edge p.1 p.2}

theorem mem_related {p : α × α} :
    p ∈ related members edge ↔ (p.1 ∈ members ∧ p.2 ∈ members) ∧ TransGen edge p.1 p.2 := by
  classical
  rw [related, mem_filter, mem_product]

theorem related_mono (more : ∀ a b, edge a b → other a b) : related members edge ⊆ related members other := by
  intro p member
  obtain ⟨inside, path⟩ := mem_related.mp member
  exact mem_related.mpr ⟨inside, TransGen.mono more p.1 p.2 path⟩

variable [DecidableEq α]

/-- The pairs that the other relation connects in addition. -/
noncomputable def newlyRelated (members : Finset α) (edge other : α → α → Prop) : Finset (α × α) :=
  related members other \ related members edge

/-- An acyclic relation connects at most half of the ordered pairs. -/
theorem card_related_le (members : Finset α) (acyclic : Acyclic edge) :
    2 * (related members edge).card ≤ members.card * (members.card - 1) := by
  have apart : Disjoint (related members edge) ((related members edge).map (Equiv.prodComm α α).toEmbedding) := by
    rw [disjoint_right]
    intro p converse direct
    obtain ⟨q, member, rfl⟩ := mem_map.mp converse
    exact acyclic q.1 ((mem_related.mp member).2.trans (mem_related.mp direct).2)
  have inside : related members edge ∪ (related members edge).map (Equiv.prodComm α α).toEmbedding ⊆
      members.offDiag := by
    have different : ∀ p ∈ related members edge, p.1 ≠ p.2 := by
      intro p member same
      have path := (mem_related.mp member).2
      rw [same] at path
      exact acyclic p.2 path
    intro p member
    obtain direct | converse := mem_union.mp member
    · exact mem_offDiag.mpr ⟨(mem_related.mp direct).1.1, (mem_related.mp direct).1.2, different p direct⟩
    · obtain ⟨q, there, rfl⟩ := mem_map.mp converse
      exact mem_offDiag.mpr ⟨(mem_related.mp there).1.2, (mem_related.mp there).1.1, (different q there).symm⟩
  have bound := card_le_card inside
  rwa [card_union_of_disjoint apart, card_map, offDiag_card, ← Nat.mul_sub_one, ← Nat.two_mul] at bound

/-- What is charged to members that something newly reaches is charged to the pairs. -/
theorem sum_le_newlyRelated {touched : Finset α} (weight : α → ℕ)
    (anchored : ∀ v ∈ touched, ∃ u, (u, v) ∈ newlyRelated members edge other) :
    ∑ v ∈ touched, weight v ≤ ∑ p ∈ newlyRelated members edge other, weight p.2 := by
  choose! anchor pair using anchored
  have single : Set.InjOn (fun v => (anchor v, v)) touched := fun v _ w _ same => (Prod.mk.inj same).2
  calc ∑ v ∈ touched, weight v
      = ∑ p ∈ touched.image fun v => (anchor v, v), weight p.2 := by rw [sum_image single]
    _ ≤ ∑ p ∈ newlyRelated members edge other, weight p.2 := by
        refine sum_le_sum_of_subset fun p member => ?_
        obtain ⟨v, inside, rfl⟩ := mem_image.mp member
        exact pair v inside

/-- The pairs that two steps newly connect are the ones that both together do. -/
theorem sum_newlyRelated (first : ∀ a b, edge a b → between a b) (second : ∀ a b, between a b → other a b)
    (weight : α → ℕ) :
    ∑ p ∈ newlyRelated members edge between, weight p.2 + ∑ p ∈ newlyRelated members between other, weight p.2 =
      ∑ p ∈ newlyRelated members edge other, weight p.2 := by
  have apart : Disjoint (newlyRelated members edge between) (newlyRelated members between other) := by
    rw [disjoint_left]
    exact fun p old new => (mem_sdiff.mp new).2 (mem_sdiff.mp old).1
  rw [← sum_union apart, newlyRelated, newlyRelated, newlyRelated, union_comm,
    sdiff_union_sdiff_cancel (related_mono second) (related_mono first)]

end RelatedPairs
