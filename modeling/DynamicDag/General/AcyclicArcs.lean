import DynamicDag.General.ArcCount
import Mathlib.Algebra.BigOperators.Group.Finset.Basic
import Mathlib.Algebra.Order.BigOperators.Group.Finset
import Mathlib.Data.Finset.Powerset
import Mathlib.Data.Finset.Sort
import Mathlib.Data.Fintype.Perm
import Mathlib.Data.Real.Basic
import Mathlib.Order.Extension.Linear
import Mathlib.Tactic.Positivity
import Mathlib.Tactic.Ring

/-! # How many sets of arcs are acyclic

Every acyclic set of arcs ascends along some numbering of the nodes. There are factorially many numberings,
and the arcs that ascend along one of them are half of all; so among the sets of a number of arcs the acyclic
ones get rare exponentially in this number.
-/

namespace ArcCount

open Finset Relation

variable {α : Type*} [Fintype α]

/-- The edges of an acyclic relation ascend along some numbering. -/
theorem exists_numbering {edge : α → α → Prop} (acyclic : Acyclic edge) :
    ∃ number : α ≃ Fin (Fintype.card α), ∀ a b, edge a b → number a < number b := by
  have antisymm : ∀ a b, ReflTransGen edge a b → ReflTransGen edge b a → a = b := by
    intro a b there back
    obtain same | path := reflTransGen_iff_eq_or_transGen.mp there
    · exact same.symm
    · exact absurd (path.trans_left back) (acyclic a)
  let before : PartialOrder α :=
    { le := ReflTransGen edge
      le_refl := fun _ => .refl
      le_trans := fun _ _ _ => ReflTransGen.trans
      le_antisymm := antisymm }
  have : Fintype (LinearExtension α) := ‹Fintype α›
  have size : Fintype.card (LinearExtension α) = Fintype.card α := Fintype.card_congr (.refl α)
  let number := (Fintype.orderIsoFinOfCardEq (LinearExtension α) size).symm
  refine ⟨number.toEquiv, fun a b step => ?_⟩
  have up : toLinearExtension a ≤ toLinearExtension b := toLinearExtension.monotone (ReflTransGen.single step)
  refine number.lt_iff_lt.mpr (lt_of_le_of_ne up fun same => ?_)
  obtain rfl : a = b := same
  exact acyclic.irrefl a step

variable [DecidableEq α]

/-- The arcs that ascend along a numbering. -/
def along (number : α ≃ Fin (Fintype.card α)) : Finset (α × α) := {e | number e.1 < number e.2}

omit [DecidableEq α] in
theorem card_along (number : α ≃ Fin (Fintype.card α)) :
    (along number).card = Fintype.card α * (Fintype.card α - 1) / 2 := by
  have renamed : (along number).card = (ascending (Fin (Fintype.card α))).card :=
    card_equiv (number.prodCongr number) fun e => by simp [along, mem_ascending]
  rw [renamed, card_ascending, Fintype.card_fin]

open Classical in
/-- The acyclic sets of a number of arcs. -/
noncomputable def acyclicArcs (α : Type*) [Fintype α] (count : ℕ) : Finset (Finset (α × α)) :=
  {arcs ∈ univ.powersetCard count | Acyclic fun a b => (a, b) ∈ arcs}

omit [DecidableEq α] in
theorem mem_acyclicArcs {arcs : Finset (α × α)} {count : ℕ} :
    arcs ∈ acyclicArcs α count ↔ arcs.card = count ∧ Acyclic fun a b => (a, b) ∈ arcs := by
  simp [acyclicArcs, mem_powersetCard]

/-- Each acyclic set is found below one of the numberings. -/
theorem card_acyclicArcs_le (count : ℕ) : (acyclicArcs α count).card ≤
    (Fintype.card α).factorial * (Fintype.card α * (Fintype.card α - 1) / 2).choose count := by
  have covered : acyclicArcs α count ⊆
      (univ : Finset (α ≃ Fin (Fintype.card α))).biUnion fun number => (along number).powersetCard count := by
    intro arcs member
    obtain ⟨size, acyclic⟩ := mem_acyclicArcs.mp member
    obtain ⟨number, ascends⟩ := exists_numbering acyclic
    refine mem_biUnion.mpr ⟨number, mem_univ _, mem_powersetCard.mpr ⟨fun e inside => ?_, size⟩⟩
    exact mem_filter.mpr ⟨mem_univ _, ascends e.1 e.2 inside⟩
  calc (acyclicArcs α count).card
      ≤ ∑ number : α ≃ Fin (Fintype.card α), ((along number).powersetCard count).card :=
        (card_le_card covered).trans card_biUnion_le
    _ = (Fintype.card α).factorial * (Fintype.card α * (Fintype.card α - 1) / 2).choose count := by
        simp only [card_powersetCard, card_along, sum_const, card_univ, smul_eq_mul,
          Fintype.card_equiv (Fintype.equivFin α)]

/-- Half of the candidates make ever fewer of the choices. -/
theorem two_pow_mul_choose_le (half count : ℕ) : 2 ^ count * half.choose count ≤ (2 * half).choose count := by
  have falling : ∀ count, 2 ^ count * half.descFactorial count ≤ (2 * half).descFactorial count := by
    intro count
    induction count with
    | zero => simp
    | succ count ih =>
      calc 2 ^ (count + 1) * half.descFactorial (count + 1)
          = 2 * (half - count) * (2 ^ count * half.descFactorial count) := by
            rw [Nat.descFactorial_succ]
            ring
        _ ≤ (2 * half - count) * (2 * half).descFactorial count := Nat.mul_le_mul (by omega) ih
        _ = (2 * half).descFactorial (count + 1) := (Nat.descFactorial_succ _ _).symm
  have orders := falling count
  rw [Nat.descFactorial_eq_factorial_mul_choose, Nat.descFactorial_eq_factorial_mul_choose] at orders
  refine Nat.le_of_mul_le_mul_left ?_ count.factorial_pos
  calc count.factorial * (2 ^ count * half.choose count)
      = 2 ^ count * (count.factorial * half.choose count) := by ring
    _ ≤ count.factorial * (2 * half).choose count := orders

/-- Sets with at most one arc have no cycle, and only these can do no other. -/
theorem acyclicArcs_eq_iff (two : 2 ≤ Fintype.card α) {count : ℕ}
    (fits : count ≤ Fintype.card α * (Fintype.card α - 1)) :
    acyclicArcs α count = (univ : Finset α).offDiag.powersetCard count ↔ count ≤ 1 := by
  constructor
  · intro all
    by_contra more
    -- an arc and its converse, and any others
    obtain ⟨a, b, different⟩ := Fintype.one_lt_card_iff.mp two
    have pair : ({(a, b), (b, a)} : Finset (α × α)) ⊆ (univ : Finset α).offDiag := by
      intro e member
      rcases mem_insert.mp member with rfl | last
      · exact mem_offDiag.mpr ⟨mem_univ _, mem_univ _, different⟩
      · rw [mem_singleton.mp last]
        exact mem_offDiag.mpr ⟨mem_univ _, mem_univ _, different.symm⟩
    have two : ({(a, b), (b, a)} : Finset (α × α)).card = 2 := card_pair fun same => different (Prod.mk.inj same).1
    obtain ⟨arcs, more, inside, size⟩ :=
      exists_subsuperset_card_eq pair (n := count) (by omega) (by rwa [card_loopFree])
    have acyclic := (mem_acyclicArcs.mp (all ▸ mem_powersetCard.mpr ⟨inside, size⟩)).2
    exact acyclic a (.tail (.single (more (mem_insert_self _ _)))
      (more (mem_insert_of_mem (mem_singleton_self _))))
  · intro few
    ext arcs
    rw [mem_acyclicArcs, mem_powersetCard, and_comm]
    refine and_congr_left fun size => ⟨fun acyclic e member => ?_, fun inside a cycle => ?_⟩
    · exact mem_offDiag.mpr ⟨mem_univ _, mem_univ _, ne_of_acyclic acyclic member⟩
    · obtain ⟨b, first, _⟩ := TransGen.head'_iff.mp cycle
      obtain ⟨c, _, last⟩ := TransGen.tail'_iff.mp cycle
      have same := card_le_one.mp (size.trans_le few) _ first _ last
      obtain ⟨rfl, rfl⟩ := Prod.mk.inj same
      exact (mem_offDiag.mp (inside first)).2.2 rfl

/-- The share of the acyclic sets among the sets of a number of arcs. -/
noncomputable def acyclicShare (α : Type*) [Fintype α] (count : ℕ) : ℝ :=
  (acyclicArcs α count).card / (Fintype.card α * (Fintype.card α - 1)).choose count

theorem acyclicShare_fin (n count : ℕ) :
    acyclicShare (Fin n) count = (acyclicArcs (Fin n) count).card / (n * (n - 1)).choose count := by
  rw [acyclicShare, Fintype.card_fin]

omit [DecidableEq α] in
/-- All ordered pairs are twice the ascending ones. -/
theorem two_mul_half : 2 * (Fintype.card α * (Fintype.card α - 1) / 2) = Fintype.card α * (Fintype.card α - 1) :=
  Nat.two_mul_div_two_of_even (Nat.even_mul_pred_self _)

/-- The share of the sets that lie in one half. -/
theorem choose_half_div_le (half count : ℕ) :
    (half.choose count : ℝ) / (2 * half).choose count ≤ 1 / 2 ^ count := by
  obtain none | some := (Nat.zero_le ((2 * half).choose count)).eq_or_lt
  · rw [← none]
    simp
  · rw [div_le_div_iff₀ (by exact_mod_cast some) (by positivity), one_mul, mul_comm]
    exact_mod_cast two_pow_mul_choose_le half count

theorem acyclicShare_le (count : ℕ) : acyclicShare α count ≤ (Fintype.card α).factorial / 2 ^ count := by
  have union : ((acyclicArcs α count).card : ℝ) ≤
      (Fintype.card α).factorial * (Fintype.card α * (Fintype.card α - 1) / 2).choose count := by
    exact_mod_cast card_acyclicArcs_le count
  have part := choose_half_div_le (Fintype.card α * (Fintype.card α - 1) / 2) count
  rw [two_mul_half] at part
  calc acyclicShare α count
      ≤ (Fintype.card α).factorial * (Fintype.card α * (Fintype.card α - 1) / 2).choose count /
          (Fintype.card α * (Fintype.card α - 1)).choose count :=
        div_le_div_of_nonneg_right union (by positivity)
    _ ≤ (Fintype.card α).factorial * (1 / 2 ^ count) := by
        rw [mul_div_assoc]
        exact mul_le_mul_of_nonneg_left part (by positivity)
    _ = (Fintype.card α).factorial / 2 ^ count := mul_one_div _ _

theorem acyclicShare_eq_one_iff (two : 2 ≤ Fintype.card α) {count : ℕ}
    (fits : count ≤ Fintype.card α * (Fintype.card α - 1)) : acyclicShare α count = 1 ↔ count ≤ 1 := by
  have some : ((Fintype.card α * (Fintype.card α - 1)).choose count : ℝ) ≠ 0 := by
    exact_mod_cast (Nat.choose_pos fits).ne'
  have inside : acyclicArcs α count ⊆ (univ : Finset α).offDiag.powersetCard count := by
    intro arcs member
    obtain ⟨size, acyclic⟩ := mem_acyclicArcs.mp member
    exact mem_powersetCard.mpr ⟨fun e inArcs =>
      mem_offDiag.mpr ⟨mem_univ _, mem_univ _, ne_of_acyclic acyclic inArcs⟩, size⟩
  have all : ((univ : Finset α).offDiag.powersetCard count).card =
      (Fintype.card α * (Fintype.card α - 1)).choose count := by
    rw [card_powersetCard, card_loopFree]
  rw [← acyclicArcs_eq_iff two fits, acyclicShare, div_eq_one_iff_eq some, Nat.cast_inj, ← all]
  exact ⟨fun same => eq_of_subset_of_card_le inside same.ge, congrArg card⟩

omit [DecidableEq α] in
theorem acyclicShare_eq_zero_iff [LinearOrder α] {count : ℕ}
    (fits : count ≤ Fintype.card α * (Fintype.card α - 1)) :
    acyclicShare α count = 0 ↔ Fintype.card α * (Fintype.card α - 1) / 2 < count := by
  have some : ((Fintype.card α * (Fintype.card α - 1)).choose count : ℝ) ≠ 0 := by
    exact_mod_cast (Nat.choose_pos fits).ne'
  rw [← not_le, ← exists_acyclic_iff (α := α), acyclicShare, div_eq_zero_iff, or_iff_left some, Nat.cast_eq_zero,
    card_eq_zero, eq_empty_iff_forall_notMem, not_exists]
  exact forall_congr' fun arcs => not_congr mem_acyclicArcs

end ArcCount
