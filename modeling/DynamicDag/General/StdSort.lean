import Mathlib.Data.List.Sort
import Mathlib.Data.List.Perm.Basic
import Mathlib.Data.Set.List

/-! # Sorting by a strict comparator

A sorting procedure receives a comparator that answers whether its first argument must come before
its second. On a strict weak order it delivers some sorted arrangement; entries that the comparator
does not separate may stand in any order. A stable procedure keeps every sublist that is sorted
already. Insertion sort is the stable one used for concrete runs.
-/

/-- The comparators a sorting procedure accepts. -/
structure StrictWeakOrder {α : Type*} (less : α → α → Bool) : Prop where
  asymm : ∀ a b, less a b = true → less b a = false
  cotrans : ∀ a b c, less a c = true → less a b = true ∨ less b c = true

/-- No entry must come before an earlier one. -/
abbrev Arranged {α : Type*} (less : α → α → Bool) (xs : List α) : Prop :=
  xs.Pairwise (fun a b => less b a = false)

/-- A sorting procedure, known only by the arrangement it guarantees. -/
structure StdSort (α : Type*) where
  sort : (α → α → Bool) → List α → List α
  perm : ∀ less xs, StrictWeakOrder less → (sort less xs).Perm xs
  arranged : ∀ less xs, StrictWeakOrder less → Arranged less (sort less xs)

namespace StdSort

variable {α : Type*}

/-- Arranged sublists survive, so that entries the comparator does not separate keep their order. -/
def Stable (procedure : StdSort α) : Prop :=
  ∀ less (xs ys : List α), StrictWeakOrder less → ys.Sublist xs → Arranged less ys →
    ys.Sublist (procedure.sort less xs)

/-- A stable procedure leaves an arranged list alone. -/
theorem Stable.sort_eq {procedure : StdSort α} (stable : procedure.Stable) {less : α → α → Bool}
    (order : StrictWeakOrder less) {xs : List α} (arranged : Arranged less xs) :
    procedure.sort less xs = xs :=
  ((stable less xs xs order (.refl xs) arranged).eq_of_length (procedure.perm less xs order).length_eq.symm).symm

/-- The other procedure moves the images of the entries as this one moves the entries. -/
def Follows {β : Type*} (other : StdSort β) (procedure : StdSort α) (f : α → β) : Prop :=
  ∀ less less' xs, StrictWeakOrder less → (∀ a ∈ xs, ∀ b ∈ xs, less' (f a) (f b) = less a b) →
    other.sort less' (xs.map f) = (procedure.sort less xs).map f

/-- A procedure that learns about its entries only by comparing them, and so moves them alike under
every renaming. -/
def Comparing (procedure : StdSort α) : Prop := ∀ f : α → α, procedure.Follows procedure f

section Restrict

variable {β : Type*} (f : α ↪ β) (less : α → α → Bool)

open Classical in
/-- A comparator of the entries as one of the images; everything else comes last. -/
noncomputable def lift (a b : β) : Bool :=
  decide (∃ u, f u = a ∧ ∀ v, f v = b → less u v = true)

theorem lift_apply (a b : α) : lift f less (f a) (f b) = less a b := by
  rw [Bool.eq_iff_iff]
  simp only [lift, decide_eq_true_eq]
  constructor
  · rintro ⟨u, same, before⟩
    rw [← f.injective same]
    exact before b rfl
  · intro before
    refine ⟨a, rfl, fun v same => ?_⟩
    rwa [f.injective same]

theorem lift_strictWeakOrder {less : α → α → Bool} (order : StrictWeakOrder less) :
    StrictWeakOrder (lift f less) where
  asymm a b before := by
    simp only [lift, decide_eq_true_eq, decide_eq_false_iff_not] at *
    obtain ⟨u, rfl, below⟩ := before
    rintro ⟨v, rfl, above⟩
    have := order.asymm u v (below v rfl)
    rw [above u rfl] at this
    contradiction
  cotrans a b c before := by
    simp only [lift, decide_eq_true_eq] at *
    obtain ⟨u, rfl, below⟩ := before
    by_cases inside : ∃ v, f v = b
    · obtain ⟨v, rfl⟩ := inside
      by_cases first : less u v = true
      · refine .inl ⟨u, rfl, fun w same => ?_⟩
        rwa [f.injective same]
      · refine .inr ⟨v, rfl, fun w same => ?_⟩
        exact (order.cotrans u v w (below w same)).resolve_left first
    · exact .inl ⟨u, rfl, fun v same => absurd ⟨v, same⟩ inside⟩

/-- A procedure that only compares is a procedure on every smaller type, seen from any map. -/
theorem Comparing.exists_follows {procedure : StdSort β} (comparing : procedure.Comparing) (f : α ↪ β) :
    ∃ smaller : StdSort α, ∀ g : α → β, procedure.Follows smaller g := by
  classical
  have preimage : ∀ less (xs : List α), ∃ ys : List α, StrictWeakOrder less →
      ys.map f = procedure.sort (lift f less) (xs.map f) := by
    intro less xs
    by_cases order : StrictWeakOrder less
    · have inside : procedure.sort (lift f less) (xs.map f) ∈ Set.range (List.map f) := by
        rw [Set.range_list_map]
        intro b member
        have listed := (procedure.perm _ _ (lift_strictWeakOrder f order)).mem_iff.mp member
        obtain ⟨a, _, rfl⟩ := List.mem_map.mp listed
        exact ⟨a, rfl⟩
      obtain ⟨ys, same⟩ := inside
      exact ⟨ys, fun _ => same⟩
    · exact ⟨[], fun accepted => absurd accepted order⟩
  choose sort image using preimage
  refine ⟨⟨sort, fun less xs order => ?_, fun less xs order => ?_⟩, fun g less less' xs order agree => ?_⟩
  · have perm := procedure.perm _ (xs.map f) (lift_strictWeakOrder f order)
    rw [← image less xs order] at perm
    exact (List.map_perm_map_iff f.injective).mp perm
  · have arranged := procedure.arranged _ (xs.map f) (lift_strictWeakOrder f order)
    rw [← image less xs order, Arranged, List.pairwise_map] at arranged
    exact arranged.imp fun before => by rwa [lift_apply] at before
  · -- renaming the images of `f` to those of `g`
    have renamed : ∀ ys : List α, (ys.map f).map (Function.extend f g id) = ys.map g := by
      intro ys
      rw [List.map_map, Function.extend_comp f.injective]
    rw [← renamed xs, ← renamed (sort less xs), image less xs order]
    apply comparing _ _ _ _ (lift_strictWeakOrder f order)
    intro a left b right
    obtain ⟨u, inside, rfl⟩ := List.mem_map.mp left
    obtain ⟨v, member, rfl⟩ := List.mem_map.mp right
    rw [f.injective.extend_apply, f.injective.extend_apply, agree u inside v member, lift_apply]

end Restrict

/-- Insertion sort with the converse comparator as its order. -/
def insertion (α : Type*) : StdSort α where
  sort less xs := xs.insertionSort (fun a b => less b a = false)
  perm _ xs _ := xs.perm_insertionSort _
  arranged less xs order := by
    have : Std.Total (fun a b : α => less b a = false) := ⟨fun a b => by
      by_contra separated
      rw [not_or, Bool.not_eq_false, Bool.not_eq_false] at separated
      have := order.asymm _ _ separated.1
      rw [separated.2] at this
      contradiction⟩
    have : IsTrans α (fun a b : α => less b a = false) := ⟨fun a b c first second => by
      by_contra separated
      rw [Bool.not_eq_false] at separated
      cases order.cotrans c b a separated with
      | inl before =>
        rw [second] at before
        contradiction
      | inr after =>
        rw [first] at after
        contradiction⟩
    exact xs.pairwise_insertionSort _

theorem insertion_stable : (insertion α).Stable :=
  fun _ _ _ _ inside arranged => List.sublist_insertionSort arranged inside

theorem insertion_follows {β : Type*} (f : α → β) : (insertion β).Follows (insertion α) f := by
  intro less less' xs _ agree
  symm
  apply List.map_insertionSort
  intro a left b right
  rw [agree b right a left]

theorem insertion_comparing : (insertion α).Comparing := insertion_follows

end StdSort
