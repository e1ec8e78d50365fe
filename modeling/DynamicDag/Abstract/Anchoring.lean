import DynamicDag.Abstract.Relocation

/-! # Anchors

Every node has an anchor: the tail it is put back after, or the node itself if it stays. The order after
the moves is that of the anchors before them, and an anchor comes directly before the nodes it anchors.
-/

namespace DynamicDag

open Numbering Reinsertion

variable {α : Type*} {succ : α → List α} {index other : α → ℤ} {nodes : List α}
  {edges found : List (α × α)} {v w a b : α}

/-- The node is put back after `a`, or stays and is `a`. -/
def Anchored (moves : List (α × α)) (v a : α) : Prop :=
  (v, a) ∈ moves ∨ v = a ∧ v ∉ moves.map Prod.fst

theorem exists_anchored (moves : List (α × α)) (v : α) : ∃ a, Anchored moves v a := by
  obtain member | stays := em (v ∈ moves.map Prod.fst)
  · obtain ⟨m, listed, rfl⟩ := List.mem_map.mp member
    exact ⟨m.2, .inl listed⟩
  · exact ⟨v, .inr ⟨rfl, stays⟩⟩

namespace Anchored

variable [DecidableEq α] {moves : List (α × α)}

theorem mem_kept (anchored : Anchored moves v a) (movable : Movable moves nodes) (member : v ∈ nodes) :
    a ∈ kept moves nodes := by
  obtain listed | ⟨rfl, stays⟩ := anchored
  · exact Reinsertion.mem_kept.mpr ⟨movable.target _ listed, movable.fixed _ listed⟩
  · exact Reinsertion.mem_kept.mpr ⟨member, stays⟩

theorem mem_reinsert (anchored : Anchored moves v a) {part : List α} (inside : a ∈ kept moves part) :
    v ∈ reinsert moves part := by
  obtain listed | ⟨rfl, _⟩ := anchored
  · exact Reinsertion.mem_reinsert.mpr (.inr ⟨a, inside, listed⟩)
  · exact Reinsertion.mem_reinsert.mpr (.inl inside)

variable (movable : Movable moves nodes) (numbered : Numbered index nodes)
  (renumbered : Numbered other (reinsert moves nodes))

include movable numbered renumbered

/-- Nodes follow the order of their anchors. -/
theorem before (left : Anchored moves v a) (right : Anchored moves w b) (inLeft : v ∈ nodes)
    (inRight : w ∈ nodes) (order : index a < index b) : other v < other w := by
  obtain ⟨inA, staysA⟩ := Reinsertion.mem_kept.mp (left.mem_kept movable inLeft)
  obtain ⟨inB, staysB⟩ := Reinsertion.mem_kept.mp (right.mem_kept movable inRight)
  obtain ⟨slot, _, _, atSlot⟩ := numbered.exists_slot inB
  have split := renumbered.pairwise_lt
  rw [← List.take_append_drop slot nodes, reinsert_append, List.pairwise_append] at split
  have first : a ∈ nodes.take slot := (numbered.mem_take_iff inA slot).mpr (by omega)
  have second : b ∈ nodes.drop slot := (numbered.mem_drop_iff inB slot).mpr (by omega)
  exact split.2.2 v (left.mem_reinsert (Reinsertion.mem_kept.mpr ⟨first, staysA⟩)) w
    (right.mem_reinsert (Reinsertion.mem_kept.mpr ⟨second, staysB⟩))

theorem le_of_lt (left : Anchored moves v a) (right : Anchored moves w b) (inLeft : v ∈ nodes)
    (inRight : w ∈ nodes) (order : other v < other w) : index a ≤ index b := by
  by_contra above
  have := before movable numbered renumbered right left inRight inLeft (by omega)
  omega

omit numbered

omit movable in
/-- The block of an anchor comes after it. -/
theorem block_pairwise_lt (inside : a ∈ kept moves nodes) :
    (a :: block moves a).Pairwise fun v w => other v < other w :=
  (List.pairwise_flatMap.mp renumbered.pairwise_lt).1 a inside

/-- A moved node comes after its tail. -/
theorem tail_lt (listed : (v, a) ∈ moves) : other a < other v :=
  (List.pairwise_cons.mp (block_pairwise_lt renumbered
    (mem_kept (.inl listed) movable (movable.source _ listed)))).1 v (mem_block.mpr listed)

end Anchored

theorem Anchored.eq_of_mem (anchored : Anchored found v a) (unique : (found.map Prod.fst).Nodup)
    (listed : (v, b) ∈ found) : a = b := by
  obtain pair | ⟨_, stays⟩ := anchored
  · exact target_unique unique pair listed
  · exact absurd (List.mem_map_of_mem listed) stays

theorem Anchored.index_le (anchored : Anchored found v a) (frontier : Frontier succ index edges found) :
    index v ≤ index a := by
  obtain pair | ⟨rfl, _⟩ := anchored
  · exact (frontier.below _ pair).le
  · exact le_rfl

/-- An edge does not lead back to an earlier anchor. -/
theorem Frontier.anchor_le (frontier : Frontier succ index edges found)
    (ascends : index v < index w ∨ (v, w) ∈ edges) (edge : w ∈ succ v) (left : Anchored found v a)
    (right : Anchored found w b) : index a ≤ index b := by
  have behind := right.index_le frontier
  obtain pair | ⟨rfl, _⟩ := left
  · obtain below | above := lt_or_ge (index w) (index a)
    · obtain ⟨m, member, rfl⟩ := List.mem_map.mp (frontier.settled.mem pair edge below)
      rw [right.eq_of_mem frontier.nodup member]
      exact frontier.tail_le_of_succ pair member edge below
    · exact above.trans behind
  · obtain up | invalid := ascends
    · exact up.le.trans behind
    · obtain ⟨m, member, rfl, high⟩ := frontier.reached _ invalid w .refl
      rwa [right.eq_of_mem frontier.nodup member]

/-- Within a block every edge ascends. -/
theorem Frontier.lt_of_block [DecidableEq α] (frontier : Frontier succ index edges found)
    (renumbered : Numbered other (reinsert found nodes)) (stays : a ∈ kept found nodes) (different : v ≠ w)
    (left : (v, a) ∈ found) (right : (w, a) ∈ found) (edge : w ∈ succ v) : other v < other w := by
  have apart : (block found a).Pairwise fun p q =>
      (p ∉ succ q ∧ other p < other q) ∨ (q ∉ succ p ∧ other q < other p) :=
    (frontier.block_pairwise a).imp₂ (fun _ _ back order => .inl ⟨back, order⟩)
      (Anchored.block_pairwise_lt renumbered stays).of_cons
  have : Std.Symm fun p q : α => (p ∉ succ q ∧ other p < other q) ∨ (q ∉ succ p ∧ other q < other p) :=
    ⟨fun _ _ => Or.symm⟩
  obtain ⟨_, before⟩ | ⟨absent, _⟩ := apart.forall (mem_block.mpr left) (mem_block.mpr right) different
  · exact before
  · exact absurd edge absent

/-- After the moves every edge ascends, except from a moved node to the tail it was put behind. -/
theorem Frontier.lt_or_mem [DecidableEq α] (frontier : Frontier succ index edges found)
    (numbered : Numbered index nodes) (closed : ∀ v ∈ nodes, ∀ w ∈ succ v, w ∈ nodes)
    (listed : Listed succ index nodes edges)
    (ascends : ∀ v ∈ nodes, ∀ w ∈ succ v, index v < index w ∨ (v, w) ∈ edges)
    (renumbered : Numbered other (reinsert found nodes)) (member : v ∈ nodes) (edge : w ∈ succ v) :
    other v < other w ∨ (v, w) ∈ found := by
  have movable := frontier.movable listed closed
  have inside := closed v member w edge
  obtain ⟨a, left⟩ := exists_anchored found v
  obtain ⟨b, right⟩ := exists_anchored found w
  have keptA := (mem_kept.mp (left.mem_kept movable member)).1
  have keptB := (mem_kept.mp (right.mem_kept movable inside)).1
  have order := frontier.anchor_le (ascends v member w edge) edge left right
  have noLoop : v ≠ w := by
    rintro rfl
    obtain up | invalid := ascends v member v edge
    · exact lt_irrefl _ up
    · exact lt_irrefl _ (frontier.head_lt_tail numbered listed invalid)
  obtain before | same := order.lt_or_eq
  · exact .inl (left.before movable numbered renumbered right member inside before)
  · have stays := left.mem_kept movable member
    obtain rfl := numbered.injOn (mem_kept.mp stays).1 (mem_kept.mp (right.mem_kept movable inside)).1 same
    obtain leftPair | ⟨rfl, _⟩ := left
    · obtain rightPair | ⟨rfl, _⟩ := right
      · exact .inl (frontier.lt_of_block renumbered stays noLoop leftPair rightPair edge)
      · exact .inr leftPair
    · obtain rightPair | ⟨same, _⟩ := right
      · exact .inl (Anchored.tail_lt movable renumbered rightPair)
      · exact absurd same.symm noLoop

end DynamicDag
