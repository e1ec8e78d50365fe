import DynamicDag.Proofs.Rejection

/-! # Where the nodes go

On a batch that keeps the graph acyclic, a call moves the nodes that some invalidating edge reaches
below its tail, and nothing else. Each goes directly after the last of these tails. What is not moved
keeps its order, and what lies between the ends of no invalidating edge keeps its index.
-/

namespace DynamicDag

open Relation Numbering Reinsertion

variable {Ptr : Type} [DecidableEq Ptr]

namespace Store

/-- `v` is reached from the head of an invalidating edge with tail `x` by a path below `x`, both ends
of the path included. -/
def Discovers (s : Store Ptr) (edges : List (Edge Ptr)) (x v : Ptr) : Prop :=
  ∃ y, (x, y) ∈ s.invalidating edges ∧ s.heap.index y < s.heap.index x ∧
    ReflTransGen (fun a b => s.AdjWith edges a b ∧ s.heap.index b < s.heap.index x) y v

/-- The last tail that discovers `v`. -/
def LastTail (s : Store Ptr) (edges : List (Edge Ptr)) (v x : Ptr) : Prop :=
  s.Discovers edges x v ∧ ∀ z, s.Discovers edges z v → s.heap.index z ≤ s.heap.index x

variable {s : Store Ptr} {edges : List (Edge Ptr)} {sort : StdSort (Edge Ptr)}

/-- What the searches of an accepted call displace is what is discovered. -/
theorem Accepted.displaces_iff {listed arranged : List (Edge Ptr)} {moves : EdgeQueue Ptr}
    (accepted : (appendAll edges s).Accepted sort listed arranged moves) (sorted : s.Sorted)
    (spans : s.Spans edges) (same : ∀ e, e ∈ arranged ↔ e ∈ s.invalidating edges) {x v : Ptr} :
    Displaces (appendAll edges s).heap.succ s.heap.index arranged x v ↔ s.Discovers edges x v := by
  have placed := sorted.appendAll_placed spans
  refine exists_congr fun y => ?_
  rw [same]
  refine and_congr_right fun invalid => ?_
  have listed := (same _).mpr invalid
  have below := accepted.pairs.head_lt_tail placed.numbered accepted.lists listed
  rw [appendAll_index] at below
  rw [and_iff_right below]
  constructor
  · intro reach
    induction reach with
    | refl => exact .refl
    | tail before last ih =>
      have inside := accepted.lists.reach_mem placed.closed listed (by rw [appendAll_index]; exact before)
      exact ih.tail ⟨(appendAll_adj spans _ _).mp ⟨inside, last.1⟩, last.2⟩
  · exact ReflTransGen.mono (fun _ _ step => ⟨((appendAll_adj spans _ _).mpr step.1).2, step.2⟩) _ _

/-- An accepted batch takes the discovered nodes out and puts each back directly after its last tail. -/
theorem insertEdges_places (sorted : s.Sorted) (spans : s.Spans edges)
    (acyclic : Acyclic (s.AdjWith edges)) (sort : StdSort (Edge Ptr)) :
    ∃ t, ∃ undiscovered : List Ptr, ∃ after : Ptr → List Ptr, insertEdges sort edges s = .ok () t ∧
      t.Indexed ∧ undiscovered.Sublist s.dag.nodes ∧
      (∀ v ∈ s.dag.nodes, v ∈ undiscovered ↔ ¬ ∃ x, s.Discovers edges x v) ∧
      (∀ u, (after u).Nodup ∧ ∀ v, v ∈ after u ↔ s.LastTail edges v u) ∧
      (∀ v x, s.LastTail edges v x → x ∈ undiscovered) ∧
      (∀ v, (∃ x, s.Discovers edges x v) → ∃ x, s.LastTail edges v x) ∧
      t.dag.nodes = undiscovered.flatMap (fun u => u :: after u) ∧
      (∀ v ∈ undiscovered, ∀ w ∈ undiscovered,
        t.heap.index v < t.heap.index w ↔ s.heap.index v < s.heap.index w) ∧
      ∀ v ∈ s.dag.nodes, (∀ e ∈ s.invalidating edges,
        ¬ (s.heap.index e.2 ≤ s.heap.index v ∧ s.heap.index v ≤ s.heap.index e.1)) →
          t.heap.index v = s.heap.index v := by
  have placed := sorted.appendAll_placed spans
  obtain ⟨arranged, moves, returned, accepted⟩ | ⟨first, second, moves, failed, rejected⟩ :=
    insertEdges_cases sorted spans sort
  · have movable := accepted.movable placed
    have same : ∀ e, e ∈ arranged ↔ e ∈ s.invalidating edges := fun e => mem_of_sort accepted.perm
    have numbered := (moved_placed placed movable).numbered
    have discovered {x v : Ptr} := accepted.displaces_iff sorted spans same (x := x) (v := v)
    have moved (v : Ptr) : v ∈ moves.map Prod.fst ↔ ∃ x, s.Discovers edges x v := by
      rw [accepted.pairs.moved_iff, appendAll_index]
      exact exists_congr fun x => discovered
    have pair (v x : Ptr) : (v, x) ∈ moves ↔ s.LastTail edges v x := by
      rw [accepted.pairs.pair_iff placed.numbered accepted.lists, appendAll_index, discovered]
      exact and_congr_right fun _ => forall_congr' fun z => by rw [discovered]
    have sublist : (kept moves s.dag.nodes).Sublist (reinsert moves s.dag.nodes) := by
      rw [← kept_reinsert]
      exact List.filter_sublist
    refine ⟨_, kept moves s.dag.nodes, block moves, returned, numbered, List.filter_sublist,
      fun v member => ?_, fun u => ⟨block_nodup accepted.pairs.nodup u, fun v => ?_⟩, fun v x last => ?_,
      fun v found => ?_, rfl, fun v first w second => ?_, fun v member outside => ?_⟩
    · rw [mem_kept, and_iff_right member, moved]
    · rw [mem_block, pair]
    · have listed := (pair v x).mpr last
      exact mem_kept.mpr ⟨movable.target _ listed, movable.fixed _ listed⟩
    · obtain ⟨m, listed, rfl⟩ := List.mem_map.mp ((moved v).mpr found)
      exact ⟨m.2, (pair m.1 m.2).mp listed⟩
    · exact numbered.lt_iff_of_sublist sorted.numbered sublist List.filter_sublist first second
    · refine index_outside sorted spans accepted.lists accepted.pairs (fun e => (same e).mp) member ?_
      intro e inBatch between
      exact outside e (mem_invalidating.mpr ⟨inBatch, between.1.trans between.2⟩) between
  · obtain ⟨e, member, closes⟩ := rejected.closes placed
    have whole : Acyclic (appendAll edges s).Adj := acyclic.mono fun u v => (appendAll_adj spans u v).mp
    exact (rejected.lists.not_acyclic placed (List.mem_append_right _ member) closes whole).elim

/-- On three nodes without edges, the edge from the last to the first moves the first behind it. -/
theorem insertEdges_places_first :
    ∃ t, ∃ undiscovered : List ℕ, ∃ after : ℕ → List ℕ,
      insertEdges (.insertion _) [(2, 0)] (edgeless 3) = .ok () t ∧
      t.dag.nodes = undiscovered.flatMap (fun u => u :: after u) := by
  have spans : (edgeless 3).Spans [(2, 0)] := by decide
  obtain ⟨t, undiscovered, after, returned, _, _, _, _, _, _, nodes, _⟩ :=
    insertEdges_places ⟨by decide, edgeless_wired 3⟩ spans
      (acyclic_of_rank (fun v => if v = 2 then 0 else v + 1) (by decide) (by decide)) (.insertion _)
  exact ⟨t, undiscovered, after, returned, nodes⟩

end Store

end DynamicDag
