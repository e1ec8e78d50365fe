import DynamicDag.Proofs.Anchors

/-! # What a call reads

The searches read the outgoing edges of the nodes they discover. All other adjacency lists may be replaced
by others that fit the order, and a call refuses the same batches and makes the same order. This is what the
algorithm gains over a sort from scratch, which reads every edge.
-/

namespace DynamicDag

open Relation Numbering Reinsertion

variable {Ptr : Type} [DecidableEq Ptr]

namespace Store

variable {s t u : Store Ptr} {edges : List (Edge Ptr)} {sort : StdSort (Edge Ptr)}

/-- The invalidating edges in the order in which the searches treat them. -/
def treated (sort : StdSort (Edge Ptr)) (edges : List (Edge Ptr)) (s : Store Ptr) : List (Edge Ptr) :=
  sort.sort (byTail (appendAll edges s).heap) (s.invalidating edges)

/-- With a stable sort, a call that returns makes the moves that the searches over the whole batch find. -/
theorem searched_of_returned (sorted : s.Sorted) (spans : s.Spans edges) (stable : sort.Stable)
    (returned : insertEdges sort edges s = .ok () t) :
    ∃ moves, (appendAll edges s).search [] (treated sort edges s) = .ok moves ∧
      t = (appendAll edges s).moved moves := by
  obtain ⟨arranged, moves, same, accepted⟩ | ⟨first, second, moves, failed, _⟩ :=
    insertEdges_cases sorted spans sort
  · refine ⟨moves, ?_, ?_⟩
    · rw [treated, ← accepted.stable stable]
      exact accepted.searched
    · rw [same] at returned
      injection returned with _ result
      exact result.symm
  · rw [failed] at returned
    contradiction

/-- The nodes whose outgoing edges a call reads. -/
def Reads (s : Store Ptr) (edges : List (Edge Ptr)) (v : Ptr) : Prop :=
  ∃ e ∈ s.invalidating edges, ReachBelow (appendAll edges s).heap.succ s.heap.index e.1 e.2 v

section OtherEdges

variable (spans : s.Spans edges) (nodes : t.dag.nodes = s.dag.nodes) (index : t.heap.index = s.heap.index)
  (same : ∀ v, s.Reads edges v → (t.heap v).outgoingEdges = (s.heap v).outgoingEdges)

include index

omit [DecidableEq Ptr] in
theorem invalidating_eq : t.invalidating edges = s.invalidating edges := by
  rw [invalidating, invalidating, index]

theorem treated_eq (sort : StdSort (Edge Ptr)) : treated sort edges t = treated sort edges s := by
  have less : byTail (appendAll edges t).heap = byTail (appendAll edges s).heap := by
    funext e f
    have indices : (appendAll edges t).heap.index = (appendAll edges s).heap.index := by
      rw [appendAll_index, appendAll_index, index]
    exact congrArg (fun i : Ptr → ℤ => decide (i e.1 > i f.1)) indices
  rw [treated, treated, less, invalidating_eq index]

omit index

include same

theorem succ_eq {e : Edge Ptr} (invalid : e ∈ s.invalidating edges) (v : Ptr)
    (reach : ReachBelow (appendAll edges s).heap.succ s.heap.index e.1 e.2 v) :
    (appendAll edges t).heap.succ v = (appendAll edges s).heap.succ v := by
  rw [Heap.succ, Heap.succ, appendAll_outgoing, appendAll_outgoing, same v ⟨e, invalid, reach⟩]

include spans nodes index

theorem discovers_eq (x v : Ptr) : s.Discovers edges x v ↔ t.Discovers edges x v := by
  simp only [Discovers, invalidating_eq index, index]
  refine exists_congr fun y => and_congr_right fun invalid => and_congr_right fun _ => ?_
  refine reflTransGen_congr_of_reached (fun a path b => and_congr_left fun _ => ?_) v
  have reach : ReachBelow (appendAll edges s).heap.succ s.heap.index x y a :=
    ReflTransGen.mono (fun _ _ step => ⟨((appendAll_adj spans _ _).mpr step.1).2, step.2⟩) _ _ path
  rw [AdjWith, AdjWith, Adj, Adj, nodes, same a ⟨_, invalid, reach⟩]

omit spans in
theorem search_eq (sort : StdSort (Edge Ptr)) : (appendAll edges t).search [] (treated sort edges t) =
    (appendAll edges s).search [] (treated sort edges s) := by
  rw [treated_eq index, search, search, appendAll_nodes, appendAll_nodes, appendAll_index, appendAll_index, nodes,
    index]
  refine Frontier.collect_congr _ _ _ _ (fun e member v reach => ?_) _
  exact succ_eq same ((mem_of_sort (.refl _)).mp member) v reach

end OtherEdges

/-- The call reads the outgoing edges of the nodes that invalidating edges reach below their tails. On
another graph in order, with the same nodes at the same indices and these edges the same, the call throws
for the same batches and makes the same order, up to the order behind each tail. With a stable sort it
makes exactly the same order. -/
theorem insertEdges_reads (sorted : s.Sorted) (sortedThere : t.Sorted) (spans : s.Spans edges)
    (nodes : t.dag.nodes = s.dag.nodes) (index : t.heap.index = s.heap.index)
    (same : ∀ v, s.Reads edges v → (t.heap v).outgoingEdges = (s.heap v).outgoingEdges)
    (sort : StdSort (Edge Ptr)) :
    ((∃ a, insertEdges sort edges s = .error cycleDetected a) ↔
      ∃ b, insertEdges sort edges t = .error cycleDetected b) ∧
    ∀ a b, insertEdges sort edges s = .ok () a → insertEdges sort edges t = .ok () b →
      (∀ v ∈ s.dag.nodes, (¬ ∃ x, s.Discovers edges x v) → a.heap.index v = b.heap.index v) ∧
      (∀ v ∈ s.dag.nodes, ∀ w ∈ s.dag.nodes, (¬ ∃ x, s.LastTail edges v x ∧ s.LastTail edges w x) →
        (a.heap.index v < a.heap.index w ↔ b.heap.index v < b.heap.index w)) ∧
      (sort.Stable → a.dag.nodes = b.dag.nodes ∧ a.heap.index = b.heap.index) := by
  have spansThere : t.Spans edges := fun e member => by
    rw [nodes]
    exact spans e member
  constructor
  · rw [insertEdges_error_iff sorted spans, insertEdges_error_iff sortedThere spansThere, index]
    refine exists_congr fun e => and_congr_right fun member => and_congr_right fun order => ?_
    exact ClosesBelow.congr fun v reach => succ_eq same (mem_invalidating.mpr ⟨member, order⟩) v reach
  · intro a b left right
    obtain ⟨moves, first⟩ := insertEdges_arranges sorted spans left
    obtain ⟨moves', second⟩ := insertEdges_arranges sortedThere spansThere right
    obtain ⟨stays, order⟩ := first.determined second sorted nodes index (discovers_eq spans nodes index same)
    refine ⟨stays, order, fun stable => ?_⟩
    obtain ⟨m, searched, returned⟩ := searched_of_returned sorted spans stable left
    obtain ⟨m', searchedThere, returnedThere⟩ := searched_of_returned sortedThere spansThere stable right
    rw [search_eq nodes index same sort, searched] at searchedThere
    obtain rfl := Except.ok.inj searchedThere
    simp only [returned, returnedThere, moved, arranged, appendAll_nodes, Heap.index_withIndex, appendAll_index,
      nodes, index, and_self]

/-- The search from the first of three nodes does not read an edge of the second. -/
theorem insertEdges_reads_first : ∃ a b, insertEdges (.insertion _) [(1, 0)] (edgeless 3) = .ok () a ∧
    insertEdges (.insertion _) [(1, 0)] (appendAll [(1, 2)] (edgeless 3)) = .ok () b ∧
    a.dag.nodes = b.dag.nodes := by
  have same : ∀ v, (edgeless 3).Reads [(1, 0)] v →
      ((appendAll [(1, 2)] (edgeless 3)).heap v).outgoingEdges = ((edgeless 3).heap v).outgoingEdges := by
    rintro v ⟨e, invalid, reach⟩
    obtain rfl : e = (1, 0) := List.mem_singleton.mp (mem_invalidating.mp invalid).1
    have first : v = 0 := by
      obtain rfl | ⟨_, _, _, below⟩ := (ReflTransGen.cases_tail_iff _ _ _).mp reach
      · rfl
      · exact Nat.lt_one_iff.mp (Int.ofNat_lt.mp below)
    rw [first]
    rfl
  have runs := insertEdges_reads (⟨by decide, edgeless_wired 3⟩ : (edgeless 3).Sorted)
    (t := appendAll [(1, 2)] (edgeless 3)) ⟨by decide, (edgeless_wired 3).appendAll (by decide)⟩ (by decide) rfl
    appendAll_index same (.insertion _)
  have left : ∃ a, insertEdges (.insertion _) [(1, 0)] (edgeless 3) = .ok () a := ⟨_, rfl⟩
  have right : ∃ b, insertEdges (.insertion _) [(1, 0)] (appendAll [(1, 2)] (edgeless 3)) = .ok () b := ⟨_, rfl⟩
  obtain ⟨a, left⟩ := left
  obtain ⟨b, right⟩ := right
  exact ⟨a, b, left, right, ((runs.2 a b left right).2.2 StdSort.insertion_stable).1⟩

end Store

end DynamicDag
