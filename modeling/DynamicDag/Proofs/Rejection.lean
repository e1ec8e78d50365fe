import DynamicDag.Proofs.Insertion
import DynamicDag.Proofs.Kahn

/-! # Batches that close a cycle

A search compares each neighbour with its current path, below the tail of its edge. So a call fails
exactly on the cycles that lie wholly among the nodes reached from the head of an invalidating edge
below its tail; a cycle that passes through the tail itself is not among them. A failed call has no way
back: the batch stays in the adjacency lists, and so do the moves of the regions treated before.
-/

namespace DynamicDag

open Relation Numbering Reinsertion

variable {Ptr : Type} [DecidableEq Ptr]

namespace Store

variable {s t : Store Ptr} {edges : List (Edge Ptr)} {sort : StdSort (Edge Ptr)}

omit [DecidableEq Ptr] in
/-- A topological order excludes cycles. -/
theorem acyclic_of_inOrder (inOrder : graphIsInTopologicalOrder s.heap s.dag = true) : Acyclic s.Adj :=
  .of_rank s.heap.index fun u v edge =>
    (((graphIsInTopologicalOrder_iff _ _).mp inOrder).2 u edge.1).2 v edge.2

omit [DecidableEq Ptr] in
theorem mem_of_sort {listed : List (Edge Ptr)} {e : Edge Ptr}
    (perm : listed.Perm (sort.sort (byTail s.heap) (t.invalidating edges))) :
    e ∈ listed ↔ e ∈ t.invalidating edges :=
  (perm.trans (sort.perm _ _ (byTail_strictWeakOrder s.heap))).mem_iff

/-- A call fails exactly when some invalidating edge closes a cycle below its tail. -/
theorem insertEdges_error_iff (sorted : s.Sorted) (spans : s.Spans edges) (sort : StdSort (Edge Ptr)) :
    (∃ t, insertEdges sort edges s = .error cycleDetected t) ↔
      ∃ e ∈ edges, s.heap.index e.2 ≤ s.heap.index e.1 ∧
        ClosesBelow (appendAll edges s).heap.succ s.heap.index e.1 e.2 := by
  have placed := sorted.appendAll_placed spans
  obtain ⟨arranged, moves, returned, accepted⟩ | ⟨first, second, moves, failed, rejected⟩ :=
    insertEdges_cases sorted spans sort
  · refine iff_of_false (fun ⟨t, failed⟩ => ?_) fun ⟨e, member, invalid, closes⟩ => ?_
    · rw [returned] at failed
      contradiction
    · have listed := (mem_of_sort accepted.perm).mpr (mem_invalidating.mpr ⟨member, invalid⟩)
      apply accepted.pairs.not_closes placed.numbered accepted.lists listed
      rw [appendAll_index]
      exact closes
  · apply iff_of_true ⟨_, failed⟩
    obtain ⟨e, member, closes⟩ := rejected.closes placed
    obtain ⟨inBatch, invalid⟩ :=
      mem_invalidating.mp ((mem_of_sort rejected.perm).mp (List.mem_append_right first member))
    rw [appendAll_index] at closes
    exact ⟨e, inBatch, invalid, closes⟩

/-- Every batch that makes the graph cyclic, also by the judgement of the sort from scratch, is refused
if and only if it keeps the graph acyclic or closes a cycle below the tail of an invalidating edge. -/
theorem cyclic_batch_refused_iff (sorted : s.Sorted) (counted : s.Counted) (spans : s.Spans edges)
    (sort : StdSort (Edge Ptr)) {fuel : ℕ} (enough : s.dag.nodes.length < fuel) :
    ((¬ Acyclic (s.AdjWith edges) → ∃ t, insertEdges sort edges s = .error cycleDetected t) ∧
      ((∃ t, setToTopologicalOrder fuel (appendAll edges s) = .error notADag t) →
        ∃ t, insertEdges sort edges s = .error cycleDetected t)) ↔
      Acyclic (s.AdjWith edges) ∨ ∃ e ∈ edges, s.heap.index e.2 ≤ s.heap.index e.1 ∧
        ClosesBelow (appendAll edges s).heap.succ s.heap.index e.1 e.2 := by
  rw [insertEdges_error_iff sorted spans sort]
  constructor
  · rintro ⟨refused, _⟩
    by_cases acyclic : Acyclic (s.AdjWith edges)
    · exact .inl acyclic
    · exact .inr (refused acyclic)
  · rintro (acyclic | closes)
    · refine ⟨fun cyclic => absurd acyclic cyclic, fun ⟨t, refused⟩ => ?_⟩
      obtain ⟨_, u, returned, _⟩ | ⟨cyclic, _⟩ :=
        setToTopologicalOrder_cases (sorted.wired.appendAll spans) (counted.appendAll sorted.wired spans)
          enough
      · rw [returned] at refused
        contradiction
      · exact absurd (acyclic.mono fun u v => (appendAll_adj spans u v).mp) cyclic
    · exact ⟨fun _ => closes, fun _ => closes⟩

/-- A self-loop closes below its own tail. -/
theorem cyclic_batch_refused_iff_loop :
    ∃ t, insertEdges (.insertion _) [(1, 1)] (appendAll [(0, 1)] (edgeless 2)) = .error cycleDetected t := by
  have wired := edgeless_wired 2
  have spans : (edgeless 2).Spans [(0, 1)] := by decide
  have loop : ¬ Acyclic ((appendAll [(0, 1)] (edgeless 2)).AdjWith [(1, 1)]) :=
    fun acyclic => acyclic.irrefl 1 (.inr (by decide))
  exact ((cyclic_batch_refused_iff ⟨by decide, wired.appendAll spans⟩
    ((edgeless_counted 2).appendAll wired spans) (by decide) (.insertion _) (show 2 < 3 by decide)).mpr
      (.inr ⟨(1, 1), by decide, by decide, 1, .single ⟨by decide, .refl, .refl⟩⟩)).1 loop

/-- The edge back along an edge closes a cycle only at its own tail, which no search compares. -/
theorem back_edge_accepted :
    (appendAll [(0, 1)] (edgeless 2)).Sorted ∧ (appendAll [(0, 1)] (edgeless 2)).Counted ∧
      (appendAll [(0, 1)] (edgeless 2)).Spans [(1, 0)] ∧
      ¬ Acyclic ((appendAll [(0, 1)] (edgeless 2)).AdjWith [(1, 0)]) ∧
      (∃ t, insertEdges (.insertion _) [(1, 0)] (appendAll [(0, 1)] (edgeless 2)) = .ok () t ∧
        graphIsInTopologicalOrder t.heap t.dag = false) ∧
      ∃ t, setToTopologicalOrder 3 (appendAll [(1, 0)] (appendAll [(0, 1)] (edgeless 2))) =
        .error notADag t := by
  have wired := edgeless_wired 2
  have spans : (edgeless 2).Spans [(0, 1)] := by decide
  have first : (appendAll [(0, 1)] (edgeless 2)).AdjWith [(1, 0)] 0 1 := .inl ⟨by decide, by decide⟩
  have back : (appendAll [(0, 1)] (edgeless 2)).AdjWith [(1, 0)] 1 0 := .inr (by decide)
  exact ⟨⟨by decide, wired.appendAll spans⟩, (edgeless_counted 2).appendAll wired spans, by decide,
    fun acyclic => acyclic 0 (.tail (.single first) back), ⟨_, rfl, by decide⟩, _, rfl⟩

/-- A node whose index lies in the interval of no invalidating edge keeps its index in every outcome. -/
theorem index_outside (sorted : s.Sorted) (spans : s.Spans edges) {treated : List (Edge Ptr)}
    {moves : EdgeQueue Ptr} (lists : (appendAll edges s).Lists treated)
    (pairs : (appendAll edges s).Pairs treated moves) (within : treated ⊆ s.invalidating edges) {v : Ptr}
    (member : v ∈ s.dag.nodes)
    (outside : ∀ e ∈ edges, ¬ (s.heap.index e.2 ≤ s.heap.index v ∧ s.heap.index v ≤ s.heap.index e.1)) :
    ((appendAll edges s).moved moves).heap.index v = s.heap.index v := by
  have placed := sorted.appendAll_placed spans
  have kept := pairs.renumber_outside placed.numbered placed.closed lists within
    (fun u inside w edge => by rw [appendAll_index]; exact sorted.ascends_or inside edge) member
    (fun e invalid => by rw [appendAll_index]; exact outside e (mem_invalidating.mp invalid).1)
  rw [appendAll_index] at kept
  rw [← kept]
  simp only [moved, arranged, Heap.index_withIndex, appendAll_index]

/-- After the exception the graph is complete and consistent but cyclic: the batch is in the adjacency
lists and counted, every node stands at its index, and only nodes between the ends of invalidating
edges that lie above some edge with a cycle below its tail have moved. -/
theorem refused_batch_stays (sorted : s.Sorted) (counted : s.Counted) (spans : s.Spans edges)
    (sort : StdSort (Edge Ptr)) (refused : insertEdges sort edges s = .error cycleDetected t) :
    t.dag.nodes.Perm s.dag.nodes ∧ t.Indexed ∧
      (∀ v, (t.heap v).outgoingEdges = (s.heap v).outgoingEdges ++ headsFrom edges v) ∧
      (∀ v, (t.heap v).incomingEdges = (s.heap v).incomingEdges ++ tailsTo edges v) ∧
      t.dag.numberOfEdges = s.dag.numberOfEdges + edges.length ∧ t.Wired ∧ t.Counted ∧
      (∃ v, TransGen t.Adj v v) ∧ graphIsInTopologicalOrder t.heap t.dag = false ∧
      (∀ v ∈ s.dag.nodes, (∀ e ∈ edges,
        ¬ (s.heap.index e.2 ≤ s.heap.index v ∧ s.heap.index v ≤ s.heap.index e.1)) →
          t.heap.index v = s.heap.index v) ∧
      ∃ e ∈ edges, s.heap.index e.2 ≤ s.heap.index e.1 ∧
        ClosesBelow (appendAll edges s).heap.succ s.heap.index e.1 e.2 ∧
        ∀ v ∈ s.dag.nodes, s.heap.index v ≤ s.heap.index e.1 → t.heap.index v = s.heap.index v := by
  have placed := sorted.appendAll_placed spans
  have wired := sorted.wired.appendAll spans
  obtain ⟨arranged, moves, returned, _⟩ | ⟨first, second, moves, failed, rejected⟩ :=
    insertEdges_cases sorted spans sort
  · rw [returned] at refused
    contradiction
  rw [failed] at refused
  cases refused
  have movable := rejected.movable placed
  have perm := moved_perm placed movable
  obtain ⟨e, member, closes⟩ := rejected.closes placed
  have cyclic : ¬ Acyclic ((appendAll edges s).moved moves).Adj := fun acyclic =>
    rejected.lists.not_acyclic placed (List.mem_append_right _ member) closes
      (acyclic.mono fun u v edge => ⟨perm.mem_iff.mpr edge.1, edge.2⟩)
  refine ⟨perm, (moved_placed placed movable).numbered, appendAll_outgoing, appendAll_incoming, rfl,
    wired.arranged perm, counted.extend sorted.wired.nodup spans perm appendAll_outgoing rfl, ?_, ?_, ?_, ?_⟩
  · by_contra none
    exact cyclic (not_exists.mp none)
  · exact Bool.eq_false_iff.mpr fun inOrder => cyclic (acyclic_of_inOrder inOrder)
  · intro v inside outside
    refine index_outside sorted spans rejected.lists.prefix_of rejected.pairs (fun f early => ?_) inside outside
    exact (mem_of_sort rejected.perm).mp (List.mem_append_left _ early)
  · obtain ⟨inBatch, invalid⟩ :=
      mem_invalidating.mp ((mem_of_sort rejected.perm).mp (List.mem_append_right first member))
    rw [appendAll_index] at closes
    refine ⟨e, inBatch, invalid, closes, fun v inside low => ?_⟩
    obtain ⟨slot, bound, _, atSlot⟩ := sorted.numbered.exists_slot (spans e inBatch).1
    have above : ∀ m ∈ moves, ((slot + 1 : ℕ) : ℤ) ≤ (appendAll edges s).heap.index m.1 := by
      intro m inFound
      have := rejected.apart m inFound e member
      rw [appendAll_index] at this ⊢
      omega
    have kept := moved_index placed movable (rejected.pairs.both_above above) inside
      (by rw [appendAll_index]; omega)
    rwa [appendAll_index] at kept

/-- The previous theorem at a self-loop. -/
theorem refused_batch_stays_loop : ∃ t, insertEdges (.insertion _) [(1, 1)] (edgeless 2) = .error cycleDetected t ∧
    (t.heap 1).outgoingEdges = [1] ∧ graphIsInTopologicalOrder t.heap t.dag = false := by
  have spans : (edgeless 2).Spans [(1, 1)] := by decide
  obtain ⟨t, refused⟩ : ∃ t, insertEdges (.insertion _) [(1, 1)] (edgeless 2) = .error cycleDetected t :=
    ⟨_, rfl⟩
  obtain ⟨_, _, outgoing, _, _, _, _, _, unsorted, _⟩ :=
    refused_batch_stays ⟨by decide, edgeless_wired 2⟩ (edgeless_counted 2) spans (.insertion _) refused
  exact ⟨t, refused, outgoing 1, unsorted⟩

/-- The upper region has been moved and the batch appended when the lower region closes its cycle. -/
theorem refused_batch_leaves_traces :
    (edgeless 4).Sorted ∧ (edgeless 4).Counted ∧ (edgeless 4).Spans [(3, 2), (1, 1)] ∧
      ∃ t, insertEdges (.insertion _) [(3, 2), (1, 1)] (edgeless 4) = .error cycleDetected t ∧
        t.dag.nodes = [0, 1, 3, 2] ∧ (edgeless 4).dag.nodes = [0, 1, 2, 3] ∧
        t.heap.index 2 = 3 ∧ (edgeless 4).heap.index 2 = 2 ∧
        (t.heap 3).outgoingEdges = [2] ∧ ((edgeless 4).heap 3).outgoingEdges = [] ∧
        t.dag.numberOfEdges = 2 ∧ (edgeless 4).dag.numberOfEdges = 0 ∧
        graphIsInTopologicalOrder t.heap t.dag = false := by
  have outcome : (match insertEdges (.insertion _) [(3, 2), (1, 1)] (edgeless 4) with
      | .ok _ _ => false
      | .error e t => decide (e = cycleDetected ∧ t.dag.nodes = [0, 1, 3, 2] ∧ t.heap.index 2 = 3 ∧
          (t.heap 3).outgoingEdges = [2] ∧ t.dag.numberOfEdges = 2 ∧
          graphIsInTopologicalOrder t.heap t.dag = false)) = true := by decide +kernel
  refine ⟨⟨by decide, edgeless_wired 4⟩, edgeless_counted 4, by decide, ?_⟩
  rcases failed : insertEdges (.insertion _) [(3, 2), (1, 1)] (edgeless 4) with ⟨_, t⟩ | ⟨e, t⟩
  · rw [failed] at outcome
    contradiction
  · rw [failed] at outcome
    obtain ⟨rfl, nodes, index, outgoing, count, unsorted⟩ := of_decide_eq_true outcome
    exact ⟨t, rfl, nodes, rfl, index, rfl, outgoing, rfl, count, rfl, unsorted⟩

end Store

end DynamicDag
