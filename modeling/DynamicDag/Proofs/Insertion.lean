import DynamicDag.General.Procedures
import DynamicDag.Proofs.Regions

/-! # Inserting a batch

A call appends the batch and then makes the moves of the searches from the invalidating edges. If
every search completes, all moves are made and the call returns. If one meets a cycle, the moves of the
regions above it have been made, the batch stays appended, and the call ends with the exception. No
other outcome exists. What each outcome means for the order is read off the frontier pairs.
-/

namespace DynamicDag

open Relation Numbering Procedures Reinsertion

variable {Ptr : Type} [DecidableEq Ptr]

namespace Store

/-- The edges of a batch that do not ascend. -/
def invalidating (s : Store Ptr) (edges : List (Edge Ptr)) : List (Edge Ptr) :=
  edges.filter fun e => decide (s.heap.index e.2 ≤ s.heap.index e.1)

/-- All searches complete. -/
structure Accepted (s : Store Ptr) (sort : StdSort (Edge Ptr)) (sorted arranged : List (Edge Ptr))
    (moves : EdgeQueue Ptr) : Prop where
  perm : arranged.Perm sorted
  stable : sort.Stable → arranged = sorted
  lists : s.Lists arranged
  searched : s.search [] arranged = .ok moves
  pairs : s.Pairs arranged moves

variable {s : Store Ptr} {edges : List (Edge Ptr)} {sort : StdSort (Edge Ptr)}

/-- The append phase adds the batch and collects its invalidating edges. -/
theorem appendEdges_eq (heap : Heap Ptr) (edges : List (Edge Ptr)) :
    appendEdges heap edges = (edges.foldl Heap.addEdge heap,
      edges.filter fun e => decide (heap.index e.2 ≤ heap.index e.1)) := by
  have folded : ∀ found, edges.foldl appendEdge (heap, found) =
      (edges.foldl Heap.addEdge heap,
        found ++ edges.filter fun e => decide (heap.index e.2 ≤ heap.index e.1)) := by
    induction edges generalizing heap with
    | nil => simp
    | cons e rest ih =>
      intro found
      have same : ∀ v, ((heap.addEdge e) v).index = heap.index v := congrFun (addEdge_index heap e)
      rw [List.foldl_cons, List.foldl_cons, appendEdge, ih, addEdge_index, same, same, List.filter_cons]
      by_cases invalid : heap.index e.2 ≤ heap.index e.1 <;> simp [invalid]
  rw [appendEdges, folded, List.nil_append]

omit [DecidableEq Ptr] in
theorem mem_invalidating {e : Edge Ptr} :
    e ∈ s.invalidating edges ↔ e ∈ edges ∧ s.heap.index e.2 ≤ s.heap.index e.1 := by
  simp only [invalidating, List.mem_filter, decide_eq_true_eq]

theorem Sorted.placed (sorted : s.Sorted) : s.Placed :=
  ⟨sorted.numbered, sorted.wired.outgoing⟩

theorem Sorted.appendAll_placed (sorted : s.Sorted) (spans : s.Spans edges) :
    (appendAll edges s).Placed where
  numbered := by
    rw [appendAll_index]
    exact sorted.numbered
  closed := (sorted.wired.appendAll spans).outgoing

/-- The edges of the batch in the order of the first sort. -/
theorem Spans.lists (spans : s.Spans edges) (sort : StdSort (Edge Ptr)) :
    (appendAll edges s).Lists (sort.sort (byTail (appendAll edges s).heap) (s.invalidating edges)) := by
  have order := byTail_strictWeakOrder (appendAll edges s).heap
  have member {e : Edge Ptr}
      (listed : e ∈ sort.sort (byTail (appendAll edges s).heap) (s.invalidating edges)) :=
    mem_invalidating.mp ((sort.perm _ _ order).mem_iff.mp listed)
  refine ⟨fun e listed => spans e (member listed).1, fun e listed => ?_, fun e listed => ?_, ?_⟩
  · rw [Heap.succ, appendAll_outgoing, List.mem_append, mem_headsFrom]
    exact .inr (member listed).1
  · rw [appendAll_index]
    exact (member listed).2
  · exact (sort.arranged _ _ order).imp fun before => byTail_eq_false.mp before

/-- Every edge of the updated graph ascends or invalidates the order. -/
theorem Sorted.ascends_or (sorted : s.Sorted) {u v : Ptr} (member : u ∈ s.dag.nodes)
    (edge : v ∈ (appendAll edges s).heap.succ u) :
    s.heap.index u < s.heap.index v ∨ (u, v) ∈ s.invalidating edges := by
  rw [Heap.succ, appendAll_outgoing, List.mem_append, mem_headsFrom] at edge
  cases edge with
  | inl old => exact .inl (sorted.ascends member old)
  | inr new =>
    obtain up | down := lt_or_ge (s.heap.index u) (s.heap.index v)
    · exact .inl up
    · exact .inr (mem_invalidating.mpr ⟨new, down⟩)

/-- The call without its do-notation. -/
theorem insertEdges_eq (s : Store Ptr) (edges : List (Edge Ptr)) (sort : StdSort (Edge Ptr)) :
    insertEdges sort edges s =
      if (s.invalidating edges).isEmpty then .ok () (appendAll edges s)
      else
        match regionLoop sort (sort.sort (byTail (appendAll edges s).heap) (s.invalidating edges))
          (sort.sort (byTail (appendAll edges s).heap) (s.invalidating edges)) 0 0
          s.dag.nodes.length (List.replicate s.dag.nodes.length false) (appendAll edges s) with
        | .error e t => .error e t
        | .ok (start, lower, vacant) t =>
          match processRegion sort ((sort.sort (byTail (appendAll edges s).heap)
            (s.invalidating edges)).drop start) lower vacant t with
          | .error e t => .error e t
          | .ok _ t => .ok () t := by
  have appended : (appendEdges s.heap edges) = ((appendAll edges s).heap, s.invalidating edges) :=
    appendEdges_eq s.heap edges
  rw [insertEdges, get_bind]
  dsimp only
  rw [appended, set_bind]
  cases harmless : (s.invalidating edges).isEmpty with
  | true => rfl
  | false =>
    simp only [Bool.false_eq_true, ↓reduceIte]
    have same : (⟨(appendAll edges s).heap, ⟨s.dag.nodes, s.dag.numberOfEdges + edges.length⟩⟩ : Store Ptr) =
        appendAll edges s := rfl
    rw [same]
    cases swept : regionLoop sort (sort.sort (byTail (appendAll edges s).heap) (s.invalidating edges)) _ 0 0
      s.dag.nodes.length (List.replicate s.dag.nodes.length false) (appendAll edges s) with
    | error e t => rw [bind_error swept]
    | ok found t =>
      obtain ⟨start, lower, vacant⟩ := found
      rw [bind_ok swept]
      dsimp only
      cases last : processRegion sort ((sort.sort (byTail (appendAll edges s).heap)
        (s.invalidating edges)).drop start) lower vacant t with
      | error e t => rw [bind_error last]
      | ok vacant t =>
        rw [bind_ok last]
        rfl

/-- Both outcomes of a call. -/
theorem insertEdges_cases (sorted : s.Sorted) (spans : s.Spans edges) (sort : StdSort (Edge Ptr)) :
    (∃ arranged moves, insertEdges sort edges s = .ok () ((appendAll edges s).moved moves) ∧
        (appendAll edges s).Accepted sort
          (sort.sort (byTail (appendAll edges s).heap) (s.invalidating edges)) arranged moves) ∨
      ∃ first second moves,
        insertEdges sort edges s = .error cycleDetected ((appendAll edges s).moved moves) ∧
        (appendAll edges s).Rejected sort
          (sort.sort (byTail (appendAll edges s).heap) (s.invalidating edges)) first second moves := by
  have placed := sorted.appendAll_placed spans
  have lists := spans.lists sort
  have perm := sort.perm _ (s.invalidating edges) (byTail_strictWeakOrder (appendAll edges s).heap)
  generalize arrangement : sort.sort (byTail (appendAll edges s).heap) (s.invalidating edges) = inv at *
  have ascends : (appendAll edges s).Ascends inv := by
    intro v member w edge
    rw [appendAll_index]
    exact (sorted.ascends_or member edge).imp_right perm.mem_iff.mpr
  have start : (appendAll edges s).Stage sort inv [] [] 0 s.dag.nodes.length :=
    ⟨.refl _, fun _ => rfl, lists, rfl, Frontier.nil _ _, fun m member => absurd member List.not_mem_nil,
      fun e member => (placed.numbered.bounds (lists.members e member).1).2⟩
  rw [insertEdges_eq, arrangement]
  by_cases harmless : (s.invalidating edges).isEmpty
  · rw [if_pos harmless]
    rw [List.isEmpty_iff.mp harmless, List.perm_nil] at perm
    subst perm
    refine .inl ⟨[], [], ?_, .refl _, fun _ => rfl, lists, rfl, Frontier.nil _ _⟩
    rw [moved_nil placed]
  · rw [if_neg harmless]
    have swept := regionLoop_cases placed ascends lists rfl start le_rfl
      (fun e member => by simp at member) (le_refl s.dag.nodes.length)
    rw [moved_nil placed] at swept
    obtain ⟨more, next, last, level, lower, looped, stage, heads, inside⟩ |
      ⟨next, first, second, looped, rejected⟩ := swept
    · -- the last region reaches to the end of the list
      have rest : (inv.drop last).take (last + inv.length - last) = inv.drop last :=
        List.take_of_length_le (by rw [List.length_drop]; omega)
      have all : inv.take (last + inv.length) = inv := List.take_of_length_le (by omega)
      have none : inv.drop (last + inv.length) = [] := List.drop_of_length_le (by omega)
      have finished := stage.region_cases placed ascends (show last ≤ last + inv.length by omega)
        (fun e member => heads e (List.mem_of_mem_take member))
        (fun e member => by simp [none] at member) inside
      rw [rest] at finished
      obtain ⟨final, moves, processed, finalStage⟩ | ⟨failed, first, second, rejected⟩ := finished
      · refine .inl ⟨final, moves, ?_, ?_, fun given => ?_, ?_, finalStage.searched, finalStage.pairs⟩
        · simp only [List.drop_zero, appendAll_nodes] at looped processed
          simp only [looped, processed]
        · rw [← all]
          exact finalStage.perm
        · rw [finalStage.stable given, all]
        · have ofAll := finalStage.lists
          rwa [none, List.append_nil] at ofAll
      · refine .inr ⟨first, second, next, ?_, rejected⟩
        simp only [List.drop_zero, appendAll_nodes] at looped failed
        simp only [looped, failed]
    · refine .inr ⟨first, second, next, ?_, rejected⟩
      simp only [List.drop_zero, appendAll_nodes] at looped
      simp only [looped]

section Moved

variable {t : Store Ptr} {listed arranged first second : List (Edge Ptr)} {moves : EdgeQueue Ptr}

theorem moved_perm (placed : t.Placed) (movable : Movable moves t.dag.nodes) :
    (t.moved moves).dag.nodes.Perm t.dag.nodes :=
  movable.perm placed.numbered.nodup

omit [DecidableEq Ptr] in
/-- A cycle below the tail of an edge is a cycle of the graph. -/
theorem Lists.not_acyclic (lists : t.Lists listed) (placed : t.Placed) {e : Edge Ptr} (member : e ∈ listed)
    (closes : ClosesBelow t.heap.succ t.heap.index e.1 e.2) : ¬ Acyclic t.Adj := by
  obtain ⟨c, cycle⟩ := closes
  refine fun acyclic => acyclic c (TransGen.mono (fun v w edge => ?_) c c cycle)
  exact ⟨lists.reach_mem placed.closed member edge.2.1, edge.1⟩

theorem Accepted.movable {sort : StdSort (Edge Ptr)} (accepted : t.Accepted sort listed arranged moves)
    (placed : t.Placed) : Movable moves t.dag.nodes :=
  accepted.pairs.movable accepted.lists placed

theorem Rejected.movable {sort : StdSort (Edge Ptr)}
    (rejected : t.Rejected sort listed first second moves) (placed : t.Placed) :
    Movable moves t.dag.nodes :=
  rejected.pairs.movable rejected.lists.prefix_of placed

/-- A call fails only on a cycle that some invalidating edge closes below its tail. -/
theorem Rejected.closes {sort : StdSort (Edge Ptr)}
    (rejected : t.Rejected sort listed first second moves) (placed : t.Placed) :
    ∃ e ∈ second, ClosesBelow t.heap.succ t.heap.index e.1 e.2 := by
  obtain ⟨next, returned, _⟩ | ⟨_, found⟩ := search_cases placed rejected.pairs rejected.lists
  · rw [rejected.failed] at returned
    contradiction
  · exact found

/-- In an acyclic graph the moves make every edge ascend. -/
theorem Accepted.ascends {sort : StdSort (Edge Ptr)} (accepted : t.Accepted sort listed arranged moves)
    (placed : t.Placed) (ascends : t.Ascends arranged) (acyclic : Acyclic t.Adj) {u v : Ptr}
    (edge : t.Adj u v) : (t.moved moves).heap.index u < (t.moved moves).heap.index v := by
  have movable := accepted.movable placed
  have numbered := (moved_placed placed movable).numbered
  have order := accepted.pairs.no_back_edge placed.numbered placed.closed accepted.lists ascends acyclic
  obtain ⟨i, iBound, rfl, atI⟩ := numbered.exists_slot (movable.mem_iff.mpr edge.1)
  obtain ⟨j, jBound, rfl, atJ⟩ :=
    numbered.exists_slot (movable.mem_iff.mpr (placed.closed _ edge.1 _ edge.2))
  rw [atI, atJ]
  by_contra backward
  cases (show j ≤ i by omega).lt_or_eq with
  | inl before => exact List.pairwise_iff_getElem.mp order j i jBound iBound before edge.2
  | inr same =>
    subst same
    exact acyclic _ (.single edge)

end Moved

/-- A batch that keeps the graph acyclic is accepted, and the order is repaired. -/
theorem insertEdges_of_acyclic (sorted : s.Sorted) (spans : s.Spans edges)
    (acyclic : Acyclic (s.AdjWith edges)) (sort : StdSort (Edge Ptr)) :
    ∃ t, insertEdges sort edges s = .ok () t ∧ t.Sorted ∧ t.dag.nodes.Perm s.dag.nodes ∧
      (∀ v, (t.heap v).outgoingEdges = (s.heap v).outgoingEdges ++ headsFrom edges v) ∧
      (∀ v, (t.heap v).incomingEdges = (s.heap v).incomingEdges ++ tailsTo edges v) ∧
      t.dag.numberOfEdges = s.dag.numberOfEdges + edges.length := by
  have placed := sorted.appendAll_placed spans
  have wired := sorted.wired.appendAll spans
  have whole : Acyclic (appendAll edges s).Adj :=
    acyclic.mono fun u v => (appendAll_adj spans u v).mp
  obtain ⟨arranged, moves, returned, accepted⟩ | ⟨first, second, moves, _, rejected⟩ :=
    insertEdges_cases sorted spans sort
  · have perm := sort.perm _ (s.invalidating edges) (byTail_strictWeakOrder (appendAll edges s).heap)
    have ascends : (appendAll edges s).Ascends arranged := by
      intro u member v edge
      rw [appendAll_index]
      exact (sorted.ascends_or member edge).imp_right (accepted.perm.trans perm).mem_iff.mpr
    have movable := accepted.movable placed
    have moved := wired.arranged (moved_perm placed movable)
    refine ⟨_, returned, ⟨moved.inOrder (moved_placed placed movable).numbered ?_, moved⟩,
      moved_perm placed movable, appendAll_outgoing, appendAll_incoming, rfl⟩
    intro v member w edge
    exact accepted.ascends placed ascends whole ⟨movable.mem_iff.mp member, edge⟩
  · obtain ⟨e, member, closes⟩ := rejected.closes placed
    exact (rejected.lists.not_acyclic placed (List.mem_append_right _ member) closes whole).elim

/-- A run of batches that keep the graph acyclic is accepted, and every call repairs the order. -/
theorem insertBatches_of_acyclic (sort : StdSort (Edge Ptr)) (batches : List (List (Edge Ptr)))
    {s : Store Ptr} (sorted : s.Sorted) (spans : s.Spans batches.flatten)
    (acyclic : Acyclic (s.AdjWith batches.flatten)) :
    ∃ t, insertBatches sort batches s = .ok () t ∧ t.Sorted ∧ t.dag.nodes.Perm s.dag.nodes ∧
      (∀ v, (t.heap v).outgoingEdges = (s.heap v).outgoingEdges ++ headsFrom batches.flatten v) ∧
      (∀ v, (t.heap v).incomingEdges = (s.heap v).incomingEdges ++ tailsTo batches.flatten v) ∧
      t.dag.numberOfEdges = s.dag.numberOfEdges + batches.flatten.length := by
  induction batches generalizing s with
  | nil => exact ⟨s, rfl, sorted, .refl _, by simp [headsFrom], by simp [tailsTo], by simp⟩
  | cons edges rest ih =>
    rw [List.flatten_cons] at spans acyclic ⊢
    have first : s.Spans edges := fun e member => spans e (List.mem_append_left _ member)
    have fewer : Acyclic (s.AdjWith edges) :=
      acyclic.mono fun u v edge => edge.imp_right (List.mem_append_left _)
    obtain ⟨t, returned, sortedT, permT, outgoingT, incomingT, countT⟩ :=
      insertEdges_of_acyclic sorted first fewer sort
    have later : t.Spans rest.flatten := fun e member =>
      ⟨permT.mem_iff.mpr (spans e (List.mem_append_right _ member)).1,
        permT.mem_iff.mpr (spans e (List.mem_append_right _ member)).2⟩
    have remaining : Acyclic (t.AdjWith rest.flatten) := by
      apply acyclic.mono
      intro u v edge
      rcases edge with ⟨member, listed⟩ | new
      · rw [outgoingT, List.mem_append, mem_headsFrom] at listed
        exact listed.elim (fun old => .inl ⟨permT.mem_iff.mp member, old⟩)
          fun added => .inr (List.mem_append_left _ added)
      · exact .inr (List.mem_append_right _ new)
    obtain ⟨final, finished, sortedF, permF, outgoingF, incomingF, countF⟩ := ih sortedT later remaining
    refine ⟨final, ?_, sortedF, permF.trans permT, fun v => ?_, fun v => ?_, ?_⟩
    · rw [insertBatches, bind_ok returned, finished]
    · rw [outgoingF, outgoingT, headsFrom_append, List.append_assoc]
    · rw [incomingF, incomingT, tailsTo_append, List.append_assoc]
    · rw [countF, countT, List.length_append]
      push_cast
      omega

/-- Every call of a run that keeps the graph acyclic returns, and leaves the nodes in a topological
order of the graph with all batches so far. -/
theorem insertBatches_keep_order (sorted : s.Sorted) (counted : s.Counted)
    {batches : List (List (Edge Ptr))} (spans : s.Spans batches.flatten)
    (acyclic : Acyclic (s.AdjWith batches.flatten)) (sort : StdSort (Edge Ptr)) (calls : ℕ) :
    ∃ t, insertBatches sort (batches.take calls) s = .ok () t ∧
      t.dag.nodes.Perm s.dag.nodes ∧ t.Indexed ∧
      (∀ u v, s.AdjWith (batches.take calls).flatten u v → t.heap.index u < t.heap.index v) ∧
      graphIsInTopologicalOrder t.heap t.dag = true ∧
      (∀ v, (t.heap v).outgoingEdges =
        (s.heap v).outgoingEdges ++ headsFrom (batches.take calls).flatten v) ∧
      (∀ v, (t.heap v).incomingEdges =
        (s.heap v).incomingEdges ++ tailsTo (batches.take calls).flatten v) ∧
      t.dag.numberOfEdges = s.dag.numberOfEdges + (batches.take calls).flatten.length ∧ t.Counted := by
  have fewer : (batches.take calls).flatten ⊆ batches.flatten := by
    intro e member
    obtain ⟨edges, early, inEdges⟩ := List.mem_flatten.mp member
    exact List.mem_flatten.mpr ⟨edges, List.mem_of_mem_take early, inEdges⟩
  have inside : s.Spans (batches.take calls).flatten := fun e member => spans e (fewer member)
  obtain ⟨t, returned, sortedT, perm, outgoing, incoming, count⟩ :=
    insertBatches_of_acyclic sort (batches.take calls) sorted inside
      (acyclic.mono fun u v edge => edge.imp_right fun new => fewer new)
  refine ⟨t, returned, perm, sortedT.numbered, fun u v edge => ?_, sortedT.inOrder, outgoing, incoming,
    count, counted.extend sorted.wired.nodup inside perm outgoing count⟩
  rcases edge with ⟨member, listed⟩ | new
  · apply sortedT.ascends (perm.mem_iff.mpr member)
    rw [Heap.succ, outgoing]
    exact List.mem_append_left _ listed
  · apply sortedT.ascends (perm.mem_iff.mpr (inside _ new).1)
    rw [Heap.succ, outgoing, List.mem_append, mem_headsFrom]
    exact .inr new

/-- Two batches on a path, both invalidating, the second with parallel edges. -/
theorem insertBatches_keep_order_path :
    ∃ t, insertBatches (.insertion _) [[(3, 0), (0, 2)], [(4, 3), (4, 3)]]
        (appendAll [(0, 1), (1, 2)] (edgeless 5)) = .ok () t ∧
      graphIsInTopologicalOrder t.heap t.dag = true := by
  have wired := edgeless_wired 5
  have spans : (edgeless 5).Spans [(0, 1), (1, 2)] := by decide
  have acyclic : Acyclic ((appendAll [(0, 1), (1, 2)] (edgeless 5)).AdjWith
      [[(3, 0), (0, 2)], [(4, 3), (4, 3)]].flatten) :=
    acyclic_of_rank (fun v => if v = 4 then 0 else if v = 3 then 1 else v + 2) (by decide) (by decide)
  obtain ⟨t, returned, _, _, _, inOrder, _⟩ :=
    insertBatches_keep_order ⟨by decide, wired.appendAll spans⟩
      ((edgeless_counted 5).appendAll wired spans) (by decide) acyclic (.insertion _) 2
  exact ⟨t, returned, inOrder⟩

/-- Whatever the batch, a call returns or reports a cycle, after a bounded number of rounds and within
all vectors, and leaves every node in one slot, at its index. -/
theorem insertEdges_safe (sorted : s.Sorted) (spans : s.Spans edges) (sort : StdSort (Edge Ptr)) :
    ∃ t, (insertEdges sort edges s = .ok () t ∨ insertEdges sort edges s = .error cycleDetected t) ∧
      t.dag.nodes.Perm s.dag.nodes ∧ t.Indexed := by
  have placed := sorted.appendAll_placed spans
  obtain ⟨arranged, moves, returned, accepted⟩ | ⟨first, second, moves, failed, rejected⟩ :=
    insertEdges_cases sorted spans sort
  · have movable := accepted.movable placed
    exact ⟨_, .inl returned, moved_perm placed movable, (moved_placed placed movable).numbered⟩
  · have movable := rejected.movable placed
    exact ⟨_, .inr failed, moved_perm placed movable, (moved_placed placed movable).numbered⟩

/-- A self-loop together with an edge that closes a cycle. -/
theorem insertEdges_safe_loop :
    ∃ t, (insertEdges (.insertion _) [(2, 2), (2, 0)] (appendAll [(0, 1), (1, 2)] (edgeless 3)) = .ok () t ∨
        insertEdges (.insertion _) [(2, 2), (2, 0)] (appendAll [(0, 1), (1, 2)] (edgeless 3)) =
          .error cycleDetected t) ∧ t.dag.nodes.Perm [0, 1, 2] ∧ t.Indexed :=
  insertEdges_safe ⟨by decide, (edgeless_wired 3).appendAll (by decide)⟩ (by decide) (.insertion _)

end Store

end DynamicDag
