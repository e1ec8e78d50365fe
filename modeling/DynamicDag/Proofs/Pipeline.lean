import DynamicDag.Proofs.ExtraEdges

/-! # The evaluation runs end in order

The additional edges ascend in the order in which the dag was generated. This order is lost when the
nodes are shuffled and sorted again, but it remains a rank of the nodes, and the rank shows that the dag
with the additional edges has no cycle. That is all the insertion and the sort from scratch ask for.
-/

namespace DynamicDag

open Relation Numbering

variable {Ptr : Type} [DecidableEq Ptr] {s t : Store Ptr} {draws rest : List ℤ}
  {extra : List (Edge Ptr)}

namespace Store

/-- The graph that both runs on a test set are meant to end with: the given nodes in topological order, the
edges of the dag and behind them the additional ones, the given number of edges in all, no self-loop and no
parallel edge. -/
structure Finished (t : Store Ptr) (testSet : Store Ptr × List (Edge Ptr)) (nodes : List Ptr)
    (numberOfEdges : ℤ) : Prop where
  nodes : t.dag.nodes.Perm nodes
  inOrder : graphIsInTopologicalOrder t.heap t.dag = true
  outgoing : ∀ v ∈ t.dag.nodes,
    (t.heap v).outgoingEdges = (testSet.1.heap v).outgoingEdges ++ headsFrom testSet.2 v
  incoming : ∀ v ∈ t.dag.nodes,
    (t.heap v).incomingEdges = (testSet.1.heap v).incomingEdges ++ tailsTo testSet.2 v
  count : t.dag.numberOfEdges = numberOfEdges
  counted : t.Counted
  loopFree : ∀ v ∈ t.dag.nodes, v ∉ (t.heap v).outgoingEdges
  simple : ∀ v ∈ t.dag.nodes, (t.heap v).outgoingEdges.Nodup

/-- A test set: a sorted graph without parallel edges and additional edges that are new to it and close
no cycle with it. -/
structure TestSet (s : Store Ptr) (extra : List (Edge Ptr)) : Prop where
  sorted : s.Sorted
  counted : s.Counted
  simple : ∀ v ∈ s.dag.nodes, (s.heap v).outgoingEdges.Nodup
  spans : s.Spans extra
  nodup : extra.Nodup
  new : ∀ e ∈ extra, e.2 ∉ (s.heap e.1).outgoingEdges
  acyclic : Acyclic (s.AdjWith extra)

/-- A sorted graph that has the edges of a test set is finished. -/
theorem TestSet.finished (testSet : s.TestSet extra) (sorted : t.Sorted)
    (perm : t.dag.nodes.Perm s.dag.nodes)
    (outgoing : ∀ v, (t.heap v).outgoingEdges = (s.heap v).outgoingEdges ++ headsFrom extra v)
    (incoming : ∀ v, (t.heap v).incomingEdges = (s.heap v).incomingEdges ++ tailsTo extra v)
    (count : t.dag.numberOfEdges = s.dag.numberOfEdges + extra.length) :
    t.Finished (s, extra) s.dag.nodes (s.dag.numberOfEdges + extra.length) where
  nodes := perm
  inOrder := sorted.inOrder
  outgoing v _ := outgoing v
  incoming v _ := incoming v
  count := count
  counted := testSet.counted.extend testSet.sorted.wired.nodup testSet.spans perm outgoing count
  loopFree v member loop := lt_irrefl _ (sorted.ascends member loop)
  simple v member := by
    rw [outgoing]
    apply (testSet.simple v (perm.mem_iff.mp member)).append (headsFrom_nodup testSet.nodup v)
    exact fun w old added => testSet.new _ (mem_headsFrom.mp added) old

/-- The run with PK2. -/
theorem TestSet.runTestPk2 (testSet : s.TestSet extra) (sort : StdSort (Edge Ptr)) :
    ∃ t, runTestPk2 sort (s, extra) = .ok t ∧
      t.Finished (s, extra) s.dag.nodes (s.dag.numberOfEdges + extra.length) := by
  obtain ⟨t, returned, sorted, perm, outgoing, incoming, count⟩ :=
    insertEdges_of_acyclic testSet.sorted testSet.spans testSet.acyclic sort
  exact ⟨t, by simp only [DynamicDag.runTestPk2, returned],
    testSet.finished sorted perm outgoing incoming count⟩

/-- The run that sorts from scratch. -/
theorem TestSet.runTestKahn (testSet : s.TestSet extra) {fuel : ℕ} (enough : s.dag.nodes.length < fuel) :
    ∃ t, runTestKahn fuel (s, extra) = .ok t ∧
      t.Finished (s, extra) s.dag.nodes (s.dag.numberOfEdges + extra.length) := by
  have wired := testSet.sorted.wired.appendAll testSet.spans
  have counted := testSet.counted.appendAll testSet.sorted.wired testSet.spans
  obtain ⟨_, t, returned, sorted, perm, count, same⟩ | ⟨cyclic, _⟩ :=
    setToTopologicalOrder_cases wired counted enough
  · exact ⟨t, by simp only [DynamicDag.runTestKahn, returned], testSet.finished sorted perm
      (fun v => (same v).1.trans (appendAll_outgoing v)) (fun v => (same v).2.trans (appendAll_incoming v)) count⟩
  · exact absurd (testSet.acyclic.mono fun u v => (appendAll_adj testSet.spans u v).mp) cyclic

/-- Shuffling and sorting again keeps what a test set needs: the old order ranks the nodes. -/
theorem exists_testSet (sorted : s.Sorted) (counted : s.Counted)
    (simple : ∀ v ∈ s.dag.nodes, (s.heap v).outgoingEdges.Nodup)
    (new : NewEdges s.heap.index s.dag.nodes true (existingEdges s) extra) (shuffle : StdShuffle Ptr)
    {fuel : ℕ} (enough : s.dag.nodes.length < fuel) :
    ∃ t, setToTopologicalOrder fuel (shuffleGraph shuffle s) = .ok () t ∧ t.TestSet extra ∧
      t.dag.nodes.Perm s.dag.nodes ∧ t.dag.numberOfEdges = s.dag.numberOfEdges := by
  have perm : (shuffleGraph shuffle s).dag.nodes.Perm s.dag.nodes := shuffle.perm s.dag.nodes
  have wired : (shuffleGraph shuffle s).Wired := sorted.wired.of_perm perm (fun _ => rfl) fun _ => rfl
  have countedShuffled : (shuffleGraph shuffle s).Counted :=
    counted.of_perm sorted.wired.nodup perm (fun _ => rfl) rfl
  have ranked : Acyclic (s.AdjWith extra) := .of_rank s.heap.index fun u v edge =>
    edge.elim (fun old => sorted.ascends old.1 old.2) (new.ascends rfl (u, v))
  obtain ⟨_, t, returned, sortedT, permT, countT, same⟩ | ⟨cyclic, _⟩ :=
    setToTopologicalOrder_cases wired countedShuffled (show _ < fuel by rw [perm.length_eq]; exact enough)
  · have permBoth := permT.trans perm
    have outgoing : ∀ v, (t.heap v).outgoingEdges = (s.heap v).outgoingEdges := fun v => (same v).1
    refine ⟨t, returned, ⟨sortedT, counted.of_perm sorted.wired.nodup permBoth outgoing countT, ?_, ?_,
      new.nodup, ?_, ?_⟩, permBoth, countT⟩
    · intro v member
      rw [outgoing]
      exact simple v (permBoth.mem_iff.mp member)
    · exact fun e member => ⟨permBoth.mem_iff.mpr (new.members e member).1,
        permBoth.mem_iff.mpr (new.members e member).2⟩
    · intro e member
      rw [outgoing]
      exact new.notMem member
    · refine ranked.mono fun u v edge => edge.imp_left fun old => ⟨permBoth.mem_iff.mp old.1, ?_⟩
      rw [← outgoing]
      exact old.2
  · refine absurd (ranked.mono fun u v edge => .inl ⟨perm.mem_iff.mp edge.1, edge.2⟩) cyclic

/-- Generating a test set that is not refused and has enough draws. -/
theorem generateTestSet_ok {alloc : ℕ ↪ Ptr} {heap : Heap Ptr} {shuffle : StdShuffle Ptr} {fuel : ℕ}
    {n m k : ℤ} (inRange : ∀ d ∈ draws, 0 ≤ d ∧ d ≤ n - 1) (positive : 0 ≤ k)
    (accepted : ∀ what, generateGraph alloc heap draws n m true ≠ .error (.invalidArgument what))
    (longEnough : generateTestSet alloc heap draws shuffle fuel n m k ≠ .error .outOfDraws)
    (enough : n < fuel) :
    ∃ t extra, generateTestSet alloc heap draws shuffle fuel n m k = .ok (t, extra) ∧ t.TestSet extra ∧
      t.dag.nodes.Perm ((List.range n.toNat).map alloc) ∧ t.dag.numberOfEdges + extra.length = m + k ∧
      t.dag.nodes.length < fuel := by
  rcases generated : generateGraph alloc heap draws n m true with e | ⟨s, rest⟩
  · obtain ⟨what, rfl⟩ | rfl := generateGraph_error inRange generated
    · exact absurd generated (accepted what)
    · exact absurd (by simp only [generateTestSet, generated]; rfl) longEnough
  obtain ⟨edges, rfl, atLeast, length, new, fewer⟩ := generateGraph_ok inRange generated
  have sorted := generated_sorted new rfl
  have size := allocated_length alloc heap n.toNat
  have inRangeRest : ∀ d ∈ rest,
      0 ≤ d ∧ d < (appendAll edges (allocated alloc heap n.toNat)).dag.nodes.length := by
    intro d member
    have := inRange d (fewer member)
    rw [appendAll_nodes, size]
    omega
  rcases drawn : generateExtraEdges (appendAll edges (allocated alloc heap n.toNat)) rest k with
    e | ⟨extra, left⟩
  · obtain rfl := generateExtra_error sorted.numbered inRangeRest drawn
    exact absurd (by simp only [generateTestSet, generated, drawn, bind, Except.bind]) longEnough
  obtain ⟨_, rfl, count, newExtra, _⟩ := generateExtra_ok sorted.numbered inRangeRest drawn
  have bound : (appendAll edges (allocated alloc heap n.toNat)).dag.nodes.length < fuel := by
    rw [appendAll_nodes, size]
    omega
  obtain ⟨t, returned, testSet, perm, same⟩ := exists_testSet sorted (generated_counted new)
    (fun v member => (generated_simple new member).1) newExtra shuffle bound
  refine ⟨t, extra, ?_, testSet, perm, ?_, by rwa [perm.length_eq]⟩
  · simp only [generateTestSet, generated, drawn, bind, Except.bind, returned]
    rfl
  · have total : (appendAll edges (allocated alloc heap n.toNat)).dag.numberOfEdges = 0 + (edges.length : ℤ) := rfl
    rw [same, total]
    omega

/-- Every accepted and finished generation of a test set ends, and so do both runs on it, with the same
nodes in topological order, exactly the edges of the dag and the additional ones, no self-loop and no
parallel edge. -/
theorem evaluation_finishes {alloc : ℕ ↪ Ptr} {heap : Heap Ptr} {shuffle : StdShuffle Ptr} {fuel : ℕ}
    {n m k : ℤ} (inRange : ∀ d ∈ draws, 0 ≤ d ∧ d ≤ n - 1) (positive : 0 ≤ k)
    (accepted : ∀ what, generateGraph alloc heap draws n m true ≠ .error (.invalidArgument what))
    (longEnough : generateTestSet alloc heap draws shuffle fuel n m k ≠ .error .outOfDraws)
    (enough : n < fuel) (sort : StdSort (Edge Ptr)) :
    ∃ testSet, generateTestSet alloc heap draws shuffle fuel n m k = .ok testSet ∧
      (∃ t, DynamicDag.runTestPk2 sort testSet = .ok t ∧
        t.Finished testSet ((List.range n.toNat).map alloc) (m + k)) ∧
      ∃ t, DynamicDag.runTestKahn fuel testSet = .ok t ∧
        t.Finished testSet ((List.range n.toNat).map alloc) (m + k) := by
  obtain ⟨s, extra, returned, testSet, perm, count, bound⟩ :=
    generateTestSet_ok inRange positive accepted longEnough enough
  obtain ⟨t, inserted, finished⟩ := testSet.runTestPk2 sort
  obtain ⟨u, sortedAgain, finishedAgain⟩ := testSet.runTestKahn bound
  rw [count] at finished finishedAgain
  exact ⟨_, returned, ⟨t, inserted, { finished with nodes := finished.nodes.trans perm }⟩,
    u, sortedAgain, { finishedAgain with nodes := finishedAgain.nodes.trans perm }⟩

/-- Three nodes, two edges, one additional edge, and the nodes reversed by the shuffle. -/
theorem evaluation_finishes_three : ∃ testSet,
    generateTestSet (.refl ℕ) (fun _ => ⟨[], [], 0⟩) [0, 1, 2, 1, 0, 2] ⟨List.reverse, List.reverse_perm⟩
        4 3 2 1 = .ok testSet ∧
      ∃ t, DynamicDag.runTestPk2 (.insertion _) testSet = .ok t ∧ t.Finished testSet [0, 1, 2] 3 := by
  obtain ⟨s, rest, generated⟩ : ∃ s rest, generateGraph (.refl ℕ) (fun _ => ⟨[], [], 0⟩)
      [0, 1, 2, 1, 0, 2] 3 2 true = .ok (s, rest) := ⟨_, _, rfl⟩
  obtain ⟨testSet, ended⟩ : ∃ testSet, generateTestSet (.refl ℕ) (fun _ => ⟨[], [], 0⟩)
      [0, 1, 2, 1, 0, 2] ⟨List.reverse, List.reverse_perm⟩ 4 3 2 1 = .ok testSet := ⟨_, rfl⟩
  have inRange : ∀ d ∈ ([0, 1, 2, 1, 0, 2] : List ℤ), 0 ≤ d ∧ d ≤ 3 - 1 := by decide
  obtain ⟨testSet, returned, run, _⟩ := evaluation_finishes inRange (show (0 : ℤ) ≤ 1 by decide)
    (fun what refused => by rw [generated] at refused; contradiction)
    (fun short => by rw [ended] at short; contradiction) (by decide) (.insertion _)
  exact ⟨testSet, returned, run⟩

end Store

end DynamicDag
