import DynamicDag.Proofs.Copies
import DynamicDag.Proofs.Pipeline
import Mathlib.Data.List.FinRange

/-! # Runs at other addresses

The random functions see nodes by the number of their allocation only. So each of them has one outcome
over these numbers, returned or thrown, and every run with the same draws is a copy of it: at the addresses
this run was given, in the memory it found.
-/

namespace DynamicDag

open CheckedAccess Procedures

variable {Ptr : Type} [DecidableEq Ptr]

/-- The first nodes, named by the number of their allocation, before their first edge. -/
def freshHeap (n : ℕ) : Heap (Fin n) := fun v => ⟨[], [], (v : ℕ)⟩

/-- Where the first allocations are. -/
def addressOf (alloc : ℕ ↪ Ptr) (n : ℕ) : Fin n ↪ Ptr := Fin.valEmbedding.trans alloc

theorem newNodes_elsewhere (alloc : ℕ ↪ Ptr) (heap : Heap Ptr) {n : ℕ} {q : Ptr}
    (outside : ∀ i < n, alloc i ≠ q) : newNodes alloc heap n q = heap q := by
  induction n with
  | zero => rfl
  | succ n ih =>
    rw [newNodes, Function.update_of_ne (outside n n.lt_succ_self).symm]
    exact ih fun i early => outside i (by omega)

theorem newNodes_eq_copy (alloc : ℕ ↪ Ptr) (heap : Heap Ptr) (n : ℕ) :
    newNodes alloc heap n = (freshHeap n).copy (addressOf alloc n) heap := by
  funext q
  by_cases inside : q ∈ Set.range (addressOf alloc n)
  · obtain ⟨v, rfl⟩ := inside
    rw [Heap.copy_address]
    exact newNodes_alloc alloc heap v.isLt
  · rw [Heap.copy_elsewhere _ _ _ inside]
    apply newNodes_elsewhere
    intro i early same
    exact inside ⟨⟨i, early⟩, same⟩

omit [DecidableEq Ptr] in
theorem map_range_alloc (alloc : ℕ ↪ Ptr) (n : ℕ) :
    (List.range n).map alloc = (List.finRange n).map (addressOf alloc n) := by
  rw [← List.map_coe_finRange_eq_range, List.map_map]
  rfl

/-- A store and a list of edges at their addresses. -/
noncomputable def copyTestSet {P : Type} (address : P ↪ Ptr) (memory : Heap Ptr)
    (testSet : Store P × List (Edge P)) : Store Ptr × List (Edge Ptr) :=
  (testSet.1.copy address memory, testSet.2.map (copyEdge address))

theorem generateGraph_copies (draws : List ℤ) (n m : ℤ) (shouldBeDag : Bool) :
    ∃ outcome : Except Fault (Store (Fin n.toNat) × List ℤ), ∀ (alloc : ℕ ↪ Ptr) (heap : Heap Ptr),
      generateGraph alloc heap draws n m shouldBeDag =
        outcome.map fun r => (r.1.copy (addressOf alloc n.toNat) heap, r.2) := by
  simp only [generateGraph]
  split_ifs
  · exact ⟨.error _, fun _ _ => rfl⟩
  · exact ⟨.error _, fun _ _ => rfl⟩
  · exact ⟨.error _, fun _ _ => rfl⟩
  · refine ⟨(generateEdges shouldBeDag (List.finRange n.toNat) m.toNat ∅ (freshHeap n.toNat) draws).map
      fun r => (⟨r.1, ⟨List.finRange n.toNat, m⟩⟩, r.2), fun alloc heap => ?_⟩
    rw [newNodes_eq_copy, map_range_alloc, generateEdges_copy]
    cases generateEdges shouldBeDag (List.finRange n.toNat) m.toNat ∅ (freshHeap n.toNat) draws <;> rfl

section Runs

variable {P : Type} [DecidableEq P] (address : P ↪ Ptr) (memory : Heap Ptr)

theorem runTestPk2_copy {sort : StdSort (Edge P)} {sort' : StdSort (Edge Ptr)}
    (follows : sort'.Follows sort (copyEdge address)) (testSet : Store P × List (Edge P)) :
    runTestPk2 sort' (copyTestSet address memory testSet) =
      (runTestPk2 sort testSet).map fun s => s.copy address memory := by
  have inserted := Store.insertEdges_copy address memory follows testSet.2 testSet.1
  simp only [runTestPk2, copyTestSet, inserted]
  cases insertEdges sort testSet.2 testSet.1 <;> rfl

theorem runTestKahn_copy (fuel : ℕ) (testSet : Store P × List (Edge P)) :
    runTestKahn fuel (copyTestSet address memory testSet) =
      (runTestKahn fuel testSet).map fun s => s.copy address memory := by
  have sorted := setToTopologicalOrder_copy address memory fuel (appendAll testSet.2 testSet.1)
  simp only [runTestKahn, copyTestSet, Store.appendAll_copy, sorted]
  cases setToTopologicalOrder fuel (appendAll testSet.2 testSet.1) <;> rfl

end Runs

section Engine

variable {sort : StdSort (Edge Ptr)} {shuffle : StdShuffle Ptr}

theorem generateTestSet_copies (positional : shuffle.Positional) (draws : List ℤ) (fuel : ℕ) (n m k : ℤ) :
    ∃ outcome : Except Fault (Store (Fin n.toNat) × List (Edge (Fin n.toNat))),
      ∀ (alloc : ℕ ↪ Ptr) (heap : Heap Ptr), generateTestSet alloc heap draws shuffle fuel n m k =
        outcome.map (copyTestSet (addressOf alloc n.toNat) heap) := by
  obtain none | ⟨⟨base⟩⟩ := isEmpty_or_nonempty (ℕ ↪ Ptr)
  · exact ⟨.error .outOfDraws, fun alloc => none.elim alloc⟩
  obtain ⟨smaller, follows⟩ := positional.exists_follows (addressOf base n.toNat)
  obtain ⟨generated, copies⟩ := @generateGraph_copies Ptr _ draws n m true
  refine ⟨generated.bind fun r => (generateExtraEdges r.1 r.2 k).bind fun extra =>
    match setToTopologicalOrder fuel (shuffleGraph smaller r.1) with
    | .error e _ => .error e
    | .ok _ dag => .ok (dag, extra.1), fun alloc heap => ?_⟩
  rw [generateTestSet, copies]
  apply bind_map rfl
  intro r
  apply bind_map (generateExtraEdges_copy (addressOf alloc n.toNat) heap r.1 r.2 k)
  intro extra
  have sorted := setToTopologicalOrder_copy (addressOf alloc n.toNat) heap fuel (shuffleGraph smaller r.1)
  rw [shuffleGraph_copy _ _ (follows _), sorted]
  cases setToTopologicalOrder fuel (shuffleGraph smaller r.1) <;> rfl

theorem generateAndRun_copies (comparing : sort.Comparing) {seeded : Seeded Ptr}
    (positional : seeded.shuffle.Positional) (params : TestSetParams) (pk2 : Bool) :
    ∃ outcome : Except Fault (Store (Fin params.numberOfNodes.toNat)),
      ∀ (alloc : ℕ ↪ Ptr) (heap : Heap Ptr), generateAndRun sort alloc heap seeded params pk2 =
        outcome.map fun s => s.copy (addressOf alloc params.numberOfNodes.toNat) heap := by
  obtain none | ⟨⟨base⟩⟩ := isEmpty_or_nonempty (ℕ ↪ Ptr)
  · exact ⟨.error .outOfDraws, fun alloc => none.elim alloc⟩
  obtain ⟨smaller, follows⟩ :=
    comparing.exists_follows (edgeAddress (addressOf base params.numberOfNodes.toNat))
  obtain ⟨testSet, copies⟩ := generateTestSet_copies positional seeded.draws
    (params.numberOfNodes.toNat + 1) params.numberOfNodes params.numberOfEdges params.batchSize
  refine ⟨testSet.bind fun testSet => if pk2 then runTestPk2 smaller testSet
    else runTestKahn (params.numberOfNodes.toNat + 1) testSet, fun alloc heap => ?_⟩
  rw [generateAndRun, copies]
  apply bind_map rfl
  intro testSet
  cases pk2 with
  | true => exact runTestPk2_copy _ _ (follows _) testSet
  | false => exact runTestKahn_copy _ _ _ testSet

end Engine

/-- What shows through the pointers: the index of every node, and those of its neighbours. -/
def Store.view (s : Store Ptr) : List (ℤ × List ℤ × List ℤ) × ℤ :=
  (s.dag.nodes.map fun v => (s.heap.index v, (s.heap v).outgoingEdges.map s.heap.index,
    (s.heap v).incomingEdges.map s.heap.index), s.dag.numberOfEdges)

omit [DecidableEq Ptr] in
theorem Store.view_copy {P : Type} (address : P ↪ Ptr) (memory : Heap Ptr) (s : Store P) :
    (s.copy address memory).view = s.view := by
  simp only [view, copy, Graph.map, List.map_map, Function.comp_def, Heap.copy_address, Node.map,
    Heap.index_copy]

/-- Two runs with the same seed end alike, by the same exception or with graphs that look the same,
wherever the nodes are allocated and whatever the memory holds. -/
theorem evaluation_reproducible {sort : StdSort (Edge Ptr)} (comparing : sort.Comparing) {seeded : Seeded Ptr}
    (positional : seeded.shuffle.Positional) (params : TestSetParams) (alloc other : ℕ ↪ Ptr)
    (heap memory : Heap Ptr) :
    (∀ shouldBeDag : Bool,
      (generateGraph alloc heap seeded.draws params.numberOfNodes params.numberOfEdges shouldBeDag).map
          (fun r => (r.1.view, r.2)) =
        (generateGraph other memory seeded.draws params.numberOfNodes params.numberOfEdges shouldBeDag).map
          fun r => (r.1.view, r.2)) ∧
    ∀ pk2 : Bool, (generateAndRun sort alloc heap seeded params pk2).map Store.view =
      (generateAndRun sort other memory seeded params pk2).map Store.view := by
  constructor
  · intro shouldBeDag
    obtain ⟨outcome, copies⟩ :=
      @generateGraph_copies Ptr _ seeded.draws params.numberOfNodes params.numberOfEdges shouldBeDag
    rw [copies, copies]
    cases outcome with
    | error e => rfl
    | ok r => simp only [Except.map, Store.view_copy]
  · intro pk2
    obtain ⟨outcome, copies⟩ := generateAndRun_copies comparing positional params pk2
    rw [copies, copies]
    cases outcome with
    | error e => rfl
    | ok s => simp only [Except.map, Store.view_copy]

/-- The same seed behind five other nodes, in a memory of arcs and indices that mean nothing. -/
theorem evaluation_reproducible_behind :
    (generateAndRun (.insertion _) (allocFrom (.refl ℕ) 5) (fun v => ⟨[v], [v, v], 7⟩)
        ⟨[0, 1, 2, 1, 0, 2], ⟨List.reverse, List.reverse_perm⟩⟩ ⟨3, 2, 1, 1⟩ true).map Store.view =
      .ok ([(0, [1, 2], []), (1, [2], [0]), (2, [], [1, 0])], 3) := by
  have positional : Seeded.shuffle
      (⟨[0, 1, 2, 1, 0, 2], ⟨List.reverse, List.reverse_perm⟩⟩ : Seeded ℕ) |>.Positional :=
    fun f nodes => List.map_reverse.symm
  have alike := evaluation_reproducible StdSort.insertion_comparing positional ⟨3, 2, 1, 1⟩
    (allocFrom (.refl ℕ) 5) (.refl ℕ) (fun v => ⟨[v], [v, v], 7⟩) fun _ => ⟨[], [], 0⟩
  exact (alike.2 true).trans rfl

end DynamicDag
