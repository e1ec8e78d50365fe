import DynamicDag.General.RelatedPairs
import DynamicDag.Proofs.Work

/-! # The work of a whole run of batches

A node that a search takes was in front of the tail and is reached from it by the new edges: the two were not
connected before. Edges are never removed, so this happens once for a pair of nodes in a whole run, however
the edges of a dag are cut into batches. The pairs pay for all searches, and for the calls of `shift`.
-/

namespace DynamicDag.Store

open Relation RelatedPairs

variable {Ptr : Type} [DecidableEq Ptr] {s t : Store Ptr} {edges : List (Edge Ptr)} {sort : StdSort (Edge Ptr)}
  {u v : Ptr}

/-- The pairs of nodes that only the new edges connect. -/
noncomputable def newPairs (s : Store Ptr) (edges : List (Edge Ptr)) : Finset (Ptr × Ptr) :=
  newlyRelated s.dag.nodes.toFinset s.Adj (s.AdjWith edges)

theorem Sorted.index_lt_of_path (sorted : s.Sorted) (path : TransGen s.Adj u v) :
    s.heap.index u < s.heap.index v := by
  induction path with
  | single step => exact sorted.ascends step.1 step.2
  | tail _ step before => exact before.trans (sorted.ascends step.1 step.2)

/-- What a call reads is newly connected with the tail that reaches it. -/
theorem Reads.newPair (read : s.Reads edges v) (sorted : s.Sorted) (spans : s.Spans edges) :
    ∃ u, (u, v) ∈ s.newPairs edges := by
  obtain ⟨e, invalid, reach⟩ := read
  obtain ⟨listed, falls⟩ := mem_invalidating.mp invalid
  have reached : ReflTransGen (s.AdjWith edges) e.2 v ∧ v ∈ s.dag.nodes ∧
      s.heap.index v ≤ s.heap.index e.1 := by
    induction reach with
    | refl => exact ⟨.refl, (spans e listed).2, falls⟩
    | tail _ last ih =>
      have edge := (appendAll_adj spans _ _).mp ⟨ih.2.1, last.1⟩
      exact ⟨ih.1.tail edge, (sorted.appendAll_placed spans).closed _ ih.2.1 _ last.1, last.2.le⟩
  obtain ⟨path, inside, below⟩ := reached
  refine ⟨e.1, Finset.mem_sdiff.mpr ⟨mem_related.mpr ⟨?_, .head' (.inr listed) path⟩, fun old => ?_⟩⟩
  · exact ⟨List.mem_toFinset.mpr (spans e listed).1, List.mem_toFinset.mpr inside⟩
  · exact (sorted.index_lt_of_path (mem_related.mp old).2).not_ge below

open Classical in
/-- The nodes that a call reads are paid for by new pairs. -/
theorem sum_reads_le (sorted : s.Sorted) (spans : s.Spans edges) (weight : Ptr → ℕ) :
    ∑ v ∈ s.dag.nodes.toFinset with s.Reads edges v, weight v ≤ ∑ p ∈ s.newPairs edges, weight p.2 :=
  sum_le_newlyRelated weight fun _ member => (Finset.mem_filter.mp member).2.newPair sorted spans

open Classical in
/-- A call that repairs the order reads a node. -/
theorem le_sum_reads {cost price : ℕ} (bounded : cost ≤ price) (idle : s.invalidating edges = [] → cost = 0)
    (spans : s.Spans edges) : cost ≤ ∑ v ∈ s.dag.nodes.toFinset with s.Reads edges v, price := by
  by_cases harmless : s.invalidating edges = []
  · rw [idle harmless]
    exact Nat.zero_le _
  · obtain ⟨e, invalid⟩ := List.exists_mem_of_ne_nil _ harmless
    have read : e.2 ∈ s.dag.nodes.toFinset.filter fun v => s.Reads edges v :=
      Finset.mem_filter.mpr ⟨List.mem_toFinset.mpr (spans e (mem_invalidating.mp invalid).1).2, e, invalid, .refl⟩
    exact bounded.trans (Finset.single_le_sum (f := fun _ => price) (fun _ _ => Nat.zero_le _) read)

section Run

variable {cost : List (Edge Ptr) → Store Ptr → ℕ} {degree : Ptr → ℕ} {nodes : List Ptr}

open Classical in
/-- A cost that is paid for by the nodes that each call reads is paid for by the new pairs of the whole run. -/
theorem insertBatchesSpent_le (sort : StdSort (Edge Ptr)) (weight : Ptr → ℕ)
    (price : ∀ (t : Store Ptr) edges, t.Sorted → t.Spans edges → t.dag.nodes.Perm nodes →
      (∀ v, ((appendAll edges t).heap v).outgoingEdges.length ≤ degree v) →
        cost edges t ≤ ∑ v ∈ t.dag.nodes.toFinset with t.Reads edges v, weight v)
    (batches : List (List (Edge Ptr))) (sorted : s.Sorted) (spans : s.Spans batches.flatten)
    (acyclic : Acyclic (s.AdjWith batches.flatten)) (perm : s.dag.nodes.Perm nodes)
    (bounded : ∀ v, ((appendAll batches.flatten s).heap v).outgoingEdges.length ≤ degree v) :
    insertBatchesSpent cost sort batches s ≤ ∑ p ∈ s.newPairs batches.flatten, weight p.2 := by
  induction batches generalizing s with
  | nil => exact Nat.zero_le _
  | cons edges rest ih =>
    rw [List.flatten_cons] at spans acyclic bounded ⊢
    have first : s.Spans edges := fun e member => spans e (List.mem_append_left _ member)
    have fewer : Acyclic (s.AdjWith edges) :=
      acyclic.mono fun u v edge => edge.imp_right (List.mem_append_left _)
    obtain ⟨t, returned, sortedT, permT, outgoing, _, _⟩ := insertEdges_of_acyclic sorted first fewer sort
    have adj : t.Adj = s.AdjWith edges := by
      funext u v
      rw [← propext (appendAll_adj first u v), Adj, Adj, appendAll_nodes, appendAll_outgoing, outgoing,
        propext permT.mem_iff]
    have adjWith : t.AdjWith rest.flatten = s.AdjWith (edges ++ rest.flatten) := by
      funext u v
      rw [AdjWith, adj, AdjWith, AdjWith, List.mem_append, or_assoc]
    have later : t.Spans rest.flatten := fun e member =>
      ⟨permT.mem_iff.mpr (spans e (List.mem_append_right _ member)).1,
        permT.mem_iff.mpr (spans e (List.mem_append_right _ member)).2⟩
    have lengths : ∀ v, ((appendAll rest.flatten t).heap v).outgoingEdges.length ≤ degree v := by
      intro v
      refine le_of_eq_of_le ?_ (bounded v)
      rw [appendAll_outgoing, appendAll_outgoing, outgoing, headsFrom_append, List.append_assoc]
    have now : cost edges s ≤ ∑ p ∈ s.newPairs edges, weight p.2 := by
      refine (price s edges sorted first perm fun v => le_trans ?_ (bounded v)).trans
        (sum_reads_le sorted first weight)
      rw [appendAll_outgoing, appendAll_outgoing, headsFrom_append]
      simp only [List.length_append]
      omega
    have afterwards := ih sortedT later (adjWith ▸ acyclic) (permT.trans perm) lengths
    have whole : ∑ p ∈ s.newPairs edges, weight p.2 + ∑ p ∈ newlyRelated s.dag.nodes.toFinset (s.AdjWith edges)
        (s.AdjWith (edges ++ rest.flatten)), weight p.2 = ∑ p ∈ s.newPairs (edges ++ rest.flatten), weight p.2 :=
      sum_newlyRelated (fun _ _ => .inl) (fun _ _ edge => edge.imp_right (List.mem_append_left _)) weight
    rw [newPairs, adj, adjWith, List.toFinset_eq_of_perm _ _ permT] at afterwards
    rw [insertBatchesSpent, returned]
    exact (Nat.add_le_add now afterwards).trans_eq whole

/-- A cost with a fixed price for every call that repairs the order. -/
theorem insertBatchesSpent_le_mul (sort : StdSort (Edge Ptr)) {price : ℕ}
    (bound : ∀ (t : Store Ptr) edges, t.Sorted → t.Spans edges → t.dag.nodes.length = s.dag.nodes.length →
      cost edges t ≤ price ∧ (t.invalidating edges = [] → cost edges t = 0))
    {batches : List (List (Edge Ptr))} (sorted : s.Sorted) (spans : s.Spans batches.flatten)
    (acyclic : Acyclic (s.AdjWith batches.flatten)) :
    insertBatchesSpent cost sort batches s ≤ price * (s.newPairs batches.flatten).card := by
  have total : insertBatchesSpent cost sort batches s ≤ ∑ _p ∈ s.newPairs batches.flatten, price := by
    refine insertBatchesSpent_le sort (fun _ => price) (fun t edges sortedT spansT permT _ => ?_) batches sorted spans
      acyclic (.refl _) fun _ => le_rfl
    obtain ⟨bounded, idle⟩ := bound t edges sortedT spansT permT.length_eq
    exact le_sum_reads bounded idle spansT
  rwa [Finset.sum_const_nat fun _ _ => rfl, Nat.mul_comm] at total

end Run

/-- There are no more new pairs than an acyclic graph connects. -/
theorem card_newPairs_le (unique : s.dag.nodes.Nodup) (acyclic : Acyclic (s.AdjWith edges)) :
    2 * (s.newPairs edges).card ≤ s.dag.nodes.length * (s.dag.nodes.length - 1) := by
  have pairs := card_related_le s.dag.nodes.toFinset acyclic
  rw [List.toFinset_card_of_nodup unique] at pairs
  exact (Nat.mul_le_mul_left 2 (Finset.card_le_card Finset.sdiff_subset)).trans pairs

theorem insertEdgesCalls_of_harmless (harmless : s.invalidating edges = []) : insertEdgesCalls sort edges s = [] := by
  rw [insertEdgesCalls_eq, harmless, List.isEmpty_nil, if_pos rfl]

theorem insertEdgesShifts_le (sorted : s.Sorted) (spans : s.Spans edges) (sort : StdSort (Edge Ptr)) :
    insertEdgesShifts sort edges s ≤ s.dag.nodes.length := by
  refine (insertEdges_shifts sorted spans sort).1.trans ((Finset.card_filter_le _ _).trans_eq ?_)
  exact Finset.card_range _

/-- The work of a whole run of batches that keep the graph acyclic, however they are cut. Each pair of nodes
that the run newly connects, of at most `n * (n - 1) / 2` pairs, pays for one call that repairs the order, for
two rounds of a search, for the scans of one node, and for `n` rounds of `shift`. -/
theorem insertBatches_amortized {batches : List (List (Edge Ptr))} (sorted : s.Sorted)
    (spans : s.Spans batches.flatten) (acyclic : Acyclic (s.AdjWith batches.flatten)) (sort : StdSort (Edge Ptr)) :
    2 * (s.newPairs batches.flatten).card ≤ s.dag.nodes.length * (s.dag.nodes.length - 1) ∧
      insertBatchesSpent (insertEdgesRepairs sort) sort batches s ≤ (s.newPairs batches.flatten).card ∧
      insertBatchesSpent (insertEdgesSearches .round sort) sort batches s ≤ 2 * (s.newPairs batches.flatten).card ∧
      insertBatchesSpent (insertEdgesShifts sort) sort batches s ≤
        s.dag.nodes.length * (s.newPairs batches.flatten).card ∧
      insertBatchesSpent (insertEdgesSearches .looks sort) sort batches s ≤ ∑ p ∈ s.newPairs batches.flatten,
        ((appendAll batches.flatten s).heap p.2).outgoingEdges.length *
          (((appendAll batches.flatten s).heap p.2).outgoingEdges.length + 3) / 2 := by
  refine ⟨card_newPairs_le sorted.wired.nodup acyclic, ?repairs, ?rounds, ?shifts, ?looks⟩
  case repairs =>
    rw [← Nat.one_mul (Finset.card _)]
    refine insertBatchesSpent_le_mul sort (fun t edges _ _ _ => ⟨?_, fun harmless => ?_⟩) sorted spans acyclic
    · rw [insertEdgesRepairs]
      split_ifs <;> omega
    · rw [insertEdgesRepairs, insertEdgesCalls_of_harmless harmless]
      rfl
  case rounds =>
    have rounds := insertBatchesSpent_le sort (fun _ => 2) (fun t edges sortedT spansT _ _ =>
      insertEdges_rounds_le sortedT spansT sort) batches sorted spans acyclic (.refl _) fun _ => le_rfl
    rwa [Finset.sum_const_nat fun _ _ => rfl, Nat.mul_comm] at rounds
  case shifts =>
    refine insertBatchesSpent_le_mul sort
      (fun t edges sortedT spansT same => ⟨?_, fun harmless => ?_⟩) sorted spans
      acyclic
    · exact same ▸ insertEdgesShifts_le sortedT spansT sort
    · rw [insertEdgesShifts, insertEdgesCalls_of_harmless harmless]
      rfl
  case looks =>
    -- a node has no more edges in any call than at the end
    refine insertBatchesSpent_le sort (fun v => ((appendAll batches.flatten s).heap v).outgoingEdges.length *
      (((appendAll batches.flatten s).heap v).outgoingEdges.length + 3) / 2)
      (fun t edges sortedT spansT _ degrees => ?_) batches sorted spans acyclic (.refl _) fun _ => le_rfl
    refine (insertEdges_looks_le sortedT spansT sort).trans (Finset.sum_le_sum fun v _ => ?_)
    have degree := degrees v
    gcongr

/-- A path of three nodes is inserted against the order, one edge after the other. -/
theorem insertBatches_amortized_path :
    insertBatchesSpent (insertEdgesSearches .round (.insertion _)) (.insertion _) [[(1, 0)], [(2, 1)]]
        (edgeless 3) ≤
      6 := by
  have acyclic : Acyclic ((edgeless 3).AdjWith [[(1, 0)], [(2, 1)]].flatten) :=
    acyclic_of_rank (fun v => 2 - v) (by decide) (by decide)
  obtain ⟨pairs, _, rounds, _⟩ := insertBatches_amortized (s := edgeless 3) ⟨by decide, edgeless_wired 3⟩
    (by decide) acyclic (.insertion _)
  exact rounds.trans pairs

end DynamicDag.Store
