import DynamicDag.Proofs.Amortized
import Mathlib.Tactic.Linarith

/-! # A run with the longest searches

A path that is inserted from its end, one edge after the other, against the order of the nodes: every new
edge leads from the next node to the first one, so that its call takes all nodes inserted before. The run
turns the order round, and its searches come as close to the bound for a whole run as single edges can.
-/

namespace DynamicDag.Store

open Relation Reinsertion Numbering

variable {Ptr : Type} [DecidableEq Ptr] {s t : Store Ptr} {edges : List (Edge Ptr)} {sort : StdSort (Edge Ptr)}
  {x y v w : Ptr} {front rest : List Ptr}

section Single

variable (sorted : s.Sorted) (tail : x ∈ s.dag.nodes) (head : y ∈ s.dag.nodes)
  (back : s.heap.index y < s.heap.index x)

omit [DecidableEq Ptr] in
include back in
theorem invalidating_single : s.invalidating [(x, y)] = [(x, y)] := by
  rw [invalidating, List.filter_singleton, decide_eq_true back.le]
  rfl

include back in
theorem reads_single : s.Reads [(x, y)] v ↔ ReachBelow (appendAll [(x, y)] s).heap.succ s.heap.index x y v := by
  rw [Reads, invalidating_single back]
  simp

include sorted tail head back

/-- A single edge discovers what its call reads. -/
theorem discovers_single {z : Ptr} : s.Discovers [(x, y)] z v ↔ z = x ∧ s.Reads [(x, y)] v := by
  have spans : s.Spans [(x, y)] := List.forall_mem_singleton.mpr ⟨tail, head⟩
  have closed := (sorted.appendAll_placed spans).closed
  simp only [reads_single back, Discovers, invalidating_single back, List.mem_singleton, Prod.mk.injEq]
  constructor
  · rintro ⟨_, ⟨rfl, rfl⟩, _, path⟩
    exact ⟨rfl, ReflTransGen.mono (fun _ _ step => ⟨((appendAll_adj spans _ _).mpr step.1).2, step.2⟩) _ _ path⟩
  · rintro ⟨rfl, reach⟩
    refine ⟨y, ⟨rfl, rfl⟩, back, ?_⟩
    have path : v ∈ s.dag.nodes ∧
        ReflTransGen (fun a b => s.AdjWith [(z, y)] a b ∧ s.heap.index b < s.heap.index z) y v := by
      induction reach with
      | refl => exact ⟨head, .refl⟩
      | tail _ last ih =>
        have edge := (appendAll_adj spans _ _).mp ⟨ih.1, last.1⟩
        exact ⟨closed _ ih.1 _ last.1, ih.2.tail ⟨edge, last.2⟩⟩
    exact path.2

open Classical in
/-- A single edge that closes no cycle costs two rounds for every node that it reaches below its tail, but one. -/
theorem insertEdges_single_rounds (acyclic : Acyclic (s.AdjWith [(x, y)])) (sort : StdSort (Edge Ptr)) :
    1 + insertEdgesSearches .round sort [(x, y)] s = 2 * {v ∈ s.dag.nodes.toFinset | s.Reads [(x, y)] v}.card := by
  have spans : s.Spans [(x, y)] := List.forall_mem_singleton.mpr ⟨tail, head⟩
  have placed := sorted.appendAll_placed spans
  rw [insertEdgesSearches_single sorted tail head back.le (round_abstracts _ _) sort]
  have available {u : Ptr} : untaken (appendAll [(x, y)] s).heap [] ((appendAll [(x, y)] s).heap.index x) u = true ↔
      s.heap.index u < s.heap.index x := by
    simp [untaken, appendAll_index]
  obtain ⟨found, returned, result⟩ | ⟨_, c, cycle⟩ := DepthFirst.search_cases cycleDetected Fault.outOfFuel
    (fun v reach => inside_of_reach placed.closed head v reach) (Nat.le_refl (2 * s.dag.nodes.length))
  · rw [DepthFirst.spent_rounds_eq returned, ← List.toFinset_card_of_nodup result.nodup]
    congr 2
    ext v
    have reach : DepthFirst.Reach (appendAll [(x, y)] s).heap.succ
        (untaken (appendAll [(x, y)] s).heap [] ((appendAll [(x, y)] s).heap.index x)) y v ↔
          s.Reads [(x, y)] v := by
      rw [reads_single back, DepthFirst.Reach, ReachBelow]
      simp only [available]
    rw [List.mem_toFinset, result.mem_iff, Finset.mem_filter, List.mem_toFinset, reach, and_iff_right_of_imp]
    exact fun read => inside_of_reach placed.closed head v (reach.mpr read)
  · refine absurd (TransGen.mono (fun u v step => ?_) c c cycle) (acyclic c)
    exact (appendAll_adj spans u v).mp ⟨inside_of_reach placed.closed head u step.2.1, step.1⟩

/-- The call makes a round of `shift` for every slot from the head to the tail. -/
theorem insertEdges_single_shifts (acyclic : Acyclic (s.AdjWith [(x, y)])) (sort : StdSort (Edge Ptr)) :
    (insertEdgesShifts sort [(x, y)] s : ℤ) = s.heap.index x - s.heap.index y + 1 := by
  have spans : s.Spans [(x, y)] := List.forall_mem_singleton.mpr ⟨tail, head⟩
  obtain ⟨t, returned, _⟩ := insertEdges_of_acyclic sorted spans acyclic sort
  obtain ⟨i, iBound, _, atI⟩ := sorted.numbered.exists_slot tail
  obtain ⟨j, _, _, atJ⟩ := sorted.numbered.exists_slot head
  have slots : s.affected [(x, y)] = Finset.Icc j i := by
    ext slot
    rw [mem_affected, Finset.mem_Icc]
    simp only [List.mem_singleton, exists_eq_left, atI, atJ]
    omega
  rw [(insertEdges_shifts sorted spans sort).2 t returned, slots, Nat.card_Icc]
  omega

end Single

/-- The nodes in front are those inserted so far, each of which reaches the next ones. Nothing leaves them, and
the other nodes have no edges. -/
structure Stacked (s : Store Ptr) (front rest : List Ptr) : Prop where
  sorted : s.Sorted
  nodes : s.dag.nodes = front ++ rest
  reaches : front.Pairwise (TransGen s.Adj)
  within : ∀ u ∈ front, ∀ v ∈ (s.heap u).outgoingEdges, v ∈ front
  bare : ∀ u ∈ rest, (s.heap u).outgoingEdges = []

namespace Stacked

variable {below : List Ptr} (stacked : s.Stacked (v :: below) (w :: rest))

include stacked

theorem index_head : s.heap.index v = 0 := by
  have own := stacked.sorted.numbered 0 (by simp [stacked.nodes])
  simpa [stacked.nodes] using own

theorem index_next : s.heap.index w = below.length + 1 := by
  have own := stacked.sorted.numbered (below.length + 1) (by simp [stacked.nodes])
  simpa [stacked.nodes] using own

theorem index_lt {u : Ptr} (member : u ∈ v :: below) : s.heap.index u < s.heap.index w := by
  have ascending := stacked.sorted.numbered.pairwise_lt
  rw [stacked.nodes] at ascending
  exact (List.pairwise_append.mp ascending).2.2 u member w List.mem_cons_self

theorem mem_front {u : Ptr} (member : u ∈ v :: below) : u ∈ s.dag.nodes :=
  stacked.nodes ▸ List.mem_append_left _ member

theorem mem_next : w ∈ s.dag.nodes := by
  simp [stacked.nodes]

theorem spans : s.Spans [(w, v)] :=
  List.forall_mem_singleton.mpr ⟨stacked.mem_next, stacked.mem_front List.mem_cons_self⟩

theorem ne_next {u : Ptr} (member : u ∈ v :: below) : u ≠ w := fun same =>
  (stacked.index_lt member).ne (congrArg _ same)

/-- The new edge closes no cycle, since nothing leads to its tail. -/
theorem acyclic : Acyclic (s.AdjWith [(w, v)]) := by
  refine acyclic_of_rank (fun u => if u = w then 0 else (s.heap.index u).toNat + 1) (fun u inside z edge => ?_) ?_
  · rw [stacked.nodes, List.mem_append] at inside
    obtain early | late := inside
    · have target := stacked.within u early z edge
      have up := stacked.sorted.ascends (stacked.mem_front early) edge
      have low := (stacked.sorted.numbered.bounds (stacked.mem_front early)).1
      rw [if_neg (stacked.ne_next early), if_neg (stacked.ne_next target)]
      omega
    · rw [stacked.bare u late] at edge
      exact absurd edge List.not_mem_nil
  · rw [List.forall_mem_singleton, if_pos rfl, if_neg (stacked.ne_next List.mem_cons_self)]
    omega

/-- The call reads all nodes inserted before. -/
theorem reads_iff {u : Ptr} : s.Reads [(w, v)] u ↔ u ∈ v :: below := by
  have kept {a : Ptr} (member : a ∈ v :: below) :
      (appendAll [(w, v)] s).heap.succ a = (s.heap a).outgoingEdges := by
    simp [Heap.succ, appendAll_outgoing, headsFrom, (stacked.ne_next member).symm]
  rw [reads_single (by rw [stacked.index_head, stacked.index_next]; omega)]
  constructor
  · intro reach
    induction reach with
    | refl => exact List.mem_cons_self
    | tail _ last ih => exact stacked.within _ ih _ (kept ih ▸ last.1)
  · intro member
    obtain rfl | later := List.mem_cons.mp member
    · exact .refl
    · have path := (List.pairwise_cons.mp stacked.reaches).1 u later
      clear member later
      have reach : u ∈ v :: below ∧ ReachBelow (appendAll [(w, v)] s).heap.succ s.heap.index w v u := by
        induction path with
        | single step =>
          have target := stacked.within v List.mem_cons_self _ step.2
          exact ⟨target, .single ⟨(kept List.mem_cons_self).symm ▸ step.2, stacked.index_lt target⟩⟩
        | tail _ step ih =>
          have target := stacked.within _ ih.1 _ step.2
          exact ⟨target, ih.2.tail ⟨(kept ih.1).symm ▸ step.2, stacked.index_lt target⟩⟩
      exact reach.2

theorem discovers_iff {x u : Ptr} : s.Discovers [(w, v)] x u ↔ x = w ∧ u ∈ v :: below := by
  rw [discovers_single stacked.sorted stacked.mem_next (stacked.mem_front List.mem_cons_self)
    (stacked.index_lt List.mem_cons_self), stacked.reads_iff]

/-- The call puts the nodes inserted before behind the new one, in their order. -/
theorem next_nodes (returned : insertEdges sort [(w, v)] s = .ok () t) (inOrder : t.Sorted) :
    t.dag.nodes = w :: v :: below ++ rest := by
  obtain ⟨moves, arranges⟩ := insertEdges_arranges stacked.sorted stacked.spans returned
  have moved {u x : Ptr} : (u, x) ∈ moves ↔ x = w ∧ u ∈ v :: below := by
    rw [arranges.tails, LastTail, stacked.discovers_iff, and_iff_left_of_imp]
    rintro ⟨rfl, _⟩ z found
    rw [(stacked.discovers_iff.mp found).1]
  have sources {u : Ptr} : u ∈ moves.map Prod.fst ↔ u ∈ v :: below := by
    rw [arranges.moved]
    simp [stacked.discovers_iff]
  have unique := stacked.sorted.numbered.nodup
  rw [stacked.nodes, List.nodup_append] at unique
  obtain ⟨uniqueFront, uniqueLater, apart⟩ := unique
  have order : t.dag.nodes = w :: block moves w ++ rest := by
    have fixed : w ∉ moves.map Prod.fst := fun inside => stacked.ne_next (sources.mp inside) rfl
    rw [arranges.nodes, stacked.nodes, reinsert_append, reinsert_of_moved fun u member => sources.mpr member,
      ← List.singleton_append, reinsert_append, reinsert_singleton_kept fixed, reinsert_eq_self]
    · rfl
    · rintro ⟨u, x⟩ listed
      obtain ⟨rfl, member⟩ := moved.mp listed
      exact ⟨fun late => apart u member u (List.mem_cons_of_mem _ late) rfl, (List.nodup_cons.mp uniqueLater).1⟩
  -- the moved nodes keep their order, since the edges force it
  have same : block moves w = v :: below := by
    have perm : (block moves w).Perm (v :: below) :=
      (List.perm_ext_iff_of_nodup (block_nodup arranges.movable.nodup w) uniqueFront).mpr fun u => by
        rw [mem_block, moved, and_iff_right rfl]
    have adj : ∀ a b, s.Adj a b → t.Adj a b := fun a b edge => (arranges.adj a b).mpr (.inl edge)
    have ascending := inOrder.numbered.pairwise_lt
    rw [order] at ascending
    exact List.Perm.eq_of_pairwise (fun a b _ _ up down => absurd up down.asymm)
      (List.pairwise_cons.mp (List.pairwise_append.mp ascending).1).2
      (stacked.reaches.imp fun path => inOrder.index_lt_of_path (TransGen.mono adj _ _ path)) perm
  rw [order, same]

/-- The call stacks the next node on the nodes inserted before. -/
theorem next (sort : StdSort (Edge Ptr)) :
    ∃ t, insertEdges sort [(w, v)] s = .ok () t ∧ t.Stacked (w :: v :: below) rest := by
  obtain ⟨t, returned, sorted, _, outgoing, _, _⟩ := insertEdges_of_acyclic stacked.sorted stacked.spans
    stacked.acyclic sort
  obtain ⟨_, arranges⟩ := insertEdges_arranges stacked.sorted stacked.spans returned
  have adj : ∀ a b, s.Adj a b → t.Adj a b := fun a b edge => (arranges.adj a b).mpr (.inl edge)
  have added : t.Adj w v := (arranges.adj w v).mpr (.inr (List.mem_singleton_self _))
  have fresh : w ∉ rest := by
    have unique := stacked.sorted.numbered.nodup
    rw [stacked.nodes, List.nodup_append] at unique
    exact (List.nodup_cons.mp unique.2.1).1
  refine ⟨t, returned, sorted, stacked.next_nodes returned sorted,
    List.pairwise_cons.mpr ⟨fun u member => ?_, ?_⟩, fun u member z edge => ?_, fun u late => ?_⟩
  · obtain rfl | later := List.mem_cons.mp member
    · exact .single added
    · exact .head added (TransGen.mono adj _ _ ((List.pairwise_cons.mp stacked.reaches).1 u later))
  · exact stacked.reaches.imp fun path => TransGen.mono adj _ _ path
  · rw [outgoing, List.mem_append, mem_headsFrom, List.mem_singleton, Prod.mk.injEq] at edge
    obtain old | ⟨_, rfl⟩ := edge
    · obtain rfl | early := List.mem_cons.mp member
      · rw [stacked.bare u List.mem_cons_self] at old
        exact absurd old List.not_mem_nil
      · exact List.mem_cons_of_mem _ (stacked.within u early z old)
    · exact List.mem_cons_of_mem _ List.mem_cons_self
  · have other : w ≠ u := fun same => fresh (same ▸ late)
    rw [outgoing, stacked.bare u (List.mem_cons_of_mem _ late)]
    simp [headsFrom, other]

/-- The call makes two rounds of the search for every node inserted before, but one. -/
theorem rounds_eq (sort : StdSort (Edge Ptr)) :
    insertEdgesSearches .round sort [(w, v)] s = 2 * below.length + 1 := by
  classical
  have exactly := insertEdges_single_rounds stacked.sorted stacked.mem_next (stacked.mem_front List.mem_cons_self)
    (stacked.index_lt List.mem_cons_self) stacked.acyclic sort
  have unique := stacked.sorted.numbered.nodup
  rw [stacked.nodes, List.nodup_append] at unique
  have taken : ({u ∈ s.dag.nodes.toFinset | s.Reads [(w, v)] u} : Finset Ptr) = (v :: below).toFinset := by
    ext u
    rw [Finset.mem_filter, List.mem_toFinset, List.mem_toFinset, stacked.reads_iff]
    exact and_iff_right_of_imp stacked.mem_front
  rw [taken, List.toFinset_card_of_nodup unique.1, List.length_cons] at exactly
  omega

/-- The call makes a round of `shift` for every node up to the new one. -/
theorem shifts_eq (sort : StdSort (Edge Ptr)) : insertEdgesShifts sort [(w, v)] s = below.length + 2 := by
  have exactly := insertEdges_single_shifts stacked.sorted stacked.mem_next (stacked.mem_front List.mem_cons_self)
    (stacked.index_lt List.mem_cons_self) stacked.acyclic sort
  rw [stacked.index_head, stacked.index_next] at exactly
  omega

end Stacked

/-- A path through the nodes against their order, one edge for each batch. -/
def againstOrder : List Ptr → List (List (Edge Ptr))
  | v :: w :: rest => [(w, v)] :: againstOrder (w :: rest)
  | _ => []

/-- The rest of the run, from the nodes inserted so far. -/
theorem Stacked.run (sort : StdSort (Edge Ptr)) {below : List Ptr} (stacked : s.Stacked (v :: below) rest) :
    (∃ t, insertBatches sort (againstOrder (v :: rest)) s = .ok () t ∧ t.Sorted ∧
      t.dag.nodes = rest.reverse ++ v :: below) ∧
      insertBatchesSpent (insertEdgesSearches .round sort) sort (againstOrder (v :: rest)) s + below.length ^ 2 =
        (below.length + rest.length) ^ 2 ∧
      2 * insertBatchesSpent (insertEdgesShifts sort) sort (againstOrder (v :: rest)) s +
          (below.length + 1) * (below.length + 2) =
        (below.length + rest.length + 1) * (below.length + rest.length + 2) := by
  induction rest generalizing s v below with
  | nil =>
    refine ⟨⟨s, rfl, stacked.sorted, stacked.nodes.trans (by simp)⟩, ?_, ?_⟩
    · simp [againstOrder, insertBatchesSpent]
    · simp [againstOrder, insertBatchesSpent]
  | cons w rest ih =>
    obtain ⟨t, returned, next⟩ := stacked.next sort
    obtain ⟨⟨final, finished, sorted, nodes⟩, rounds, shifts⟩ := ih next
    rw [List.length_cons] at rounds shifts
    refine ⟨⟨final, ?_, sorted, ?_⟩, ?_, ?_⟩
    · rw [againstOrder, insertBatches, Procedures.bind_ok returned, finished]
    · rw [nodes, List.reverse_cons, List.append_assoc, List.singleton_append]
    · rw [againstOrder, insertBatchesSpent, returned, stacked.rounds_eq sort, List.length_cons]
      dsimp only
      linarith
    · rw [againstOrder, insertBatchesSpent, returned, stacked.shifts_eq sort, List.length_cons]
      dsimp only
      linarith

/-- For every number of nodes there is a run of acyclic batches that searches nearly as long as any can: the
path against the order makes `(n - 1) ^ 2` rounds of the searches, of `n * (n - 1)` at most, and turns the
order round with half of `n * (n + 1) - 2` rounds of `shift`. -/
theorem insertBatches_longest (sorted : s.Sorted) (bare : ∀ v ∈ s.dag.nodes, (s.heap v).outgoingEdges = [])
    (sort : StdSort (Edge Ptr)) :
    (∃ t, insertBatches sort (againstOrder s.dag.nodes) s = .ok () t ∧ t.dag.nodes = s.dag.nodes.reverse ∧
      graphIsInTopologicalOrder t.heap t.dag = true) ∧
      insertBatchesSpent (insertEdgesSearches .round sort) sort (againstOrder s.dag.nodes) s =
        (s.dag.nodes.length - 1) ^ 2 ∧
      2 * insertBatchesSpent (insertEdgesShifts sort) sort (againstOrder s.dag.nodes) s =
        s.dag.nodes.length * (s.dag.nodes.length + 1) - 2 := by
  cases listed : s.dag.nodes with
  | nil => exact ⟨⟨s, rfl, by simp [listed], sorted.inOrder⟩, rfl, rfl⟩
  | cons v rest =>
    have stacked : s.Stacked [v] rest := by
      refine ⟨sorted, listed, List.pairwise_singleton _ _, fun u member z edge => ?_, fun u member => bare u ?_⟩
      · rw [bare u (by rw [listed, List.mem_singleton.mp member]; exact List.mem_cons_self)] at edge
        exact absurd edge List.not_mem_nil
      · exact listed ▸ List.mem_cons_of_mem _ member
    obtain ⟨⟨t, returned, inOrder, nodes⟩, rounds, shifts⟩ := stacked.run sort
    simp only [List.length_nil, List.length_cons, Nat.zero_add, Nat.add_sub_cancel] at rounds shifts ⊢
    refine ⟨⟨t, returned, by rw [nodes, List.reverse_cons], inOrder.inOrder⟩, by omega, ?_⟩
    rw [show rest.length + 1 + 1 = rest.length + 2 from rfl]
    omega

/-- Three nodes. -/
theorem insertBatches_longest_three : insertBatchesSpent (insertEdgesSearches .round (.insertion _)) (.insertion _)
    [[(1, 0)], [(2, 1)]] (edgeless 3) = 4 :=
  (insertBatches_longest (s := edgeless 3) ⟨by decide, edgeless_wired 3⟩ (by decide) (.insertion _)).2.1

end DynamicDag.Store
