import DynamicDag.Abstract.Anchoring
import DynamicDag.Proofs.Placement

/-! # Orders around anchors

A call that returns moves the discovered nodes behind their last tails, also when it overlooks a cycle.
The only edges that do not ascend afterwards lead from a moved node to its own last tail. The order of
the batch and the ties of the sort decide nothing but the order within the blocks behind one tail, and
no node moves further than the new edges force it to.
-/

namespace DynamicDag

open Relation Numbering Reinsertion

variable {Ptr : Type} [DecidableEq Ptr]

namespace Store

variable {s t u : Store Ptr} {edges other : List (Edge Ptr)} {sort : StdSort (Edge Ptr)} {v w a b : Ptr}

/-- What a call that returns does to the order. -/
structure Arranges (s : Store Ptr) (edges : List (Edge Ptr)) (t : Store Ptr) (moves : EdgeQueue Ptr) : Prop where
  movable : Movable moves s.dag.nodes
  nodes : t.dag.nodes = reinsert moves s.dag.nodes
  numbered : Numbered t.heap.index t.dag.nodes
  tails : ∀ v x, (v, x) ∈ moves ↔ s.LastTail edges v x
  moved : ∀ v, v ∈ moves.map Prod.fst ↔ ∃ x, s.Discovers edges x v
  wired : t.Wired
  adj : ∀ v w, t.Adj v w ↔ s.AdjWith edges v w
  ascends : ∀ v w, t.Adj v w → t.heap.index v < t.heap.index w ∨ (v, w) ∈ moves

theorem insertEdges_arranges (sorted : s.Sorted) (spans : s.Spans edges)
    (returned : insertEdges sort edges s = .ok () t) : ∃ moves, s.Arranges edges t moves := by
  have placed := sorted.appendAll_placed spans
  obtain ⟨arranged, moves, same, accepted⟩ | ⟨first, second, moves, failed, _⟩ :=
    insertEdges_cases sorted spans sort
  · obtain ⟨rfl⟩ : (appendAll edges s).moved moves = t := by
      rw [same] at returned
      injection returned
    have members : ∀ e, e ∈ arranged ↔ e ∈ s.invalidating edges := fun e => mem_of_sort accepted.perm
    have movable := accepted.movable placed
    have discovered {x v : Ptr} := accepted.displaces_iff sorted spans members (x := x) (v := v)
    have after := (moved_placed placed movable).numbered
    refine ⟨moves, movable, rfl, after, fun v x => ?_, fun v => ?_,
      (sorted.wired.appendAll spans).arranged (movable.perm placed.numbered.nodup), fun v w => ?_,
      fun v w edge => ?_⟩
    · rw [accepted.pairs.pair_iff placed.numbered accepted.lists, appendAll_index, discovered]
      exact and_congr_right fun _ => forall_congr' fun z => by rw [discovered]
    · rw [accepted.pairs.moved_iff, appendAll_index]
      exact exists_congr fun x => discovered
    · rw [← appendAll_adj spans]
      exact and_congr_left fun _ => (movable.perm placed.numbered.nodup).mem_iff
    · have inside : v ∈ s.dag.nodes := (movable.perm placed.numbered.nodup).mem_iff.mp edge.1
      refine accepted.pairs.lt_or_mem placed.numbered placed.closed accepted.lists (fun p member q step => ?_)
        after inside edge.2
      rw [appendAll_index, members]
      exact sorted.ascends_or member step
  · rw [failed] at returned
    contradiction

omit [DecidableEq Ptr] in
/-- The updated graph leads from a tail to what it discovers. -/
theorem Discovers.path (found : s.Discovers edges a v) : TransGen (s.AdjWith edges) a v := by
  obtain ⟨y, invalid, _, path⟩ := found
  exact .head' (.inr (mem_invalidating.mp invalid).1) (ReflTransGen.mono (fun _ _ step => step.1) _ _ path)

omit [DecidableEq Ptr] in
theorem Discovers.index_lt (found : s.Discovers edges a v) : s.heap.index v < s.heap.index a := by
  obtain ⟨y, _, below, path⟩ := found
  obtain rfl | ⟨_, _, last⟩ := ReflTransGen.cases_tail_iff _ _ _ |>.mp path
  · exact below
  · exact last.2

namespace Arranges

variable {moves : EdgeQueue Ptr} (arranges : s.Arranges edges t moves)

include arranges

theorem renumbered : Numbered t.heap.index (reinsert moves s.dag.nodes) := arranges.nodes ▸ arranges.numbered

theorem perm (numbered : Numbered s.heap.index s.dag.nodes) : t.dag.nodes.Perm s.dag.nodes :=
  arranges.nodes ▸ arranges.movable.perm numbered.nodup

theorem anchored_iff : Anchored moves v a ↔ s.LastTail edges v a ∨ v = a ∧ ¬ ∃ x, s.Discovers edges x v := by
  rw [Anchored, arranges.tails, arranges.moved]

/-- The order of two nodes that do not share their last tail is that of their anchors. -/
theorem lt_iff (numbered : Numbered s.heap.index s.dag.nodes) (left : v ∈ s.dag.nodes) (right : w ∈ s.dag.nodes)
    (apart : ¬ ∃ x, s.LastTail edges v x ∧ s.LastTail edges w x) :
    t.heap.index v < t.heap.index w ↔ ∃ a b, Anchored moves v a ∧ Anchored moves w b ∧
      (s.heap.index a < s.heap.index b ∨ a = b ∧ v = a ∧ v ≠ w) := by
  constructor
  · intro before
    obtain ⟨a, anchorV⟩ := exists_anchored moves v
    obtain ⟨b, anchorW⟩ := exists_anchored moves w
    refine ⟨a, b, anchorV, anchorW, ?_⟩
    obtain earlier | same := (anchorV.le_of_lt arranges.movable numbered arranges.renumbered anchorW left right
      before).lt_or_eq
    · exact .inl earlier
    · obtain rfl := numbered.injOn (mem_kept.mp (anchorV.mem_kept arranges.movable left)).1
        (mem_kept.mp (anchorW.mem_kept arranges.movable right)).1 same
      refine .inr ⟨rfl, ?_, fun equal => (equal ▸ before).ne rfl⟩
      obtain pairV | ⟨stays, _⟩ := anchorV
      · obtain pairW | ⟨rfl, _⟩ := anchorW
        · exact absurd ⟨a, (arranges.tails v a).mp pairV, (arranges.tails w a).mp pairW⟩ apart
        · exact absurd before (Anchored.tail_lt arranges.movable arranges.renumbered pairV).asymm
      · exact stays
  · rintro ⟨a, b, anchorV, anchorW, earlier | ⟨rfl, rfl, different⟩⟩
    · exact anchorV.before arranges.movable numbered arranges.renumbered anchorW left right earlier
    · obtain pairW | ⟨same, _⟩ := anchorW
      · exact Anchored.tail_lt arranges.movable arranges.renumbered pairW
      · exact absurd same.symm different

end Arranges

/-- After every call that returns, whether or not the batch closed a cycle, an edge descends exactly if it
leads from a moved node to the tail it was put behind, which closes a cycle. So the order is topological
apart from edges on cycles, and the check decides whether such an edge exists. -/
theorem insertEdges_descends_iff (sorted : s.Sorted) (spans : s.Spans edges)
    (returned : insertEdges sort edges s = .ok () t) :
    (∀ v w, s.AdjWith edges v w → (t.heap.index w ≤ t.heap.index v ↔ s.LastTail edges v w)) ∧
      (∀ v w, s.AdjWith edges v w → t.heap.index w ≤ t.heap.index v → TransGen (s.AdjWith edges) w v) ∧
      (graphIsInTopologicalOrder t.heap t.dag = true ↔ ∀ v w, s.AdjWith edges v w → ¬ s.LastTail edges v w) := by
  obtain ⟨moves, arranges⟩ := insertEdges_arranges sorted spans returned
  have descends : ∀ v w, s.AdjWith edges v w → (t.heap.index w ≤ t.heap.index v ↔ s.LastTail edges v w) := by
    intro v w edge
    rw [← arranges.tails]
    refine ⟨fun back => ?_, fun listed => (Anchored.tail_lt arranges.movable arranges.renumbered listed).le⟩
    exact (arranges.ascends v w ((arranges.adj v w).mpr edge)).resolve_left (not_lt.mpr back)
  refine ⟨descends, fun v w edge back => ((descends v w edge).mp back).1.path, fun inOrder v w edge last => ?_,
    fun none => arranges.wired.inOrder arranges.numbered fun v member w edge => ?_⟩
  · have up := (((graphIsInTopologicalOrder_iff _ _).mp inOrder).2 v ((arranges.adj v w).mpr edge).1).2 w
      ((arranges.adj v w).mpr edge).2
    exact absurd ((descends v w edge).mpr last) (not_le.mpr up)
  · have step := (arranges.adj v w).mp ⟨member, edge⟩
    exact not_le.mp fun back => none v w step ((descends v w step).mp back)

/-- The edge back along an edge moves its head, whose edge then descends. -/
theorem insertEdges_descends_iff_back : ∃ t,
    insertEdges (.insertion _) [(1, 0)] (appendAll [(0, 1)] (edgeless 2)) = .ok () t ∧
      t.heap.index 1 ≤ t.heap.index 0 ∧ (appendAll [(0, 1)] (edgeless 2)).LastTail [(1, 0)] 0 1 := by
  have sorted : (appendAll [(0, 1)] (edgeless 2)).Sorted := ⟨by decide, (edgeless_wired 2).appendAll (by decide)⟩
  have returned : ∃ t, insertEdges (.insertion _) [(1, 0)] (appendAll [(0, 1)] (edgeless 2)) = .ok () t ∧
      t.heap.index 1 ≤ t.heap.index 0 := ⟨_, rfl, by decide⟩
  obtain ⟨t, returned, back⟩ := returned
  refine ⟨t, returned, back, ?_⟩
  exact ((insertEdges_descends_iff sorted (by decide) returned).1 0 1 (.inl ⟨by decide, by decide⟩)).mp back

/-- Whatever topological order the updated graph has, it puts every moved node behind the tail that the
call put it behind, though it stood before it. Among the orders that keep the relative order of the nodes
that stay, the call gives every node the fewest of them in front. -/
theorem insertEdges_earliest {κ : Type*} [Preorder κ] (sorted : s.Sorted) (spans : s.Spans edges)
    (returned : insertEdges sort edges s = .ok () t) {rank : Ptr → κ}
    (topological : ∀ v w, s.AdjWith edges v w → rank v < rank w) :
    (∀ v x, s.LastTail edges v x → s.heap.index v < s.heap.index x ∧ rank x < rank v) ∧
      ((∀ v ∈ s.dag.nodes, ∀ w ∈ s.dag.nodes,
          (¬ ∃ x, s.Discovers edges x v) → (¬ ∃ x, s.Discovers edges x w) →
          s.heap.index v < s.heap.index w → rank v < rank w) →
        ∀ v ∈ s.dag.nodes, ∀ w ∈ s.dag.nodes, (¬ ∃ x, s.Discovers edges x v) →
          t.heap.index v < t.heap.index w → rank v < rank w) := by
  obtain ⟨moves, arranges⟩ := insertEdges_arranges sorted spans returned
  have climbs : ∀ x v, TransGen (s.AdjWith edges) x v → rank x < rank v := by
    intro x v path
    induction path with
    | single edge => exact topological _ _ edge
    | tail _ edge ih => exact ih.trans (topological _ _ edge)
  refine ⟨fun v x last => ⟨last.1.index_lt, climbs x v last.1.path⟩,
    fun keeps v left w right stays before => ?_⟩
  have anchorV : Anchored moves v v := arranges.anchored_iff.mpr (.inr ⟨rfl, stays⟩)
  obtain ⟨b, anchorW⟩ := exists_anchored moves w
  obtain ⟨inB, fixed⟩ := mem_kept.mp (anchorW.mem_kept arranges.movable right)
  -- the anchor of `w` stays, so it is behind `v` in the other order, too
  have upTo : v = b ∨ rank v < rank b := by
    obtain earlier | same := (anchorV.le_of_lt arranges.movable sorted.numbered arranges.renumbered anchorW left
      right before).lt_or_eq
    · exact .inr (keeps v left b inB stays (mt (arranges.moved b).mpr fixed) earlier)
    · exact .inl (sorted.numbered.injOn left inB same)
  obtain pair | ⟨rfl, _⟩ := anchorW
  · have after := climbs b w ((arranges.tails w b).mp pair).1.path
    obtain rfl | earlier := upTo
    · exact after
    · exact earlier.trans after
  · exact upTo.resolve_left fun same => (same ▸ before).ne rfl

/-- The first of three nodes has to go behind the last. -/
theorem insertEdges_earliest_first : ∃ t, insertEdges (.insertion _) [(2, 0)] (edgeless 3) = .ok () t ∧
    ∀ v x, (edgeless 3).LastTail [(2, 0)] v x → (edgeless 3).heap.index v < (edgeless 3).heap.index x := by
  have returned : ∃ t, insertEdges (.insertion _) [(2, 0)] (edgeless 3) = .ok () t := ⟨_, rfl⟩
  obtain ⟨t, returned⟩ := returned
  have topological : ∀ v w, (edgeless 3).AdjWith [(2, 0)] v w →
      (if v = 2 then 0 else v + 1 : ℕ) < if w = 2 then 0 else w + 1 := by
    rintro v w (⟨_, none⟩ | listed)
    · exact absurd none List.not_mem_nil
    · obtain ⟨rfl, rfl⟩ := Prod.mk.inj (List.mem_singleton.mp listed)
      decide
  exact ⟨t, returned, fun v x last => ((insertEdges_earliest ⟨by decide, edgeless_wired 3⟩ (by decide) returned
    topological).1 v x last).1⟩

/-- The new order is determined, up to the order behind each tail, by the old one and by what is discovered. -/
theorem Arranges.determined {moves moves' : EdgeQueue Ptr} {r : Store Ptr} (first : s.Arranges edges t moves)
    (second : r.Arranges other u moves') (sorted : s.Sorted) (nodes : r.dag.nodes = s.dag.nodes)
    (index : r.heap.index = s.heap.index) (same : ∀ a v, s.Discovers edges a v ↔ r.Discovers other a v) :
    (∀ v ∈ s.dag.nodes, (¬ ∃ x, s.Discovers edges x v) → t.heap.index v = u.heap.index v) ∧
      ∀ v ∈ s.dag.nodes, ∀ w ∈ s.dag.nodes, (¬ ∃ x, s.LastTail edges v x ∧ s.LastTail edges w x) →
        (t.heap.index v < t.heap.index w ↔ u.heap.index v < u.heap.index w) := by
  have lasts : ∀ v a, s.LastTail edges v a ↔ r.LastTail other v a := by
    intro v a
    simp only [LastTail, same, index]
  have anchors : ∀ v a, Anchored moves v a ↔ Anchored moves' v a := by
    intro v a
    rw [first.anchored_iff, second.anchored_iff, lasts]
    simp only [same]
  have numberedThere : Numbered r.heap.index r.dag.nodes := by
    rw [nodes, index]
    exact sorted.numbered
  have order : ∀ v ∈ s.dag.nodes, ∀ w ∈ s.dag.nodes,
      (¬ ∃ x, s.LastTail edges v x ∧ s.LastTail edges w x) →
      (t.heap.index v < t.heap.index w ↔ u.heap.index v < u.heap.index w) := by
    intro v inV w inW apart
    rw [first.lt_iff sorted.numbered inV inW apart,
      second.lt_iff numberedThere (by rwa [nodes]) (by rwa [nodes]) (by simpa only [← lasts] using apart), index]
    simp only [anchors]
  refine ⟨fun v member stays => ?_, order⟩
  have permT := first.perm sorted.numbered
  have permU := second.perm numberedThere
  rw [nodes] at permU
  rw [first.numbered.eq_countP (permT.mem_iff.mpr member), second.numbered.eq_countP (permU.mem_iff.mpr member),
    permT.countP_eq, permU.countP_eq]
  congr 1
  refine List.countP_congr fun w inside => ?_
  rw [decide_eq_true_eq, decide_eq_true_eq]
  exact order w inside v member fun ⟨x, _, last⟩ => stays ⟨x, last.1⟩

section SameEdges

variable (same : ∀ e, e ∈ edges ↔ e ∈ other)

include same

theorem closesBelow_congr {index : Ptr → ℤ} : ClosesBelow (appendAll edges s).heap.succ index a b ↔
    ClosesBelow (appendAll other s).heap.succ index a b := by
  have heads : ∀ v w, w ∈ (appendAll edges s).heap.succ v ↔ w ∈ (appendAll other s).heap.succ v := by
    intro v w
    simp only [Heap.succ, appendAll_outgoing, List.mem_append, mem_headsFrom, same]
  simp only [ClosesBelow, ReachBelow, heads]

/-- The order of the batch, duplicates in it and the ties of the sort decide nothing but the order within
the blocks of nodes behind one tail. -/
theorem insertEdges_order_irrelevant (sorted : s.Sorted) (spans : s.Spans edges) (sort sort' : StdSort (Edge Ptr)) :
    ((∃ t, insertEdges sort edges s = .error cycleDetected t) ↔
      ∃ u, insertEdges sort' other s = .error cycleDetected u) ∧
    ∀ t u, insertEdges sort edges s = .ok () t → insertEdges sort' other s = .ok () u →
      (∀ v ∈ s.dag.nodes, (¬ ∃ x, s.Discovers edges x v) → t.heap.index v = u.heap.index v) ∧
      ∀ v ∈ s.dag.nodes, ∀ w ∈ s.dag.nodes, (¬ ∃ x, s.LastTail edges v x ∧ s.LastTail edges w x) →
        (t.heap.index v < t.heap.index w ↔ u.heap.index v < u.heap.index w) := by
  have spansOther : s.Spans other := fun e member => spans e ((same e).mpr member)
  constructor
  · rw [insertEdges_error_iff sorted spans, insertEdges_error_iff sorted spansOther]
    simp only [same, closesBelow_congr same]
  · intro t u left right
    obtain ⟨moves, first⟩ := insertEdges_arranges sorted spans left
    obtain ⟨moves', second⟩ := insertEdges_arranges sorted spansOther right
    refine first.determined second sorted rfl rfl fun a v => ?_
    simp only [Discovers, AdjWith, mem_invalidating, same]

omit same in
/-- Two edges from the last node, in both orders and with a duplicate. -/
theorem insertEdges_order_irrelevant_swapped : ∃ t u,
    insertEdges (.insertion _) [(2, 0), (2, 1)] (edgeless 3) = .ok () t ∧
      insertEdges (.insertion _) [(2, 1), (2, 0), (2, 1)] (edgeless 3) = .ok () u ∧
      ∀ v ∈ (edgeless 3).dag.nodes, (¬ ∃ x, (edgeless 3).Discovers [(2, 0), (2, 1)] x v) →
        t.heap.index v = u.heap.index v := by
  have same : ∀ e : Edge ℕ, e ∈ [(2, 0), (2, 1)] ↔ e ∈ [(2, 1), (2, 0), (2, 1)] := by
    intro e
    simp only [List.mem_cons, List.not_mem_nil]
    tauto
  have both := insertEdges_order_irrelevant same (⟨by decide, edgeless_wired 3⟩ : (edgeless 3).Sorted) (by decide)
    (.insertion _) (.insertion _)
  have left : ∃ t, insertEdges (.insertion _) [(2, 0), (2, 1)] (edgeless 3) = .ok () t := ⟨_, rfl⟩
  have right : ∃ u, insertEdges (.insertion _) [(2, 1), (2, 0), (2, 1)] (edgeless 3) = .ok () u := ⟨_, rfl⟩
  obtain ⟨t, left⟩ := left
  obtain ⟨u, right⟩ := right
  exact ⟨t, u, left, right, (both.2 t u left right).1⟩

end SameEdges

end Store

end DynamicDag
