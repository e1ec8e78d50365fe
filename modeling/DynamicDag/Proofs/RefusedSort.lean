import DynamicDag.Proofs.Kahn

/-! # What a refused sort leaves behind

Kahn's algorithm writes the index of a node when it takes the node, before it knows whether the graph
has a cycle. A refused graph is therefore untouched exactly if the nodes taken are the first nodes of
the graph in their order. Nodes are taken from a stack: among those that are ready the one released last
comes next, which is the one entered by the latest visited edge. This order is computed from the
adjacency lists alone, and the condition compares it with the order of the nodes.
-/

namespace DynamicDag

open Relation Numbering

variable {Ptr : Type} [DecidableEq Ptr]

/-- The heads of the edges that leave the given nodes, in the order in which they are visited. -/
def heads (heap : Heap Ptr) (taken : List Ptr) : List Ptr := taken.flatMap heap.succ

omit [DecidableEq Ptr] in
theorem map_snd_edgesFrom (heap : Heap Ptr) (taken : List Ptr) :
    (edgesFrom heap taken).map Prod.snd = heads heap taken := by
  rw [edgesFrom, heads, List.map_flatMap]
  simp only [List.map_map, Function.comp_def, List.map_id']

omit [DecidableEq Ptr] in
theorem getElem_notMem_take {nodes : List Ptr} (unique : nodes.Nodup) {i : ℕ} (bound : i < nodes.length) :
    nodes[i] ∉ nodes.take i := by
  intro early
  apply List.disjoint_take_drop unique le_rfl early
  rw [List.drop_eq_getElem_cons bound]
  exact List.mem_cons_self

namespace Store

/-- `a` was put on the stack after `b`: an edge into `a` was visited after all edges into `b`, or both
have no edge into them and `a` is the later node. -/
def ReleasedAfter (s : Store Ptr) (visited : List Ptr) (a b : Ptr) : Prop :=
  visited.reverse.idxOf a < visited.reverse.idxOf b ∨
    (s.heap a).incomingEdges = [] ∧ (s.heap b).incomingEdges = [] ∧
      s.dag.nodes.idxOf b < s.dag.nodes.idxOf a

variable {s : Store Ptr} {taken : List Ptr} {visited : List (Edge Ptr)} {k : Kahn Ptr} {n m : Ptr}

/-- Visiting an edge into a third node changes nothing between two nodes. -/
theorem ReleasedAfter.snoc {heads : List Ptr} {a b : Ptr} (after : s.ReleasedAfter heads a b)
    (left : a ≠ m) (right : b ≠ m) : s.ReleasedAfter (heads ++ [m]) a b := by
  apply after.imp_left
  intro later
  rw [List.reverse_append, List.reverse_singleton, List.singleton_append,
    List.idxOf_cons_ne _ left.symm, List.idxOf_cons_ne _ right.symm]
  omega

/-- Visiting one more edge keeps the stack in the order of release. -/
theorem Visiting.visitEdge_ordered (visiting : s.Visiting taken visited k) (member : m ∈ s.dag.nodes)
    (room : (tailsTo (visited ++ [(n, m)]) m).length ≤ (s.heap m).incomingEdges.length)
    (ordered : k.nodesWithoutIncomingEdge.Pairwise (s.ReleasedAfter (visited.map Prod.snd))) :
    (k.visitEdge m).nodesWithoutIncomingEdge.Pairwise
      (s.ReleasedAfter ((visited ++ [(n, m)]).map Prod.snd)) := by
  have fresh := visiting.notMem member room
  have different : ∀ w ∈ k.nodesWithoutIncomingEdge, w ≠ m := fun w waiting same =>
    fresh (List.mem_append_right _ (same ▸ waiting))
  rw [List.map_append, List.map_singleton]
  have below : k.nodesWithoutIncomingEdge.Pairwise (s.ReleasedAfter (visited.map Prod.snd ++ [m])) :=
    ordered.imp_of_mem fun left right after => after.snoc (different _ left) (different _ right)
  simp only [Kahn.visitEdge]
  split_ifs
  · refine List.pairwise_cons.mpr ⟨fun w waiting => .inl ?_, below⟩
    rw [List.reverse_append, List.reverse_singleton, List.singleton_append, List.idxOf_cons_self,
      List.idxOf_cons_ne _ (different w waiting).symm]
    omega
  · exact below

/-- So does visiting a whole adjacency list. -/
theorem Visiting.foldl_ordered (edges : List Ptr) (visiting : s.Visiting taken visited k)
    (members : ∀ m ∈ edges, m ∈ s.dag.nodes)
    (room : ∀ m ∈ s.dag.nodes, (tailsTo (visited ++ edges.map fun v => (n, v)) m).length ≤
      (s.heap m).incomingEdges.length)
    (ordered : k.nodesWithoutIncomingEdge.Pairwise (s.ReleasedAfter (visited.map Prod.snd))) :
    (edges.foldl Kahn.visitEdge k).nodesWithoutIncomingEdge.Pairwise
      (s.ReleasedAfter ((visited ++ edges.map fun v => (n, v)).map Prod.snd)) := by
  induction edges generalizing visited k with
  | nil => simpa using ordered
  | cons m rest ih =>
    rw [List.map_cons, List.append_cons] at room ⊢
    have member := members m List.mem_cons_self
    have fits : (tailsTo (visited ++ [(n, m)]) m).length ≤ (s.heap m).incomingEdges.length := by
      have := room m member
      rw [tailsTo_append, List.length_append] at this
      omega
    exact ih (visiting.visitEdge member fits) (fun w later => members w (List.mem_cons_of_mem _ later)) room
      (visiting.visitEdge_ordered member fits ordered)

/-- Between two rounds the stack is in the order of release, and every node was taken when it was the
last one released of those ready. -/
structure Stacking (s : Store Ptr) (taken : List Ptr) (k : Kahn Ptr) : Prop extends s.Taking taken k where
  ordered : k.nodesWithoutIncomingEdge.Pairwise (s.ReleasedAfter (heads s.heap taken))
  latest : ∀ slot (bound : slot < taken.length), ∀ m ∈ s.dag.nodes, m ∉ taken.take (slot + 1) →
    (∀ u ∈ (s.heap m).incomingEdges, u ∈ taken.take slot) →
      s.ReleasedAfter (heads s.heap (taken.take slot)) taken[slot] m

/-- At the start the nodes without incoming edges wait, the last one on top. -/
theorem Stacking.start (wired : s.Wired) : s.Stacking [] (kahnStart s) := by
  refine ⟨Taking.start s wired, ?_, fun slot bound => by simp at bound⟩
  have slots : s.dag.nodes.Pairwise fun b a => s.dag.nodes.idxOf b < s.dag.nodes.idxOf a := by
    rw [List.pairwise_iff_getElem]
    intro i j iBound jBound before
    rwa [wired.nodup.idxOf_getElem i iBound, wired.nodup.idxOf_getElem j jBound]
  refine List.pairwise_reverse.mpr ((slots.filter _).imp_of_mem fun left right before => .inr ⟨?_, ?_, before⟩)
  · exact List.isEmpty_iff.mp (List.mem_filter.mp right).2
  · exact List.isEmpty_iff.mp (List.mem_filter.mp left).2

/-- One round keeps the order: what waits below the top was released before it. -/
theorem Stacking.round (stacking : s.Stacking taken k) (wired : s.Wired) {rest : List Ptr}
    (top : k.nodesWithoutIncomingEdge = n :: rest) :
    ∃ next, kahnRound k = some next ∧ s.Stacking (taken ++ [n]) next := by
  have taking := stacking.toTaking
  have popped := taking.pop top
  have ordered := stacking.ordered
  rw [top] at ordered
  obtain ⟨onTop, below⟩ := List.pairwise_cons.mp ordered
  obtain ⟨next, moved, further⟩ := taking.round top wired
  refine ⟨next, moved, further, ?_, fun slot bound m member later ready => ?_⟩
  · have visited := popped.foldl_ordered (s.heap.succ n) (wired.outgoing n (taking.top_mem top))
      (taking.room top wired) (by rw [map_snd_edgesFrom]; exact below)
    rw [← edgesFrom_snoc, map_snd_edgesFrom] at visited
    have same := (taking.kahnRound_eq top).symm.trans moved
    rwa [Option.some.inj same] at visited
  · rw [List.length_append, List.length_singleton] at bound
    cases (show slot ≤ taken.length by omega).lt_or_eq with
    | inl early =>
      rw [List.take_append_of_le_length (by omega)] at later ready
      rw [List.getElem_append_left early, List.take_append_of_le_length early.le]
      exact stacking.latest slot early m member later ready
    | inr last =>
      subst last
      rw [List.take_append_of_le_length le_rfl, List.take_length] at ready ⊢
      rw [List.take_of_length_le (by simp), List.mem_append, List.mem_singleton, not_or] at later
      rw [List.getElem_concat_length rfl]
      have waits := (taking.ready_iff wired member).mpr ready
      rw [top, List.mem_append, List.mem_cons] at waits
      exact onTop m ((waits.resolve_left later.1).resolve_left later.2)

/-- The run ends with an empty stack, and every node was taken in the order of release. -/
theorem kahn_stacking (wired : s.Wired) {fuel : ℕ} (enough : s.dag.nodes.length < fuel) :
    ∃ k taken, BoundedLoop.run Fault.outOfFuel (fun k => .ok (kahnRound k)) fuel (kahnStart s) = .ok k ∧
      s.Stacking taken k ∧ k.nodesWithoutIncomingEdge = [] :=
  kahn_rule (fun stacking top => stacking.round wired top) wired (Stacking.start wired) enough

/-- The first `k` nodes in the order in which the sort takes nodes from its stack, all other nodes being
entered from others of them. -/
structure StackOrder (s : Store Ptr) (k : ℕ) : Prop where
  inside : k ≤ s.dag.nodes.length
  preceded : ∀ i (bound : i < s.dag.nodes.length), i < k →
    ∀ u ∈ (s.heap s.dag.nodes[i]).incomingEdges, u ∈ s.dag.nodes.take i
  rest : ∀ v ∈ s.dag.nodes.drop k, ∃ u ∈ (s.heap v).incomingEdges, u ∈ s.dag.nodes.drop k
  latest : ∀ i j (_ : i < s.dag.nodes.length) (_ : j < s.dag.nodes.length), i < j → j < k →
    (∀ u ∈ (s.heap s.dag.nodes[j]).incomingEdges, u ∈ s.dag.nodes.take i) →
      (heads s.heap s.dag.nodes).reverse.idxOf s.dag.nodes[i] <
        (heads s.heap s.dag.nodes).reverse.idxOf s.dag.nodes[j]

section InFront

variable {i t : ℕ} (wired : s.Wired) (numbered : Numbered s.heap.index s.dag.nodes)

include wired

theorem notMem_heads {nodes : List Ptr} (inside : nodes ⊆ s.dag.nodes) (member : m ∈ s.dag.nodes)
    (elsewhere : ∀ u ∈ (s.heap m).incomingEdges, u ∉ nodes) : m ∉ heads s.heap nodes := by
  intro listed
  obtain ⟨u, source, edge⟩ := List.mem_flatMap.mp listed
  refine elsewhere u ?_ source
  rw [← List.count_pos_iff, ← wired.mirrored u (inside source) m member, List.count_pos_iff]
  exact edge

/-- Between nodes entered only from the nodes before a slot, the later edges do not matter. -/
theorem idxOf_heads_take {a b : Ptr} (left : a ∈ s.dag.nodes) (right : b ∈ s.dag.nodes)
    (readyLeft : ∀ u ∈ (s.heap a).incomingEdges, u ∈ s.dag.nodes.take i)
    (readyRight : ∀ u ∈ (s.heap b).incomingEdges, u ∈ s.dag.nodes.take i) :
    (heads s.heap (s.dag.nodes.take i)).reverse.idxOf a < (heads s.heap (s.dag.nodes.take i)).reverse.idxOf b ↔
      (heads s.heap s.dag.nodes).reverse.idxOf a < (heads s.heap s.dag.nodes).reverse.idxOf b := by
  have late {m : Ptr} (member : m ∈ s.dag.nodes)
      (ready : ∀ u ∈ (s.heap m).incomingEdges, u ∈ s.dag.nodes.take i) :
      m ∉ (heads s.heap (s.dag.nodes.drop i)).reverse := by
    rw [List.mem_reverse]
    apply notMem_heads wired (List.drop_subset i _) member
    intro u entering later
    exact List.disjoint_take_drop wired.nodup le_rfl (ready u entering) later
  have split : heads s.heap s.dag.nodes =
      heads s.heap (s.dag.nodes.take i) ++ heads s.heap (s.dag.nodes.drop i) := by
    rw [heads, heads, heads, ← List.flatMap_append, List.take_append_drop]
  rw [split, List.reverse_append, List.idxOf_append_of_notMem (late left readyLeft),
    List.idxOf_append_of_notMem (late right readyRight)]
  omega

/-- The last edge into a node released later does not come earlier. -/
theorem ReleasedAfter.idxOf_le {a b : Ptr} (after : s.ReleasedAfter (heads s.heap (s.dag.nodes.take i)) a b)
    (left : a ∈ s.dag.nodes) (right : b ∈ s.dag.nodes)
    (readyLeft : ∀ u ∈ (s.heap a).incomingEdges, u ∈ s.dag.nodes.take i)
    (readyRight : ∀ u ∈ (s.heap b).incomingEdges, u ∈ s.dag.nodes.take i) :
    (heads s.heap s.dag.nodes).reverse.idxOf a ≤ (heads s.heap s.dag.nodes).reverse.idxOf b := by
  cases after with
  | inl later => exact ((idxOf_heads_take wired left right readyLeft readyRight).mp later).le
  | inr sources =>
    have source {m : Ptr} (member : m ∈ s.dag.nodes) (none : (s.heap m).incomingEdges = []) :
        m ∉ (heads s.heap s.dag.nodes).reverse := by
      rw [List.mem_reverse]
      exact notMem_heads wired (List.Subset.refl _) member (by simp [none])
    rw [List.idxOf_of_notMem (source left sources.1), List.idxOf_of_notMem (source right sources.2.1)]

include numbered

/-- If the sort takes the first nodes in their order, they are in stack order. -/
theorem Stacking.stackOrder (stacking : s.Stacking (s.dag.nodes.take t) k) (bound : t ≤ s.dag.nodes.length)
    (empty : k.nodesWithoutIncomingEdge = []) : s.StackOrder t := by
  have length : (s.dag.nodes.take t).length = t := by rw [List.length_take, min_eq_left bound]
  constructor
  case inside => exact bound
  case preceded =>
    intro i inside early u entering
    have before := stacking.preceded i (by omega) u (by rwa [List.getElem_take])
    rwa [List.take_take, min_eq_left early.le] at before
  case rest =>
    intro v later
    have member := List.mem_of_mem_drop later
    by_contra none
    push Not at none
    have ready := (stacking.ready_iff wired member).mpr fun u entering => by
      have inside := wired.incoming v member u entering
      have early := none u entering
      rw [numbered.mem_drop_iff inside] at early
      rw [numbered.mem_take_iff inside]
      omega
    rw [empty, List.append_nil, numbered.mem_take_iff member] at ready
    rw [numbered.mem_drop_iff member] at later
    omega
  case latest =>
    intro i j iBound jBound before early ready
    have left := List.getElem_mem iBound
    have right := List.getElem_mem jBound
    have released := stacking.latest i (by omega) s.dag.nodes[j] right (by
      rw [List.take_take, min_eq_left (by omega), numbered.mem_take_iff right, numbered j jBound]
      omega) (by rwa [List.take_take, min_eq_left (by omega)])
    rw [List.getElem_take, List.take_take, min_eq_left (by omega)] at released
    cases released with
    | inl after =>
      refine (idxOf_heads_take wired left right (fun u entering => ?_) ready).mp after
      have before := stacking.preceded i (by omega) u (by rwa [List.getElem_take])
      rwa [List.take_take, min_eq_left (by omega)] at before
    | inr sources =>
      have order := sources.2.2
      rw [wired.nodup.idxOf_getElem i iBound, wired.nodup.idxOf_getElem j jBound] at order
      omega

/-- In stack order the node to be taken next is the next one of the graph. -/
theorem Stacking.next_eq (stacking : s.Stacking taken k) (order : s.StackOrder t)
    (same : taken.take i = s.dag.nodes.take i) (bound : i < taken.length) (early : i < t)
    (inside : i < s.dag.nodes.length) : taken[i] = s.dag.nodes[i] := by
  have member := stacking.subset (List.getElem_mem bound)
  have ready : ∀ u ∈ (s.heap taken[i]).incomingEdges, u ∈ s.dag.nodes.take i := fun u entering =>
    same ▸ stacking.preceded i bound u entering
  have fresh : taken[i] ∉ s.dag.nodes.take i := same ▸ getElem_notMem_take stacking.unique bound
  obtain ⟨j, jBound, atSlot⟩ := List.getElem_of_mem member
  rw [numbered.mem_take_iff member, ← atSlot, numbered j jBound] at fresh
  have beforeRest : j < t := by
    by_contra late
    obtain ⟨u, entering, later⟩ := order.rest taken[i] (by
      rw [numbered.mem_drop_iff member, ← atSlot, numbered j jBound]
      omega)
    exact List.disjoint_take_drop wired.nodup early.le (ready u entering) later
  rcases (show i ≤ j by omega).eq_or_lt with rfl | skipped
  · exact atSlot.symm
  · -- the next node of the graph waits too, and was released later than the one taken
    have next := List.getElem_mem inside
    have nextReady := order.preceded i inside early
    have later := order.latest i j inside jBound skipped beforeRest (by rwa [atSlot])
    have waits : s.dag.nodes[i] ∉ taken.take (i + 1) := by
      rw [List.take_succ_eq_append_getElem bound, same, List.mem_append, List.mem_singleton, not_or, ← atSlot]
      exact ⟨getElem_notMem_take wired.nodup inside,
        fun equal => skipped.ne (wired.nodup.getElem_inj_iff.mp equal)⟩
    have released := stacking.latest i bound s.dag.nodes[i] next waits (by rwa [same])
    rw [same] at released
    rw [atSlot] at later
    exact absurd (released.idxOf_le wired member next ready nextReady) (not_le.mpr later)

/-- So the sort takes the first nodes one after the other. -/
theorem Stacking.take_eq (stacking : s.Stacking taken k) (order : s.StackOrder t) :
    ∀ i ≤ taken.length, i ≤ t → taken.take i = s.dag.nodes.take i := by
  intro i
  induction i with
  | zero => intros; simp
  | succ i ih =>
    intro bound early
    have same := ih (by omega) (by omega)
    have inside : i < s.dag.nodes.length := lt_of_lt_of_le early order.inside
    rw [List.take_succ_eq_append_getElem bound, List.take_succ_eq_append_getElem inside, same,
      stacking.next_eq wired numbered order same bound early inside]

/-- In stack order the sort takes the first nodes and no others. -/
theorem Stacking.eq_take (stacking : s.Stacking taken k) (empty : k.nodesWithoutIncomingEdge = [])
    (order : s.StackOrder t) : taken = s.dag.nodes.take t := by
  have prefixes := stacking.take_eq wired numbered order
  have inside := order.inside
  rcases lt_trichotomy taken.length t with short | equal | long
  · -- the next node of the graph is ready, so it was taken
    have same := prefixes taken.length le_rfl short.le
    rw [List.take_length] at same
    have bound : taken.length < s.dag.nodes.length := by omega
    have member := List.getElem_mem bound
    have ready := (stacking.ready_iff wired member).mpr fun u entering =>
      same ▸ order.preceded taken.length bound short u entering
    rw [empty, List.append_nil] at ready
    have early : s.dag.nodes[taken.length] ∈ s.dag.nodes.take taken.length := same ▸ ready
    rw [numbered.mem_take_iff member, numbered _ bound] at early
    omega
  · have same := prefixes taken.length le_rfl equal.le
    rwa [List.take_length, equal] at same
  · -- the next node taken has a predecessor among the rest
    have same := prefixes t long.le le_rfl
    have member := stacking.subset (List.getElem_mem long)
    have fresh : taken[t] ∉ s.dag.nodes.take t := same ▸ getElem_notMem_take stacking.unique long
    rw [numbered.mem_take_iff member, not_lt, ← numbered.mem_drop_iff member] at fresh
    obtain ⟨u, entering, later⟩ := order.rest _ fresh
    exact (List.disjoint_take_drop wired.nodup le_rfl (same ▸ stacking.preceded t long u entering) later).elim

end InFront

/-- A refused graph is left as it was, with every index naming the position of its node, exactly if some
first part of the nodes is in stack order and the others are entered from each other. -/
theorem setToTopologicalOrder_untouched_iff (wired : s.Wired) (counted : s.Counted) (indexed : s.Indexed)
    {fuel : ℕ} (enough : s.dag.nodes.length < fuel) :
    (∀ t, setToTopologicalOrder fuel s = .error notADag t → t = s ∧ t.Indexed) ↔
      Acyclic s.Adj ∨ ∃ count, s.StackOrder count := by
  obtain ⟨acyclic, u, returned, _⟩ | ⟨cyclic, u, refused⟩ := setToTopologicalOrder_cases wired counted enough
  · refine iff_of_true (fun t refused => ?_) (.inl acyclic)
    rw [returned] at refused
    contradiction
  · obtain ⟨k, taken, returned, stacking, empty⟩ := kahn_stacking wired enough
    have left : u = { s with heap := s.heap.withIndex (renumber s.heap.index taken) } := by
      simp only [setToTopologicalOrder, returned] at refused
      split_ifs at refused
      rw [← stacking.visiting.heap]
      exact (EStateM.Result.error.inj refused).2.symm
    have untouched : u = s ↔ taken = s.dag.nodes.take taken.length := by
      rw [← indexed.numbered.renumber_eq_iff stacking.unique stacking.subset, left]
      constructor
      · intro same
        exact congrArg (fun t : Store Ptr => t.heap.index) same
      · intro same
        rw [same, Heap.withIndex_self]
    rw [or_iff_right cyclic]
    constructor
    · intro property
      have inFront := untouched.mp (property u refused).1
      rw [inFront] at stacking
      have bound := (List.subperm_of_subset stacking.unique stacking.subset).length_le
      refine ⟨_, stacking.stackOrder wired indexed ?_ empty⟩
      rw [inFront, List.length_take]
      exact min_le_right _ _
    · rintro ⟨count, order⟩ t again
      rw [refused] at again
      obtain rfl : u = t := (EStateM.Result.error.inj again).2
      have inFront := stacking.eq_take wired indexed empty order
      have same : u = s := untouched.mpr (by
        rw [inFront, List.length_take, min_eq_left order.inside])
      exact ⟨same, same ▸ indexed⟩

/-- A node without edges in front of a cycle is taken first, and keeps its index. -/
theorem setToTopologicalOrder_untouched_iff_front :
    let behind := appendAll [(1, 2), (2, 1)] (edgeless 3)
    ∀ t, setToTopologicalOrder 4 behind = .error notADag t → t = behind ∧ t.Indexed := by
  intro behind
  have wired := edgeless_wired 3
  have spans : (edgeless 3).Spans [(1, 2), (2, 1)] := by decide
  have order : behind.StackOrder 1 := ⟨by decide, by decide, by decide, fun i j _ _ before last => by omega⟩
  exact (setToTopologicalOrder_untouched_iff (wired.appendAll spans)
    ((edgeless_counted 3).appendAll wired spans) (by unfold Indexed; decide) (show 3 < 4 by decide)).mpr
    (.inr ⟨1, order⟩)

/-- Behind a cycle the node without edges takes the index of the first node. -/
theorem setToTopologicalOrder_touches :
    let front := appendAll [(0, 1), (1, 0)] (edgeless 3)
    front.Wired ∧ front.Counted ∧ front.Indexed ∧ ∃ t, setToTopologicalOrder 4 front = .error notADag t ∧
      (t.heap 2).index = 0 ∧ t.dag.nodes[2]? = some 2 ∧ t ≠ front ∧ ¬ t.Indexed := by
  intro front
  have wired := edgeless_wired 3
  have spans : (edgeless 3).Spans [(0, 1), (1, 0)] := by decide
  refine ⟨wired.appendAll spans, (edgeless_counted 3).appendAll wired spans, by unfold Indexed; decide,
    _, rfl, by decide, by decide, ?_, by unfold Indexed; decide⟩
  intro same
  have index := congrArg (fun t : Store ℕ => (t.heap 2).index) same
  revert index
  decide

end Store

end DynamicDag
