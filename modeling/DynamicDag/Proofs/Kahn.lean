import DynamicDag.Proofs.Adjacency

/-! # Kahn's algorithm

The loop has visited a list of edges: those that leave the nodes taken so far. The tails visited at a
node form a part of its incoming list, and the whole of it exactly for the nodes that were taken or
wait. Hence a node is taken after all its predecessors. When nothing waits, the nodes left over are
entered by nodes left over only; in an acyclic graph there are none. Conversely, if all edges have been
visited, the order in which nodes were taken is a rank that excludes cycles.
-/

namespace DynamicDag

open Relation Numbering

variable {Ptr : Type} [DecidableEq Ptr]

/-- The edges that leave the listed nodes. -/
def edgesFrom (heap : Heap Ptr) (taken : List Ptr) : List (Edge Ptr) :=
  taken.flatMap fun u => (heap.succ u).map fun v => (u, v)

section EdgesFrom

variable {heap : Heap Ptr} {taken : List Ptr}

omit [DecidableEq Ptr] in
theorem mem_edgesFrom {u v : Ptr} : (u, v) ∈ edgesFrom heap taken ↔ u ∈ taken ∧ v ∈ heap.succ u := by
  simp only [edgesFrom, List.mem_flatMap, List.mem_map, Prod.mk.injEq]
  constructor
  · rintro ⟨w, member, x, edge, rfl, rfl⟩
    exact ⟨member, edge⟩
  · rintro ⟨member, edge⟩
    exact ⟨u, member, v, edge, rfl, rfl⟩

omit [DecidableEq Ptr] in
theorem edgesFrom_snoc (taken : List Ptr) (n : Ptr) :
    edgesFrom heap (taken ++ [n]) = edgesFrom heap taken ++ (heap.succ n).map fun v => (n, v) := by
  simp only [edgesFrom, List.flatMap_append, List.flatMap_singleton]

omit [DecidableEq Ptr] in
theorem length_edgesFrom (heap : Heap Ptr) (taken : List Ptr) :
    (edgesFrom heap taken).length = (taken.map fun u => (heap u).outgoingEdges.length).sum := by
  simp only [edgesFrom, List.length_flatMap, List.length_map]
  rfl

/-- Each taken node contributes its adjacency list once. -/
theorem headsFrom_edgesFrom (unique : taken.Nodup) (u : Ptr) :
    headsFrom (edgesFrom heap taken) u = if u ∈ taken then heap.succ u else [] := by
  induction taken with
  | nil => rfl
  | cons w rest ih =>
    obtain ⟨fresh, uniqueRest⟩ := List.nodup_cons.mp unique
    have own : headsFrom ((heap.succ w).map fun v => (w, v)) u = if w = u then heap.succ w else [] := by
      by_cases same : w = u <;> simp [headsFrom, List.filter_map, Function.comp_def, same]
    have split : edgesFrom heap (w :: rest) =
        ((heap.succ w).map fun v => (w, v)) ++ edgesFrom heap rest := List.flatMap_cons
    rw [split, headsFrom_append, own, ih uniqueRest]
    obtain rfl | other := eq_or_ne w u
    · simp [fresh]
    · simp [other, other.symm]

end EdgesFrom

/-- The node on top of the stack has been taken, and its edges are to be visited. -/
def Kahn.pop (k : Kahn Ptr) (n : Ptr) (rest : List Ptr) : Kahn Ptr :=
  { k with
    heap := k.heap.setIndex n k.topologicalOrder.length
    topologicalOrder := k.topologicalOrder ++ [n]
    nodesWithoutIncomingEdge := rest }

namespace Store

variable {s : Store Ptr} {taken : List Ptr}

/-- At a node, the edges from distinct taken nodes are counted by the incoming list. -/
theorem Wired.count_tailsTo (wired : s.Wired) (unique : taken.Nodup) (inside : taken ⊆ s.dag.nodes)
    {m : Ptr} (member : m ∈ s.dag.nodes) (u : Ptr) :
    (tailsTo (edgesFrom s.heap taken) m).count u =
      if u ∈ taken then (s.heap m).incomingEdges.count u else 0 := by
  rw [← count_headsFrom, headsFrom_edgesFrom unique]
  split_ifs with listed
  · exact wired.mirrored u (inside listed) m member
  · rfl

/-- The edges visited at a node are part of its incoming list. -/
theorem Wired.subperm (wired : s.Wired) (unique : taken.Nodup) (inside : taken ⊆ s.dag.nodes)
    {m : Ptr} (member : m ∈ s.dag.nodes) :
    (tailsTo (edgesFrom s.heap taken) m).Subperm (s.heap m).incomingEdges := by
  apply List.subperm_ext_iff.mpr
  intro u listed
  rw [wired.count_tailsTo unique inside member]
  split_ifs <;> omega

/-- All incoming edges of a node are visited exactly when all its predecessors are taken. -/
theorem Wired.visited_iff (wired : s.Wired) (unique : taken.Nodup) (inside : taken ⊆ s.dag.nodes)
    {m : Ptr} (member : m ∈ s.dag.nodes) :
    (tailsTo (edgesFrom s.heap taken) m).length = (s.heap m).incomingEdges.length ↔
      ∀ u ∈ (s.heap m).incomingEdges, u ∈ taken := by
  have part := wired.subperm unique inside member
  constructor
  · intro equal u entering
    have perm := part.perm_of_length_le equal.ge
    exact (mem_edgesFrom.mp (mem_tailsTo.mp (perm.mem_iff.mpr entering))).1
  · intro all
    refine le_antisymm part.length_le (List.Subperm.length_le (List.subperm_ext_iff.mpr fun u entering => ?_))
    rw [wired.count_tailsTo unique inside member, if_pos (all u entering)]

/-- The state after visiting some edges that leave the taken nodes. -/
structure Visiting (s : Store Ptr) (taken : List Ptr) (visited : List (Edge Ptr)) (k : Kahn Ptr) : Prop where
  heap : k.heap = s.heap.withIndex (renumber s.heap.index taken)
  order : k.topologicalOrder = taken
  nodup : (taken ++ k.nodesWithoutIncomingEdge).Nodup
  inside : taken ++ k.nodesWithoutIncomingEdge ⊆ s.dag.nodes
  counts : ∀ m, k.numOfVisitedEdgesForNode m = (tailsTo visited m).length
  total : k.visitedEdgesTotal = visited.length
  ready : ∀ m ∈ s.dag.nodes, m ∈ taken ++ k.nodesWithoutIncomingEdge ↔
    (tailsTo visited m).length = (s.heap m).incomingEdges.length

variable {visited : List (Edge Ptr)} {k : Kahn Ptr}

/-- A node with an edge still to be visited is not taken and does not wait. -/
theorem Visiting.notMem (visiting : s.Visiting taken visited k) {n m : Ptr} (member : m ∈ s.dag.nodes)
    (room : (tailsTo (visited ++ [(n, m)]) m).length ≤ (s.heap m).incomingEdges.length) :
    m ∉ taken ++ k.nodesWithoutIncomingEdge := by
  intro again
  have full := (visiting.ready m member).mp again
  have last : (tailsTo [(n, m)] m).length = 1 := by simp [tailsTo]
  rw [tailsTo_append, List.length_append, full] at room
  omega

/-- Visiting one more edge makes its head wait when it was the last one to enter it. -/
theorem Visiting.visitEdge (visiting : s.Visiting taken visited k) {n m : Ptr} (member : m ∈ s.dag.nodes)
    (room : (tailsTo (visited ++ [(n, m)]) m).length ≤ (s.heap m).incomingEdges.length) :
    s.Visiting taken (visited ++ [(n, m)]) (k.visitEdge m) := by
  have here : (tailsTo (visited ++ [(n, m)]) m).length = (tailsTo visited m).length + 1 := by
    simp [tailsTo]
  have elsewhere : ∀ w, w ≠ m → tailsTo (visited ++ [(n, m)]) w = tailsTo visited w := by
    intro w other
    simp [tailsTo, Ne.symm other]
  have incoming : (k.heap m).incomingEdges = (s.heap m).incomingEdges := by rw [visiting.heap]; rfl
  have fresh := visiting.notMem member room
  have count : (Function.update k.numOfVisitedEdgesForNode m (k.numOfVisitedEdgesForNode m + 1)) m =
      (tailsTo (visited ++ [(n, m)]) m).length := by
    rw [Function.update_self, visiting.counts, here]
    push_cast
    rfl
  have counts : ∀ w, Function.update k.numOfVisitedEdgesForNode m (k.numOfVisitedEdgesForNode m + 1) w =
      (tailsTo (visited ++ [(n, m)]) w).length := by
    intro w
    obtain rfl | other := eq_or_ne w m
    · rw [count]
    · rw [Function.update_of_ne other, elsewhere w other, visiting.counts]
  have total : k.visitedEdgesTotal + 1 = (visited ++ [(n, m)]).length := by
    rw [visiting.total, List.length_append, List.length_singleton]
    push_cast
    rfl
  simp only [Kahn.visitEdge, incoming, count, Int.natCast_inj]
  by_cases full : (tailsTo (visited ++ [(n, m)]) m).length = (s.heap m).incomingEdges.length
  · rw [if_pos full]
    have moved : (taken ++ m :: k.nodesWithoutIncomingEdge).Perm
        (m :: (taken ++ k.nodesWithoutIncomingEdge)) := List.perm_middle
    refine ⟨visiting.heap, visiting.order, moved.nodup_iff.mpr (List.nodup_cons.mpr ⟨fresh, visiting.nodup⟩),
      ?_, counts, total, fun w inNodes => ?_⟩
    · exact fun w waiting => (List.mem_cons.mp (moved.mem_iff.mp waiting)).elim
        (fun same => same ▸ member) fun old => visiting.inside old
    · rw [moved.mem_iff, List.mem_cons]
      obtain rfl | other := eq_or_ne w m
      · exact iff_of_true (.inl rfl) full
      · rw [or_iff_right other, elsewhere w other]
        exact visiting.ready w inNodes
  · rw [if_neg full]
    refine ⟨visiting.heap, visiting.order, visiting.nodup, visiting.inside, counts, total,
      fun w inNodes => ?_⟩
    obtain rfl | other := eq_or_ne w m
    · exact iff_of_false fresh full
    · rw [elsewhere w other]
      exact visiting.ready w inNodes

/-- Visiting a whole adjacency list. -/
theorem Visiting.foldl_visitEdge {n : Ptr} (edges : List Ptr) (visiting : s.Visiting taken visited k)
    (members : ∀ m ∈ edges, m ∈ s.dag.nodes)
    (room : ∀ m ∈ s.dag.nodes, (tailsTo (visited ++ edges.map fun v => (n, v)) m).length ≤
      (s.heap m).incomingEdges.length) :
    s.Visiting taken (visited ++ edges.map fun v => (n, v)) (edges.foldl Kahn.visitEdge k) := by
  induction edges generalizing visited k with
  | nil => simpa using visiting
  | cons m rest ih =>
    rw [List.map_cons, List.append_cons] at room ⊢
    have member := members m List.mem_cons_self
    have fits : (tailsTo (visited ++ [(n, m)]) m).length ≤ (s.heap m).incomingEdges.length := by
      have := room m member
      rw [tailsTo_append, List.length_append] at this
      omega
    rw [List.foldl_cons]
    exact ih (visiting.visitEdge member fits) (fun w later => members w (List.mem_cons_of_mem _ later)) room

/-- Between two rounds, the edges visited are those that leave the taken nodes, and each of these was
taken after its predecessors. -/
structure Taking (s : Store Ptr) (taken : List Ptr) (k : Kahn Ptr) : Prop where
  visiting : s.Visiting taken (edgesFrom s.heap taken) k
  preceded : ∀ slot (bound : slot < taken.length), ∀ u ∈ (s.heap taken[slot]).incomingEdges,
    u ∈ taken.take slot

theorem Taking.start (s : Store Ptr) (wired : s.Wired) : s.Taking [] (kahnStart s) := by
  refine ⟨⟨?_, rfl, ?_, fun v => ?_, fun m => rfl, rfl, fun m member => ?_⟩, fun slot bound => by simp at bound⟩
  · have same : renumber s.heap.index [] = s.heap.index :=
      funext fun _ => renumber_of_notMem List.not_mem_nil
    rw [same, Heap.withIndex_self]
    rfl
  · exact List.nodup_reverse.mpr (wired.nodup.filter _)
  · intro waiting
    simp only [kahnStart, List.nil_append, List.mem_reverse, List.mem_filter] at waiting
    exact waiting.1
  · simp only [kahnStart, List.nil_append, List.mem_reverse, List.mem_filter, List.isEmpty_iff]
    exact (and_iff_right member).trans (List.length_eq_zero_iff.symm.trans eq_comm)

theorem Taking.unique (taking : s.Taking taken k) : taken.Nodup :=
  (List.nodup_append.mp taking.visiting.nodup).1

theorem Taking.subset (taking : s.Taking taken k) : taken ⊆ s.dag.nodes :=
  fun _ member => taking.visiting.inside (List.mem_append_left _ member)

/-- A node that has all its predecessors taken was taken or waits. -/
theorem Taking.ready_iff (taking : s.Taking taken k) (wired : s.Wired) {m : Ptr} (member : m ∈ s.dag.nodes) :
    m ∈ taken ++ k.nodesWithoutIncomingEdge ↔ ∀ u ∈ (s.heap m).incomingEdges, u ∈ taken := by
  rw [taking.visiting.ready m member, wired.visited_iff taking.unique taking.subset member]

section Round

variable (taking : s.Taking taken k) {n : Ptr} {rest : List Ptr} (top : k.nodesWithoutIncomingEdge = n :: rest)

include taking top

theorem Taking.pop : s.Visiting (taken ++ [n]) (edgesFrom s.heap taken) (k.pop n rest) := by
  have visiting := taking.visiting
  have unique := visiting.nodup
  have inside := visiting.inside
  have ready := visiting.ready
  rw [top, List.append_cons] at unique inside ready
  have fresh : n ∉ taken := fun again =>
    List.disjoint_of_nodup_append (List.nodup_append.mp unique).1 again (List.mem_singleton_self n)
  refine ⟨?_, ?_, unique, inside, visiting.counts, visiting.total, ready⟩
  · rw [Kahn.pop, visiting.heap, visiting.order, Heap.setIndex_withIndex, renumber_append_singleton fresh]
  · exact congrArg (· ++ [n]) visiting.order

theorem Taking.top_mem : n ∈ s.dag.nodes :=
  (taking.pop top).inside (by simp)

/-- The edges of the top node are not more than the incoming lists provide for. -/
theorem Taking.room (wired : s.Wired) : ∀ m ∈ s.dag.nodes, (tailsTo (edgesFrom s.heap taken ++
    (s.heap.succ n).map fun v => (n, v)) m).length ≤ (s.heap m).incomingEdges.length := by
  intro m inNodes
  have popped := taking.pop top
  rw [← edgesFrom_snoc]
  exact (wired.subperm (List.nodup_append.mp popped.nodup).1
    (fun v old => popped.inside (List.mem_append_left _ old)) inNodes).length_le

theorem Taking.kahnRound_eq : kahnRound k = some ((s.heap.succ n).foldl Kahn.visitEdge (k.pop n rest)) := by
  have outgoing : ((k.pop n rest).heap n).outgoingEdges = s.heap.succ n := by
    rw [(taking.pop top).heap]
    rfl
  simp only [kahnRound, top]
  exact congrArg (fun edges => some (List.foldl Kahn.visitEdge (k.pop n rest) edges)) outgoing

/-- One round takes the node on top of the stack. -/
theorem Taking.round (wired : s.Wired) : ∃ next, kahnRound k = some next ∧ s.Taking (taken ++ [n]) next := by
  have popped := taking.pop top
  have member := taking.top_mem top
  have predecessors := (taking.ready_iff wired member).mp (by rw [top]; simp)
  have visited := popped.foldl_visitEdge (s.heap.succ n) (wired.outgoing n member) (taking.room top wired)
  rw [← edgesFrom_snoc] at visited
  refine ⟨_, taking.kahnRound_eq top, visited, fun slot bound => ?_⟩
  rw [List.length_append, List.length_singleton] at bound
  cases (show slot ≤ taken.length by omega).lt_or_eq with
  | inl early =>
    rw [List.getElem_append_left early, List.take_append_of_le_length early.le]
    exact taking.preceded slot early
  | inr last =>
    subst last
    rw [List.getElem_concat_length rfl, List.take_append_of_le_length le_rfl, List.take_length]
    exact predecessors

end Round

/-- The loop ends when nothing waits, within one round for each node. -/
theorem kahn_stops (wired : s.Wired) {fuel : ℕ} (enough : s.dag.nodes.length < fuel) :
    ∃ k taken, BoundedLoop.run Fault.outOfFuel (fun k => .ok (kahnRound k)) fuel (kahnStart s) = .ok k ∧
      s.Taking taken k ∧ k.nodesWithoutIncomingEdge = [] := by
  have rounds : ∀ k, (∃ taken, s.Taking taken k) →
      BoundedLoop.Round (fun k => ∃ taken, s.Taking taken k)
        (fun k => s.dag.nodes.length - k.topologicalOrder.length) (fun _ : Fault => False) k
        (.ok (kahnRound k)) := by
    rintro k ⟨taken, taking⟩
    cases top : k.nodesWithoutIncomingEdge with
    | nil =>
      simp only [kahnRound, top]
      trivial
    | cons n rest =>
      obtain ⟨next, moved, further⟩ := taking.round top wired
      have fits := (List.subperm_of_subset further.unique further.subset).length_le
      rw [moved]
      refine ⟨⟨_, further⟩, ?_⟩
      dsimp only
      rw [further.visiting.order, taking.visiting.order]
      rw [List.length_append, List.length_singleton] at fits ⊢
      omega
  obtain ⟨k, returned, ⟨taken, taking⟩, stop⟩ | ⟨_, _, impossible⟩ :=
    BoundedLoop.run_rule Fault.outOfFuel rounds ⟨[], Taking.start s wired⟩
      (show s.dag.nodes.length - (kahnStart s).topologicalOrder.length < fuel from
        (Nat.sub_le _ _).trans_lt enough)
  · refine ⟨k, taken, returned, taking, ?_⟩
    cases top : k.nodesWithoutIncomingEdge with
    | nil => rfl
    | cons n rest => simp [kahnRound, top] at stop
  · exact impossible.elim

section Rule

variable {inv : List Ptr → Kahn Ptr → Prop}
  (round : ∀ {taken k n rest}, inv taken k → k.nodesWithoutIncomingEdge = n :: rest →
    ∃ next, kahnRound k = some next ∧ inv (taken ++ [n]) next)

include round

/-- What is kept whenever a node is taken is kept by every round. -/
theorem kahnRound_keeps (k next : Kahn Ptr) (kept : ∃ taken, inv taken k)
    (moved : (.ok (kahnRound k) : Except Fault (Option (Kahn Ptr))) = .ok (some next)) :
    ∃ taken, inv taken next := by
  obtain ⟨taken, here⟩ := kept
  cases top : k.nodesWithoutIncomingEdge with
  | nil => simp [kahnRound, top] at moved
  | cons n rest =>
    obtain ⟨other, same, further⟩ := round here top
    rw [same] at moved
    cases moved
    exact ⟨_, further⟩

/-- The run rule of Kahn's algorithm: an invariant of the taken nodes holds when the stack is empty. -/
theorem kahn_rule (wired : s.Wired) (start : inv [] (kahnStart s)) {fuel : ℕ} (enough : s.dag.nodes.length < fuel) :
    ∃ k taken, BoundedLoop.run Fault.outOfFuel (fun k => .ok (kahnRound k)) fuel (kahnStart s) = .ok k ∧
      inv taken k ∧ k.nodesWithoutIncomingEdge = [] := by
  obtain ⟨k, _, returned, _, empty⟩ := kahn_stops wired enough
  have kept : ∃ taken, inv taken k :=
    BoundedLoop.invariant_of_run (kahnRound_keeps round) ⟨[], start⟩ returned
  obtain ⟨taken, here⟩ := kept
  exact ⟨k, taken, returned, here, empty⟩

end Rule

section Finished

variable (wired : s.Wired) (taking : s.Taking taken k) (empty : k.nodesWithoutIncomingEdge = [])

include wired taking empty

/-- In an acyclic graph no node is left over: the first of the rest would have been ready. -/
theorem Taking.perm_of_acyclic (acyclic : Acyclic s.Adj) : taken.Perm s.dag.nodes := by
  refine (List.perm_ext_iff_of_nodup taking.unique wired.nodup).mpr fun v =>
    ⟨fun member => taking.subset member, fun member => ?_⟩
  by_contra left
  have nonempty : (s.dag.nodes.toFinset \ taken.toFinset).Nonempty :=
    ⟨v, by simp [member, left]⟩
  obtain ⟨m, rest, first⟩ := acyclic.exists_source nonempty
  simp only [Finset.mem_sdiff, List.mem_toFinset] at rest first
  have ready := taking.ready_iff wired rest.1
  rw [empty, List.append_nil] at ready
  apply rest.2
  apply ready.mpr
  intro u entering
  by_contra later
  have inside := wired.incoming m rest.1 u entering
  refine first u ⟨inside, later⟩ ⟨inside, List.count_pos_iff.mp ?_⟩
  rw [wired.mirrored u inside m rest.1]
  exact List.count_pos_iff.mpr entering

omit empty in
/-- When all edges have been visited, taking order is a rank of the nodes. -/
theorem Taking.acyclic_of_total (counted : s.Counted) (all : k.visitedEdgesTotal = s.dag.numberOfEdges) :
    Acyclic s.Adj := by
  have parts : (taken ++ s.dag.nodes.filter fun v => decide (v ∉ taken)).Perm s.dag.nodes := by
    refine (List.perm_ext_iff_of_nodup (taking.unique.append (wired.nodup.filter _) ?_) wired.nodup).mpr ?_
    · intro v old new
      simp [old] at new
    · intro v
      simp only [List.mem_append, List.mem_filter, decide_eq_true_eq]
      have := @Taking.subset _ _ _ _ _ taking v
      tauto
  have rest : ((s.dag.nodes.filter fun v => decide (v ∉ taken)).map
      fun u => (s.heap u).outgoingEdges.length).sum = 0 := by
    have sum := (parts.map fun u => (s.heap u).outgoingEdges.length).sum_eq
    rw [List.map_append, List.sum_append] at sum
    rw [taking.visiting.total, counted, Int.natCast_inj, length_edgesFrom] at all
    omega
  have source : ∀ u ∈ s.dag.nodes, ∀ v ∈ (s.heap u).outgoingEdges, u ∈ taken := by
    intro u member v edge
    by_contra left
    have listed : u ∈ s.dag.nodes.filter fun v => decide (v ∉ taken) := by simp [member, left]
    have zero := List.sum_eq_zero_iff_forall_eq_nat.mp rest _ (List.mem_map_of_mem listed)
    rw [List.length_eq_zero_iff.mp zero] at edge
    simp at edge
  apply Acyclic.of_rank fun v => taken.idxOf v
  intro u v edge
  have first := source u edge.1 v edge.2
  by_cases second : v ∈ taken
  · have bound := List.idxOf_lt_length_iff.mpr second
    have entering : u ∈ (s.heap v).incomingEdges := by
      rw [← List.count_pos_iff, ← wired.mirrored u edge.1 v (taking.subset second), List.count_pos_iff]
      exact edge.2
    have before := taking.preceded (taken.idxOf v) bound u (by rw [List.getElem_idxOf bound]; exact entering)
    exact (List.mem_take_iff_idxOf_lt first).mp before
  · rw [List.idxOf_of_notMem second]
    exact List.idxOf_lt_length_iff.mpr first

end Finished

/-- The exception of `set_to_topological_order`. -/
abbrev notADag : Fault := .invalidArgument "the input graph is not a dag"

/-- Both outcomes: an acyclic graph is sorted, any other is refused. -/
theorem setToTopologicalOrder_cases (wired : s.Wired) (counted : s.Counted) {fuel : ℕ}
    (enough : s.dag.nodes.length < fuel) :
    (Acyclic s.Adj ∧ ∃ t, setToTopologicalOrder fuel s = .ok () t ∧ t.Sorted ∧
        t.dag.nodes.Perm s.dag.nodes ∧ t.dag.numberOfEdges = s.dag.numberOfEdges ∧
        ∀ v, (t.heap v).outgoingEdges = (s.heap v).outgoingEdges ∧
          (t.heap v).incomingEdges = (s.heap v).incomingEdges) ∨
      ¬ Acyclic s.Adj ∧ ∃ t, setToTopologicalOrder fuel s = .error notADag t := by
  obtain ⟨k, taken, returned, taking, empty⟩ := kahn_stops wired enough
  by_cases all : k.visitedEdgesTotal = s.dag.numberOfEdges
  · have acyclic := taking.acyclic_of_total wired counted all
    have perm := taking.perm_of_acyclic wired empty acyclic
    have sorted : setToTopologicalOrder fuel s = .ok () (s.arranged taken) := by
      simp only [setToTopologicalOrder, returned, all, ne_eq, not_true_eq_false, ↓reduceIte,
        taking.visiting.heap, taking.visiting.order]
      rfl
    have numbered : Numbered (renumber s.heap.index taken) taken := renumber_numbered _ taking.unique
    have wiredAfter := wired.arranged perm
    refine .inl ⟨acyclic, _, sorted, ⟨wiredAfter.inOrder numbered fun u member v edge => ?_, wiredAfter⟩,
      perm, rfl, fun v => ⟨rfl, rfl⟩⟩
    have head : v ∈ taken := wiredAfter.outgoing u member v edge
    obtain ⟨slot, bound, same, atSlot⟩ := numbered.exists_slot head
    have entering : u ∈ (s.heap taken[slot]).incomingEdges := by
      rw [same, ← List.count_pos_iff,
        ← wired.mirrored u (perm.mem_iff.mp member) v (perm.mem_iff.mp head)]
      exact List.count_pos_iff.mpr edge
    have before := (numbered.mem_take_iff member slot).mp (taking.preceded slot bound u entering)
    rw [← atSlot] at before
    exact before
  · have refused : setToTopologicalOrder fuel s = .error notADag { s with heap := k.heap } := by
      simp only [setToTopologicalOrder, returned, all, ne_eq, not_false_eq_true, ↓reduceIte]
    refine .inr ⟨fun acyclic => all ?_, _, refused⟩
    have perm := taking.perm_of_acyclic wired empty acyclic
    rw [taking.visiting.total, counted, length_edgesFrom]
    exact congrArg _ (perm.map _).sum_eq

/-- The sort ends, refuses exactly the graphs with a directed cycle, and arranges every other graph in
topological order without touching its edges. -/
theorem setToTopologicalOrder_correct (wired : s.Wired) (counted : s.Counted) {fuel : ℕ}
    (enough : s.dag.nodes.length < fuel) :
    (∃ t, setToTopologicalOrder fuel s = .ok () t ∨ setToTopologicalOrder fuel s = .error notADag t) ∧
      ((∃ t, setToTopologicalOrder fuel s = .error notADag t) ↔ ∃ v, TransGen s.Adj v v) ∧
      ∀ t, setToTopologicalOrder fuel s = .ok () t →
        t.dag.nodes.Perm s.dag.nodes ∧ graphIsInTopologicalOrder t.heap t.dag = true ∧
          t.dag.numberOfEdges = s.dag.numberOfEdges ∧
          ∀ v, (t.heap v).outgoingEdges = (s.heap v).outgoingEdges ∧
            (t.heap v).incomingEdges = (s.heap v).incomingEdges := by
  obtain ⟨acyclic, t, returned, sorted, perm, count, same⟩ | ⟨cyclic, t, refused⟩ :=
    setToTopologicalOrder_cases wired counted enough
  · refine ⟨⟨t, .inl returned⟩, iff_of_false ?_ (not_exists.mpr acyclic), fun other again => ?_⟩
    · rintro ⟨other, refused⟩
      rw [returned] at refused
      contradiction
    · rw [returned] at again
      cases again
      exact ⟨perm, sorted.inOrder, count, same⟩
  · refine ⟨⟨t, .inr refused⟩, iff_of_true ⟨t, refused⟩ ?_, fun other returned => ?_⟩
    · by_contra none
      exact cyclic (not_exists.mp none)
    · rw [refused] at returned
      contradiction

/-- A graph with parallel edges whose indices say nothing about its edges. -/
theorem setToTopologicalOrder_correct_parallel :
    ∃ t, setToTopologicalOrder 4 (appendAll [(2, 0), (2, 0), (0, 1)] (edgeless 3)) = .ok () t ∧
      graphIsInTopologicalOrder t.heap t.dag = true := by
  have wired := edgeless_wired 3
  have spans : (edgeless 3).Spans [(2, 0), (2, 0), (0, 1)] := by decide
  obtain ⟨⟨t, returned | refused⟩, refuses, sorts⟩ :=
    setToTopologicalOrder_correct (wired.appendAll spans) ((edgeless_counted 3).appendAll wired spans)
      (show 3 < 4 by decide)
  · exact ⟨t, returned, (sorts t returned).2.1⟩
  · have acyclic : Acyclic ((edgeless 3).AdjWith [(2, 0), (2, 0), (0, 1)]) :=
      acyclic_of_rank (fun v => if v = 2 then 0 else v + 1) (by decide) (by decide)
    obtain ⟨v, cycle⟩ := refuses.mp ⟨t, refused⟩
    exact (acyclic.mono (fun u v => (appendAll_adj spans u v).mp) v cycle).elim

end Store

end DynamicDag
