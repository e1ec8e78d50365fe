import DynamicDag.Proofs.Insertion

/-! # Copies of a graph at other addresses

A store can be copied into another memory: every node goes to the address an injection gives it, the
pointers of the graph and of its adjacency lists go with it, and the rest of the memory stays. Every
function of the program does to the copy what it does to the original: the addresses of the nodes decide
nothing, memory outside the graph is neither read nor written, and this holds for graphs in any state
and for every way a call can end.
-/

namespace DynamicDag

open CheckedAccess Procedures

variable {P Q : Type}

/-- The node with its pointers moved. -/
def Node.map (f : P → Q) (node : Node P) : Node Q :=
  ⟨node.outgoingEdges.map f, node.incomingEdges.map f, node.index⟩

@[simp] theorem Node.map_index (f : P → Q) (node : Node P) : (node.map f).index = node.index := rfl

/-- The graph with its pointers moved. -/
def Graph.map (f : P → Q) (dag : Graph P) : Graph Q := ⟨dag.nodes.map f, dag.numberOfEdges⟩

/-- A memory with the nodes of another one at the given addresses. -/
noncomputable def Heap.copy (heap : Heap P) (address : P ↪ Q) (memory : Heap Q) : Heap Q :=
  Function.extend address (fun v => (heap v).map address) memory

/-- The graph of a store, moved into a memory. -/
noncomputable def Store.copy (s : Store P) (address : P ↪ Q) (memory : Heap Q) : Store Q :=
  ⟨s.heap.copy address memory, s.dag.map address⟩

variable (address : P ↪ Q) (memory : Heap Q)

theorem update_extend [DecidableEq P] [DecidableEq Q] {α : Type} (here : P → α) (elsewhere : Q → α) (v : P)
    (a : α) : Function.update (Function.extend address here elsewhere) (address v) a =
      Function.extend address (Function.update here v a) elsewhere := by
  funext q
  by_cases inside : ∃ w, address w = q
  · obtain ⟨w, rfl⟩ := inside
    rw [address.injective.extend_apply]
    obtain rfl | other := eq_or_ne w v
    · rw [Function.update_self, Function.update_self]
    · rw [Function.update_of_ne other, Function.update_of_ne (address.injective.ne other),
        address.injective.extend_apply]
  · rw [Function.extend_apply' _ _ _ inside, Function.update_of_ne fun same => inside ⟨v, same.symm⟩,
      Function.extend_apply' _ _ _ inside]

/-- The edge between the copies of two nodes. -/
def copyEdge (e : Edge P) : Edge Q := (address e.1, address e.2)

/-- The addresses of an edge's ends. -/
def edgeAddress : Edge P ↪ Edge Q := ⟨copyEdge address, fun e f same => by
  have parts := Prod.mk.inj same
  exact Prod.ext (address.injective parts.1) (address.injective parts.2)⟩

namespace Heap

variable (heap : Heap P)

@[simp] theorem copy_address (v : P) : heap.copy address memory (address v) = (heap v).map address :=
  address.injective.extend_apply _ _ v

theorem index_copy (v : P) : (heap.copy address memory).index (address v) = heap.index v := by
  rw [index, copy_address]
  rfl

theorem copy_elsewhere {q : Q} (outside : q ∉ Set.range address) : heap.copy address memory q = memory q :=
  Function.extend_apply' _ _ _ outside

theorem update_copy [DecidableEq P] [DecidableEq Q] {v : P} {node : Node P} {moved : Node Q}
    (same : moved = node.map address) : Function.update (heap.copy address memory) (address v) moved =
      copy (Function.update heap v node) address memory := by
  rw [same, copy, update_extend]
  congr 1
  exact (Function.comp_update (Node.map address) heap v node).symm

theorem setIndex_copy [DecidableEq P] [DecidableEq Q] (v : P) (i : ℤ) :
    (heap.copy address memory).setIndex (address v) i = (heap.setIndex v i).copy address memory := by
  apply update_copy
  simp [Node.map]

theorem addEdge_copy [DecidableEq P] [DecidableEq Q] (e : Edge P) :
    (heap.copy address memory).addEdge (copyEdge address e) = (heap.addEdge e).copy address memory := by
  have pushed : Function.update (heap.copy address memory) (address e.1)
      { heap.copy address memory (address e.1) with
        outgoingEdges := (heap.copy address memory (address e.1)).outgoingEdges ++ [address e.2] } =
      copy (Function.update heap e.1 { heap e.1 with outgoingEdges := (heap e.1).outgoingEdges ++ [e.2] })
        address memory := update_copy _ _ _ (by simp [Node.map])
  simp only [addEdge, copyEdge, pushed]
  apply update_copy
  simp [Node.map]

theorem foldl_addEdge_copy [DecidableEq P] [DecidableEq Q] (edges : List (Edge P)) :
    (edges.map (copyEdge address)).foldl addEdge (heap.copy address memory) =
      (edges.foldl addEdge heap).copy address memory := by
  induction edges generalizing heap with
  | nil => rfl
  | cons e rest ih => rw [List.map_cons, List.foldl_cons, addEdge_copy, ih, List.foldl_cons]

end Heap

section Search

variable (heap : Heap P)

/-- The variables of a search in the copy. -/
def Search.copy (s : Search P) (address : P ↪ Q) : Search Q :=
  ⟨s.stack.map address, s.queue.map (copyEdge address), s.vacant, s.visited⟩

/-- What a search or several of them found, in the copy. -/
def copyFound (address : P ↪ Q) (found : EdgeQueue P × List Bool) : EdgeQueue Q × List Bool :=
  (found.1.map (copyEdge address), found.2)

theorem unvisitedNeighbor_copy (upperBound : ℤ) (vacant visited : List Bool) (neighbours : List P) :
    unvisitedNeighbor (heap.copy address memory) upperBound vacant visited (neighbours.map address) =
      (unvisitedNeighbor heap upperBound vacant visited neighbours).map (Option.map address) := by
  induction neighbours with
  | nil => rfl
  | cons dest rest ih =>
    simp only [List.map_cons, unvisitedNeighbor, Heap.copy_address, Node.map_index]
    apply bind_map_right
    intro onPath
    cases onPath with
    | true => rfl
    | false =>
      apply bind_map_right
      intro taken
      split_ifs
      · rfl
      · exact ih

theorem searchRound_copy (upperBound : ℤ) (invOrder : List P) (s : Search P) :
    searchRound (heap.copy address memory) upperBound (invOrder.map address) (s.copy address) =
      (searchRound heap upperBound invOrder s).map (Option.map fun next => next.copy address) := by
  obtain ⟨stack, queue, vacant, visited⟩ := s
  cases stack with
  | nil => rfl
  | cons v below =>
    simp only [searchRound, Search.copy, List.map_cons, Heap.copy_address, Node.map_index]
    apply bind_map (unvisitedNeighbor_copy address memory heap upperBound vacant visited _)
    intro found
    cases found with
    | none =>
      apply bind_map_right
      intro visited
      apply bind_map (readAt_map address invOrder upperBound)
      intro bound
      rfl
    | some dest =>
      simp only [Option.map_some, Heap.copy_address, Node.map_index]
      apply bind_map_right
      intro vacant
      apply bind_map_right
      intro visited
      rfl

theorem depthFirstSearch_copy (start : P) (upperBound : ℤ) (queue : EdgeQueue P) (invOrder : List P)
    (vacant : List Bool) :
    depthFirstSearch (address start) upperBound (queue.map (copyEdge address)) (heap.copy address memory)
        (invOrder.map address) vacant =
      (depthFirstSearch start upperBound queue heap invOrder vacant).map (copyFound address) := by
  simp only [depthFirstSearch, Heap.copy_address, Node.map_index, List.length_map]
  apply bind_map_right
  intro vacant
  apply bind_map_right
  intro visited
  refine bind_map (f := fun s => s.copy address) ?_ fun s => rfl
  exact BoundedLoop.run_refines (a := ⟨[start], queue, vacant, visited⟩) .outOfFuel
    (fun s => Search.copy s address)
    (fun s (_ : True) => searchRound_copy address memory heap upperBound invOrder s)
    (fun _ _ _ _ => trivial) _ trivial

theorem discoverEdge_copy (invOrder : List P) (found : EdgeQueue P × List Bool) (e : Edge P) :
    discoverEdge (heap.copy address memory) (invOrder.map address) (copyFound address found)
        (copyEdge address e) =
      (discoverEdge heap invOrder found e).map (copyFound address) := by
  simp only [discoverEdge, copyFound, copyEdge, Heap.copy_address, Node.map_index]
  apply bind_map_right
  intro taken
  cases taken with
  | true => rfl
  | false => exact depthFirstSearch_copy address memory heap e.2 _ found.1 invOrder found.2

theorem foldlM_discoverEdge_copy (invOrder : List P) (found : EdgeQueue P × List Bool) (edges : List (Edge P)) :
    (edges.map (copyEdge address)).foldlM (discoverEdge (heap.copy address memory) (invOrder.map address))
        (copyFound address found) =
      (edges.foldlM (discoverEdge heap invOrder) found).map (copyFound address) := by
  induction edges generalizing found with
  | nil => rfl
  | cons e rest ih =>
    rw [List.map_cons, List.foldlM_cons, List.foldlM_cons]
    exact bind_map (discoverEdge_copy address memory heap invOrder found e) ih

theorem byTail_copy (e f : Edge P) :
    byTail (heap.copy address memory) (copyEdge address e) (copyEdge address f) = byTail heap e f := by
  simp [byTail, copyEdge]

theorem discover_copy {sort : StdSort (Edge P)} {sort' : StdSort (Edge Q)}
    (follows : sort'.Follows sort (copyEdge address)) (edges : List (Edge P)) (invOrder : List P)
    (vacant : List Bool) :
    discover sort' (edges.map (copyEdge address)) (heap.copy address memory) (invOrder.map address) vacant =
      (discover sort edges heap invOrder vacant).map (copyFound address) := by
  rw [discover, follows (byTail heap) _ edges (byTail_strictWeakOrder heap)
    fun e _ f _ => byTail_copy address memory heap e f]
  exact foldlM_discoverEdge_copy address memory heap invOrder ([], vacant) _

end Search

section Placing

variable [DecidableEq P] [DecidableEq Q] (heap : Heap P)

theorem placeNode_copy (n : P) (i : ℤ) (invOrder : List P) :
    placeNode (address n) i (heap.copy address memory) (invOrder.map address) =
      (placeNode n i heap invOrder).map fun r => (r.1.copy address memory, r.2.map address) := by
  apply bind_map (writeAt_map address invOrder i n)
  intro invOrder
  rw [Heap.setIndex_copy]
  rfl

theorem placeQueued_copy (currentNode : P) (i : ℤ) (queue : EdgeQueue P) (removed : ℤ) (invOrder : List P) :
    placeQueued (address currentNode) i (queue.map (copyEdge address)) removed (heap.copy address memory)
        (invOrder.map address) =
      (placeQueued currentNode i queue removed heap invOrder).map fun r =>
        (r.1.map (copyEdge address), r.2.1, r.2.2.1.copy address memory, r.2.2.2.map address) := by
  induction queue generalizing removed heap invOrder with
  | nil => rfl
  | cons head rest ih =>
    simp only [List.map_cons, placeQueued, copyEdge, address.injective.eq_iff]
    split_ifs
    · apply bind_map (placeNode_copy address memory heap head.1 (i - (removed - 1)) invOrder)
      intro placed
      exact ih placed.1 (removed - 1) placed.2
    · rfl

/-- The variables of a shift in the copy. -/
noncomputable def Shift.copy (s : Shift P) (address : P ↪ Q) (memory : Heap Q) : Shift Q :=
  ⟨s.heap.copy address memory, s.invOrder.map address, s.vacant, s.queue.map (copyEdge address), s.i,
    s.numOfRemovedNodes⟩

theorem moveUp_copy (s : Shift P) : moveUp (s.copy address memory) =
    (moveUp s).map fun r => (address r.1, r.2.copy address memory) := by
  apply bind_map (readAt_map address s.invOrder s.i)
  intro currentNode
  simp only [Shift.copy, Heap.copy_address, Node.map_index]
  apply bind_map_right
  intro free
  cases free with
  | true =>
    apply bind_map_right
    intro vacant
    rfl
  | false =>
    apply bind_map (placeNode_copy address memory s.heap currentNode (s.i - s.numOfRemovedNodes) s.invOrder)
    intro placed
    rfl

theorem shiftRound_copy (s : Shift P) : shiftRound (s.copy address memory) =
    (shiftRound s).map (Option.map fun next => next.copy address memory) := by
  rw [shiftRound, shiftRound, show (s.copy address memory).queue.isEmpty = s.queue.isEmpty from List.isEmpty_map]
  split_ifs
  · rfl
  · apply bind_map (moveUp_copy address memory s)
    intro moved
    apply bind_map (placeQueued_copy address memory moved.2.heap moved.1 moved.2.i moved.2.queue
      moved.2.numOfRemovedNodes moved.2.invOrder)
    intro placed
    rfl

theorem shift_copy (startingIndex : ℤ) (queue : EdgeQueue P) (invOrder : List P) (vacant : List Bool) :
    shift startingIndex (queue.map (copyEdge address)) (heap.copy address memory) (invOrder.map address) vacant =
      (shift startingIndex queue heap invOrder vacant).map fun s => s.copy address memory := by
  rw [shift, List.length_map]
  exact BoundedLoop.run_refines (a := ⟨heap, invOrder, vacant, queue, startingIndex, 0⟩) .outOfFuel
    (fun s => Shift.copy s address memory) (fun s (_ : True) => shiftRound_copy address memory s)
    (fun _ _ _ _ => trivial) _ trivial

end Placing

namespace Store

variable [DecidableEq P] [DecidableEq Q] {sort : StdSort (Edge P)} {sort' : StdSort (Edge Q)}

theorem appendAll_copy (edges : List (Edge P)) (s : Store P) :
    appendAll (edges.map (copyEdge address)) (s.copy address memory) =
      (appendAll edges s).copy address memory := by
  rw [appendAll, Store.copy, Heap.foldl_addEdge_copy, List.length_map]
  rfl

omit [DecidableEq P] [DecidableEq Q] in
theorem invalidating_copy (edges : List (Edge P)) (s : Store P) :
    (s.copy address memory).invalidating (edges.map (copyEdge address)) =
      (s.invalidating edges).map (copyEdge address) := by
  rw [invalidating, List.filter_map]
  apply congrArg
  apply List.filter_congr
  intro e _
  change decide ((s.heap.copy address memory).index (address e.2) ≤
    (s.heap.copy address memory).index (address e.1)) = _
  rw [Heap.index_copy, Heap.index_copy]

section Sorting

variable (follows : sort'.Follows sort (copyEdge address))

include follows

theorem processRegion_copy (region : List (Edge P)) (lowerBound : ℤ) (vacant : List Bool) :
    Follows (processRegion sort' (region.map (copyEdge address)) lowerBound vacant)
      (processRegion sort region lowerBound vacant) fun s => s.copy address memory := by
  intro s
  have discovered := discover_copy address memory s.heap follows region s.dag.nodes vacant
  simp only [processRegion, Store.copy, Graph.map, discovered]
  cases discover sort region s.heap s.dag.nodes vacant with
  | error e => rfl
  | ok found =>
    have shifted := shift_copy address memory s.heap lowerBound found.1 s.dag.nodes found.2
    simp only [Except.map, copyFound, shifted]
    cases shift lowerBound found.1 s.heap s.dag.nodes found.2 with
    | error e => rfl
    | ok r => rfl

theorem regionLoop_copy (sorted rest : List (Edge P)) (i start : ℕ) (lowerBound : ℤ) (vacant : List Bool) :
    Follows (regionLoop sort' (sorted.map (copyEdge address)) (rest.map (copyEdge address)) i start lowerBound vacant)
      (regionLoop sort sorted rest i start lowerBound vacant) fun s => s.copy address memory := by
  induction rest generalizing i start lowerBound vacant with
  | nil => exact fun s => rfl
  | cons e rest ih =>
    obtain ⟨x, y⟩ := e
    intro s
    have index : ∀ v, (s.copy address memory).heap.index (address v) = s.heap.index v :=
      Heap.index_copy address memory s.heap
    rw [List.map_cons, copyEdge, regionLoop_cons, regionLoop_cons, index, index, ← List.map_drop,
      ← List.map_take]
    split_ifs
    · rw [processRegion_copy address memory follows]
      cases processRegion sort ((sorted.drop start).take (i - start)) lowerBound vacant s with
      | error e t => rfl
      | ok vacant t =>
        have index : (t.copy address memory).heap.index (address y) = t.heap.index y :=
          Heap.index_copy address memory t.heap y
        simp only [mapState, index]
        exact ih (i + 1) i _ vacant t
    · exact ih (i + 1) start _ vacant s

/-- An insertion does to the copy of a graph what it does to the graph, whatever state it is in. -/
theorem insertEdges_copy (edges : List (Edge P)) :
    Follows (insertEdges sort' (edges.map (copyEdge address))) (insertEdges sort edges)
      fun s => s.copy address memory := by
  intro s
  have arranged : sort'.sort (byTail ((appendAll edges s).copy address memory).heap)
      ((s.invalidating edges).map (copyEdge address)) =
        (sort.sort (byTail (appendAll edges s).heap) (s.invalidating edges)).map (copyEdge address) :=
    follows _ _ _ (byTail_strictWeakOrder _) fun e _ f _ => byTail_copy address memory _ e f
  have length : (s.copy address memory).dag.nodes.length = s.dag.nodes.length := List.length_map _
  rw [insertEdges_eq, insertEdges_eq, invalidating_copy, appendAll_copy, List.isEmpty_map, arranged, length]
  split_ifs
  · rfl
  · rw [regionLoop_copy address memory follows]
    cases regionLoop sort (sort.sort (byTail (appendAll edges s).heap) (s.invalidating edges)) _ 0 0
      s.dag.nodes.length (List.replicate s.dag.nodes.length false) (appendAll edges s) with
    | error e t => rfl
    | ok found t =>
      obtain ⟨start, lower, vacant⟩ := found
      simp only [mapState]
      rw [← List.map_drop, processRegion_copy address memory follows]
      cases processRegion sort ((sort.sort (byTail (appendAll edges s).heap) (s.invalidating edges)).drop start)
        lower vacant t with
      | error e t => rfl
      | ok vacant t => rfl

end Sorting

end Store

section TopologicalOrder

/-- The variables of Kahn's algorithm in the copy. -/
noncomputable def Kahn.copy (k : Kahn P) (address : P ↪ Q) (memory : Heap Q) : Kahn Q :=
  ⟨k.heap.copy address memory, k.topologicalOrder.map address, k.nodesWithoutIncomingEdge.map address,
    Function.extend address k.numOfVisitedEdgesForNode fun _ => 0, k.visitedEdgesTotal⟩

variable [DecidableEq P] [DecidableEq Q]

theorem visitEdge_copy (k : Kahn P) (m : P) :
    (k.copy address memory).visitEdge (address m) = (k.visitEdge m).copy address memory := by
  have count : Function.extend address k.numOfVisitedEdgesForNode (fun _ => 0) (address m) =
      k.numOfVisitedEdgesForNode m := address.injective.extend_apply _ _ m
  have length : ((k.heap.copy address memory) (address m)).incomingEdges.length =
      (k.heap m).incomingEdges.length := by
    rw [Heap.copy_address]
    exact List.length_map _
  simp only [Kahn.visitEdge, Kahn.copy, count, update_extend, Function.update_self, length]
  split_ifs <;> rfl

theorem foldl_visitEdge_copy (k : Kahn P) (edges : List P) :
    (edges.map address).foldl Kahn.visitEdge (k.copy address memory) =
      (edges.foldl Kahn.visitEdge k).copy address memory := by
  induction edges generalizing k with
  | nil => rfl
  | cons m rest ih => rw [List.map_cons, List.foldl_cons, visitEdge_copy, ih, List.foldl_cons]

theorem kahnRound_copy (k : Kahn P) :
    kahnRound (k.copy address memory) = (kahnRound k).map fun next => next.copy address memory := by
  obtain ⟨heap, order, stack, counts, total⟩ := k
  cases stack with
  | nil => rfl
  | cons n rest =>
    have taken := Heap.setIndex_copy address memory heap n order.length
    simp only [kahnRound, Kahn.copy, List.map_cons, List.length_map, taken, Heap.copy_address,
      Option.map_some]
    rw [← List.map_singleton, ← List.map_append]
    exact congrArg some (foldl_visitEdge_copy address memory
      ⟨heap.setIndex n order.length, order ++ [n], rest, counts, total⟩ _)

omit [DecidableEq P] [DecidableEq Q] in
theorem kahnStart_copy (s : Store P) :
    kahnStart (s.copy address memory) = (kahnStart s).copy address memory := by
  have counts : (fun _ => 0 : Q → ℤ) = Function.extend address (fun _ => 0) fun _ => 0 :=
    (Function.extend_const _ _).symm
  have sources : ((s.dag.nodes.map address).filter fun node =>
      ((s.heap.copy address memory) node).incomingEdges.isEmpty) =
        (s.dag.nodes.filter fun node => (s.heap node).incomingEdges.isEmpty).map address := by
    rw [List.filter_map]
    apply congrArg
    apply List.filter_congr
    intro v _
    rw [Function.comp_apply, Heap.copy_address]
    exact List.isEmpty_map
  simp only [kahnStart, Kahn.copy, Store.copy, Graph.map, sources, List.map_reverse]
  rw [← counts]
  rfl

/-- Kahn's algorithm does to the copy of a graph what it does to the graph. -/
theorem setToTopologicalOrder_copy (fuel : ℕ) :
    Follows (setToTopologicalOrder fuel : EStateM Fault (Store Q) Unit) (setToTopologicalOrder fuel)
      fun s : Store P => s.copy address memory := by
  intro s
  have rounds : BoundedLoop.run Fault.outOfFuel (fun k => .ok (kahnRound k)) fuel
      ((kahnStart s).copy address memory) =
        (BoundedLoop.run Fault.outOfFuel (fun k => .ok (kahnRound k)) fuel (kahnStart s)).map
          fun k => k.copy address memory := by
    apply BoundedLoop.run_refines Fault.outOfFuel (fun k : Kahn P => k.copy address memory)
      (fun k (_ : True) => ?_) (fun _ _ _ _ => trivial) fuel trivial
    rw [kahnRound_copy]
    rfl
  rw [setToTopologicalOrder, kahnStart_copy, rounds, setToTopologicalOrder]
  cases BoundedLoop.run Fault.outOfFuel (fun k => .ok (kahnRound k)) fuel (kahnStart s) with
  | error e => rfl
  | ok k =>
    have total : (k.copy address memory).visitedEdgesTotal = k.visitedEdgesTotal := rfl
    have count : (s.copy address memory).dag.numberOfEdges = s.dag.numberOfEdges := rfl
    simp only [Except.map, total, count]
    split_ifs
    · rfl
    · rfl

end TopologicalOrder

/-- Both shuffles rearrange the positions in the same way. -/
def StdShuffle.Follows (other : StdShuffle Q) (shuffle : StdShuffle P) (f : P → Q) : Prop :=
  ∀ nodes, other.shuffle (nodes.map f) = (shuffle.shuffle nodes).map f

/-- A shuffle seen from the nodes of a graph. -/
theorem StdShuffle.exists_follows (shuffle : StdShuffle Q) :
    ∃ smaller : StdShuffle P, shuffle.Follows smaller address := by
  have preimage : ∀ nodes : List P, ∃ ys : List P, ys.map address = shuffle.shuffle (nodes.map address) := by
    intro nodes
    have inside : shuffle.shuffle (nodes.map address) ∈ Set.range (List.map address) := by
      rw [Set.range_list_map]
      intro q member
      obtain ⟨v, _, rfl⟩ := List.mem_map.mp ((shuffle.perm _).mem_iff.mp member)
      exact ⟨v, rfl⟩
    exact inside
  choose rearranged image using preimage
  refine ⟨⟨rearranged, fun nodes => ?_⟩, fun nodes => (image nodes).symm⟩
  apply (List.map_perm_map_iff address.injective).mp
  rw [image]
  exact shuffle.perm _

/-- A shuffle that moves the entries of a list by their positions. -/
def StdShuffle.Positional (shuffle : StdShuffle Q) : Prop := ∀ f : Q → Q, shuffle.Follows shuffle f

theorem StdShuffle.Positional.exists_follows {shuffle : StdShuffle Q} (positional : shuffle.Positional)
    (address : P ↪ Q) : ∃ smaller : StdShuffle P, ∀ f : P → Q, shuffle.Follows smaller f := by
  obtain ⟨smaller, follows⟩ := shuffle.exists_follows address
  refine ⟨smaller, fun f nodes => ?_⟩
  have renamed : ∀ nodes : List P, (nodes.map address).map (Function.extend address f id) = nodes.map f := by
    intro nodes
    rw [List.map_map, Function.extend_comp address.injective]
  rw [← renamed, positional, follows, renamed]

theorem shuffleGraph_copy {shuffle : StdShuffle P} {shuffle' : StdShuffle Q}
    (follows : shuffle'.Follows shuffle address) (s : Store P) :
    shuffleGraph shuffle' (s.copy address memory) = (shuffleGraph shuffle s).copy address memory := by
  simp only [shuffleGraph, Store.copy, Graph.map, follows s.dag.nodes]

section Generation

variable [DecidableEq P] [DecidableEq Q]

theorem generateEdges_copy (shouldBeDag : Bool) (nodes : List P) (rounds : ℕ) (generated : Finset (ℤ × ℤ))
    (heap : Heap P) (draws : List ℤ) :
    generateEdges shouldBeDag (nodes.map address) rounds generated (heap.copy address memory) draws =
      (generateEdges shouldBeDag nodes rounds generated heap draws).map
        fun r => (r.1.copy address memory, r.2) := by
  induction rounds generalizing generated heap draws with
  | zero => rfl
  | succ rounds ih =>
    apply bind_map_right
    intro drawn
    apply bind_map (readAt_map address nodes drawn.1.1)
    intro fromNode
    apply bind_map (readAt_map address nodes drawn.1.2)
    intro toNode
    have added := Heap.addEdge_copy address memory heap (fromNode, toNode)
    rw [copyEdge] at added
    rw [added]
    exact ih _ _ _

omit [DecidableEq P] [DecidableEq Q] in
theorem existingEdges_copy (s : Store P) : existingEdges (s.copy address memory) = existingEdges s := by
  simp only [existingEdges, Store.copy, Graph.map, List.flatMap_map, Heap.copy_address, Node.map,
    List.map_map, Function.comp_def]

omit [DecidableEq P] [DecidableEq Q] in
theorem extraEdge_copy (dag : Graph P) (a b : ℤ) :
    extraEdge (dag.map address) a b = (extraEdge dag a b).map (copyEdge address) := by
  apply bind_map (readAt_map address dag.nodes (min a b))
  intro fromNode
  apply bind_map (readAt_map address dag.nodes (max a b))
  intro toNode
  rfl

theorem generateExtra_copy (s : Store P) (rounds : ℕ) (existing : Finset (ℤ × ℤ)) (generated : List (Edge P))
    (draws : List ℤ) :
    generateExtra (s.copy address memory) rounds existing (generated.map (copyEdge address)) draws =
      (generateExtra s rounds existing generated draws).map fun r => (r.1.map (copyEdge address), r.2) := by
  induction rounds generalizing existing generated draws with
  | zero => rfl
  | succ rounds ih =>
    have pair : ∀ e : Edge P, (((s.copy address memory).heap (address e.1)).index,
        ((s.copy address memory).heap (address e.2)).index) = ((s.heap e.1).index, (s.heap e.2).index) := by
      intro e
      simp [Store.copy]
    refine bind_map (f := fun drawn => (copyEdge address drawn.1, drawn.2))
      (RejectionSampling.draw_map (copyEdge address) (extraEdge_copy address s.dag) ?_ draws) ?_
    · intro e
      simp only [copyEdge, pair, address.injective.eq_iff]
    · intro drawn
      simp only [copyEdge, pair]
      have grown := ih (insert ((s.heap drawn.1.1).index, (s.heap drawn.1.2).index) existing)
        (generated ++ [drawn.1]) drawn.2
      rw [List.map_append, List.map_singleton] at grown
      exact grown

/-- The additional edges of the copy are the copies of the additional edges. -/
theorem generateExtraEdges_copy (s : Store P) (draws : List ℤ) (numberOfEdges : ℤ) :
    generateExtraEdges (s.copy address memory) draws numberOfEdges =
      (generateExtraEdges s draws numberOfEdges).map fun r => (r.1.map (copyEdge address), r.2) := by
  rw [generateExtraEdges, existingEdges_copy]
  exact generateExtra_copy address memory s _ _ [] draws

end Generation

end DynamicDag
