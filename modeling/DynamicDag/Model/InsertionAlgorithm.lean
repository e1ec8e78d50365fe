import DynamicDag.Model.Graphs
import DynamicDag.General.BoundedLoop
import DynamicDag.General.StdSort

/-! # The batch insertion algorithm (PK2)

`insertEdges` appends a batch of edges and repairs the order of the nodes. The invalidating edges,
whose tail does not come before their head, are sorted by descending tail and cut into affected
regions. In each region `discover` searches forward from the heads, below the index of the tails, and
queues every node found with the tail after which it belongs; `shift` then closes the vacated slots
and puts the queued nodes back. Stacks keep their top first. The two `while` loops run with a budget
that no run uses up; a run that would is a fault of its own.
-/

namespace DynamicDag

variable {Ptr : Type}

/-- `std::stack<Edge>`, top first. -/
abbrev EdgeQueue (Ptr : Type) := List (Edge Ptr)

/-- The comparator of both sorts: descending index of the tail. -/
def byTail (heap : Heap Ptr) (n1 n2 : Edge Ptr) : Bool :=
  decide ((heap n1.1).index > (heap n2.1).index)

/-- The variables of the loop in `depth_first_search`. -/
structure Search (Ptr : Type) where
  stack : List Ptr
  queue : EdgeQueue Ptr
  vacant : List Bool
  visited : List Bool

/-- The scan of the outgoing edges of `v`, up to the first neighbour to visit. -/
def unvisitedNeighbor (heap : Heap Ptr) (upperBound : ℤ) (vacant visited : List Bool) :
    List Ptr → Except Fault (Option Ptr)
  | [] => .ok none
  | dest :: rest => do
    if ← read visited (heap dest).index then .error (.runtimeError "cycle detected")
    else if !(← read vacant (heap dest).index) && decide ((heap dest).index < upperBound) then
      return some dest
    else unvisitedNeighbor heap upperBound vacant visited rest

/-- One round of the loop in `depth_first_search`. -/
def searchRound (heap : Heap Ptr) (upperBound : ℤ) (invOrder : List Ptr) (s : Search Ptr) :
    Except Fault (Option (Search Ptr)) :=
  match s.stack with
  | [] => .ok none
  | v :: below => do
    match ← unvisitedNeighbor heap upperBound s.vacant s.visited (heap v).outgoingEdges with
    | some dest =>
      -- new node found that needs to be rearranged (new frontier pair)
      let vacant ← write s.vacant (heap dest).index true
      let visited ← write s.visited (heap dest).index true
      return some { s with stack := dest :: v :: below, vacant, visited }
    | none =>
      let visited ← write s.visited (heap v).index false
      let bound ← read invOrder upperBound
      return some { s with stack := below, queue := (v, bound) :: s.queue, visited }

/-- Search forward from `start` below `upperBound`. Every round takes a flag in `vacant` or an entry
of the stack, which bounds the number of rounds. -/
def depthFirstSearch (start : Ptr) (upperBound : ℤ) (queue : EdgeQueue Ptr) (heap : Heap Ptr)
    (invOrder : List Ptr) (vacant : List Bool) : Except Fault (EdgeQueue Ptr × List Bool) := do
  let visited := List.replicate invOrder.length false
  let vacant ← write vacant (heap start).index true
  let visited ← write visited (heap start).index true
  let s ← BoundedLoop.run .outOfFuel (searchRound heap upperBound invOrder) (2 * vacant.length)
    { stack := [start], queue, vacant, visited }
  return (s.queue, s.vacant)

/-- One edge of the loop in `discover`. -/
def discoverEdge (heap : Heap Ptr) (invOrder : List Ptr) (found : EdgeQueue Ptr × List Bool)
    (e : Edge Ptr) : Except Fault (EdgeQueue Ptr × List Bool) := do
  if ← read found.2 (heap e.2).index then
    -- a frontier pair that passes over this edge has been found for a tail with a higher index
    return found
  else depthFirstSearch e.2 (heap e.1).index found.1 heap invOrder found.2

/-- Search from the heads of the given edges, highest tail first. -/
def discover (sort : StdSort (Edge Ptr)) (edgeInsertions : List (Edge Ptr)) (heap : Heap Ptr)
    (invOrder : List Ptr) (vacant : List Bool) : Except Fault (EdgeQueue Ptr × List Bool) :=
  (sort.sort (byTail heap) edgeInsertions).foldlM (discoverEdge heap invOrder) ([], vacant)

variable [DecidableEq Ptr]

/-- `place_node`. -/
def placeNode (n : Ptr) (i : ℤ) (heap : Heap Ptr) (invOrder : List Ptr) :
    Except Fault (Heap Ptr × List Ptr) := do
  let invOrder ← write invOrder i n
  return (heap.setIndex n i, invOrder)

/-- The variables of the loop in `shift`. -/
structure Shift (Ptr : Type) where
  heap : Heap Ptr
  invOrder : List Ptr
  vacant : List Bool
  queue : EdgeQueue Ptr
  i : ℤ
  numOfRemovedNodes : ℤ

/-- The inner loop of `shift`: put back the queued nodes that belong after `currentNode`. -/
def placeQueued (currentNode : Ptr) (i : ℤ) :
    EdgeQueue Ptr → ℤ → Heap Ptr → List Ptr → Except Fault (EdgeQueue Ptr × ℤ × Heap Ptr × List Ptr)
  | [], removed, heap, invOrder => .ok ([], removed, heap, invOrder)
  | head :: rest, removed, heap, invOrder =>
    if currentNode = head.2 then do
      let (heap, invOrder) ← placeNode head.1 (i - (removed - 1)) heap invOrder
      placeQueued currentNode i rest (removed - 1) heap invOrder
    else .ok (head :: rest, removed, heap, invOrder)

/-- The first half of a round of `shift`: move vacant slots up. -/
def moveUp (s : Shift Ptr) : Except Fault (Ptr × Shift Ptr) := do
  let currentNode ← read s.invOrder s.i
  if ← read s.vacant (s.heap currentNode).index then
    let vacant ← write s.vacant (s.heap currentNode).index false
    return (currentNode, { s with vacant, numOfRemovedNodes := s.numOfRemovedNodes + 1 })
  else
    let (heap, invOrder) ← placeNode currentNode (s.i - s.numOfRemovedNodes) s.heap s.invOrder
    return (currentNode, { s with heap, invOrder })

/-- One round of the loop in `shift`. -/
def shiftRound (s : Shift Ptr) : Except Fault (Option (Shift Ptr)) :=
  if s.queue.isEmpty then .ok none
  else do
    let (currentNode, s) ← moveUp s
    let (queue, numOfRemovedNodes, heap, invOrder) ←
      placeQueued currentNode s.i s.queue s.numOfRemovedNodes s.heap s.invOrder
    return some { heap, invOrder, vacant := s.vacant, queue, i := s.i + 1, numOfRemovedNodes }

/-- Close the vacant slots from `startingIndex` on and put the queued nodes back. Every round reads
the next slot, which bounds the number of rounds. -/
def shift (startingIndex : ℤ) (queue : EdgeQueue Ptr) (heap : Heap Ptr) (invOrder : List Ptr)
    (vacant : List Bool) : Except Fault (Shift Ptr) :=
  BoundedLoop.run .outOfFuel shiftRound (invOrder.length + 1)
    ⟨heap, invOrder, vacant, queue, startingIndex, 0⟩

/-- One edge of the first loop of `insert_edges`. -/
def appendEdge (added : Heap Ptr × List (Edge Ptr)) (e : Edge Ptr) : Heap Ptr × List (Edge Ptr) :=
  let heap := added.1.addEdge e
  (heap, if (heap e.1).index ≥ (heap e.2).index then added.2 ++ [e] else added.2)

/-- Add the edges to the graph and collect the invalidating ones. -/
def appendEdges (heap : Heap Ptr) (edges : List (Edge Ptr)) : Heap Ptr × List (Edge Ptr) :=
  edges.foldl appendEdge (heap, [])

/-- Discover and shift one region of edges. An exception leaves the store as it is. -/
def processRegion (sort : StdSort (Edge Ptr)) (edgeRegion : List (Edge Ptr)) (lowerBound : ℤ)
    (vacant : List Bool) : EStateM Fault (Store Ptr) (List Bool) := fun s =>
  match discover sort edgeRegion s.heap s.dag.nodes vacant with
  | .error e => .error e s
  | .ok (queue, vacant) =>
    match shift lowerBound queue s.heap s.dag.nodes vacant with
    | .error e => .error e s
    | .ok r => .ok r.vacant { heap := r.heap, dag := { s.dag with nodes := r.invOrder } }

/-- The loop over the sorted invalidating edges. `rest` is the part of `sorted` from `i` on; the
edges from `start` to `i` form the region under construction. -/
def regionLoop (sort : StdSort (Edge Ptr)) (sorted : List (Edge Ptr)) :
    List (Edge Ptr) → (i start : ℕ) → (lowerBound : ℤ) → List Bool →
      EStateM Fault (Store Ptr) (ℕ × ℤ × List Bool)
  | [], _, start, lowerBound, vacant => return (start, lowerBound, vacant)
  | (x, y) :: rest, i, start, lowerBound, vacant => do
    let s ← get
    if (s.heap x).index < lowerBound ∧ i > 0 then
      let vacant ← processRegion sort ((sorted.drop start).take (i - start)) lowerBound vacant
      let s ← get
      regionLoop sort sorted rest (i + 1) i (min (s.heap y).index lowerBound) vacant
    else
      regionLoop sort sorted rest (i + 1) start (min (s.heap y).index lowerBound) vacant

/-- Insert a batch of edges and repair the order of the nodes. -/
def insertEdges (sort : StdSort (Edge Ptr)) (edges : List (Edge Ptr)) :
    EStateM Fault (Store Ptr) Unit := do
  let s ← get
  let vacant := List.replicate s.dag.nodes.length false
  let (heap, invalidatingEdges) := appendEdges s.heap edges
  set { heap, dag := { s.dag with numberOfEdges := s.dag.numberOfEdges + edges.length } : Store Ptr }
  if invalidatingEdges.isEmpty then return ()
  -- sort invalidating edges into descending order by index of tail
  let sorted := sort.sort (byTail heap) invalidatingEdges
  let (start, lowerBound, vacant) ← regionLoop sort sorted sorted 0 0 s.dag.nodes.length vacant
  let _ ← processRegion sort (sorted.drop start) lowerBound vacant

/-- A run of calls, one batch after the other. -/
def insertBatches (sort : StdSort (Edge Ptr)) : List (List (Edge Ptr)) →
    EStateM Fault (Store Ptr) Unit
  | [] => return ()
  | edges :: rest => do
    insertEdges sort edges
    insertBatches sort rest

end DynamicDag
