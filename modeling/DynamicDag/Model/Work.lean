import DynamicDag.Model.InsertionAlgorithm
import DynamicDag.Model.DagUtil
import DynamicDag.General.Spending

/-! # The work of a call

What the loops of a call do, counted on the runs of the model: the rounds of the loop in
`depth_first_search`, the outgoing edges that its inner loop looks at, and the rounds of the loop in
`shift`; for Kahn's algorithm, the rounds of the outer and of the inner loop.
-/

namespace DynamicDag

open BoundedLoop

variable {Ptr : Type}

/-- The outgoing edges that the scan looks at: it goes on after those for which it neither throws nor
returns. -/
def lookedAt (heap : Heap Ptr) (upperBound : ℤ) (vacant visited : List Bool) : List Ptr → ℕ
  | [] => 0
  | dest :: rest =>
    match unvisitedNeighbor heap upperBound vacant visited [dest] with
    | .ok none => lookedAt heap upperBound vacant visited rest + 1
    | _ => 1

/-- What a round of a search may be charged for. -/
abbrev SearchCharge (Ptr : Type) := Heap Ptr → ℤ → Search Ptr → ℕ

/-- The round itself. -/
def SearchCharge.round : SearchCharge Ptr := fun _ _ _ => 1

/-- The outgoing edges it looks at. -/
def SearchCharge.looks : SearchCharge Ptr := fun heap upperBound s =>
  match s.stack with
  | [] => 0
  | v :: _ => lookedAt heap upperBound s.vacant s.visited (heap v).outgoingEdges

/-- The charges of `depth_first_search`. -/
def searchSpent (charge : SearchCharge Ptr) (start : Ptr) (upperBound : ℤ) (queue : EdgeQueue Ptr)
    (heap : Heap Ptr) (invOrder : List Ptr) (vacant : List Bool) : ℕ :=
  match write vacant (heap start).index true,
    write (List.replicate invOrder.length false) (heap start).index true with
  | .ok vacant, .ok visited =>
    spent (charge heap upperBound) (searchRound heap upperBound invOrder) (2 * vacant.length)
      { stack := [start], queue, vacant, visited }
  | _, _ => 0

/-- The charges of the searches of `discover`, for its sorted edges. -/
def discoverSpent (charge : SearchCharge Ptr) (heap : Heap Ptr) (invOrder : List Ptr) :
    List (Edge Ptr) → EdgeQueue Ptr × List Bool → ℕ
  | [], _ => 0
  | e :: rest, found =>
    (match read found.2 (heap e.2).index with
      | .ok false => searchSpent charge e.2 (heap e.1).index found.1 heap invOrder found.2
      | _ => 0) +
    match discoverEdge heap invOrder found e with
    | .ok found => discoverSpent charge heap invOrder rest found
    | .error _ => 0

variable [DecidableEq Ptr]

/-- The rounds of the loop in `shift`. -/
def shiftRounds (startingIndex : ℤ) (queue : EdgeQueue Ptr) (heap : Heap Ptr) (invOrder : List Ptr)
    (vacant : List Bool) : ℕ :=
  spent (fun _ => 1) shiftRound (invOrder.length + 1) ⟨heap, invOrder, vacant, queue, startingIndex, 0⟩

/-- A region that `insert_edges` treats, and the store it finds. -/
structure RegionCall (Ptr : Type) where
  edgeRegion : List (Edge Ptr)
  lowerBound : ℤ
  vacant : List Bool
  store : Store Ptr

namespace RegionCall

def run (sort : StdSort (Edge Ptr)) (call : RegionCall Ptr) : EStateM.Result Fault (Store Ptr) (List Bool) :=
  processRegion sort call.edgeRegion call.lowerBound call.vacant call.store

def searchSpent (charge : SearchCharge Ptr) (sort : StdSort (Edge Ptr)) (call : RegionCall Ptr) : ℕ :=
  discoverSpent charge call.store.heap call.store.dag.nodes (sort.sort (byTail call.store.heap) call.edgeRegion)
    ([], call.vacant)

def shiftRounds (sort : StdSort (Edge Ptr)) (call : RegionCall Ptr) : ℕ :=
  match discover sort call.edgeRegion call.store.heap call.store.dag.nodes call.vacant with
  | .error _ => 0
  | .ok (queue, vacant) =>
    DynamicDag.shiftRounds call.lowerBound queue call.store.heap call.store.dag.nodes vacant

end RegionCall

/-- The regions that the loop over the sorted edges treats, and the final region. -/
def regionCalls (sort : StdSort (Edge Ptr)) (sorted : List (Edge Ptr)) :
    List (Edge Ptr) → (i start : ℕ) → (lowerBound : ℤ) → List Bool → Store Ptr → List (RegionCall Ptr)
  | [], _, start, lowerBound, vacant, s => [⟨sorted.drop start, lowerBound, vacant, s⟩]
  | (x, y) :: rest, i, start, lowerBound, vacant, s =>
    if (s.heap x).index < lowerBound ∧ i > 0 then
      let call : RegionCall Ptr := ⟨(sorted.drop start).take (i - start), lowerBound, vacant, s⟩
      call :: match call.run sort with
        | .error _ _ => []
        | .ok vacant s => regionCalls sort sorted rest (i + 1) i (min (s.heap y).index lowerBound) vacant s
    else regionCalls sort sorted rest (i + 1) start (min (s.heap y).index lowerBound) vacant s

/-- The regions that a call of `insert_edges` treats. -/
def insertEdgesCalls (sort : StdSort (Edge Ptr)) (edges : List (Edge Ptr)) (s : Store Ptr) : List (RegionCall Ptr) :=
  let vacant := List.replicate s.dag.nodes.length false
  let (heap, invalidatingEdges) := appendEdges s.heap edges
  let s : Store Ptr := { heap, dag := { s.dag with numberOfEdges := s.dag.numberOfEdges + edges.length } }
  if invalidatingEdges.isEmpty then []
  else
    let sorted := sort.sort (byTail heap) invalidatingEdges
    regionCalls sort sorted sorted 0 0 s.dag.nodes.length vacant s

/-- The charges of all searches of a call of `insert_edges`. -/
def insertEdgesSearches (charge : SearchCharge Ptr) (sort : StdSort (Edge Ptr)) (edges : List (Edge Ptr))
    (s : Store Ptr) : ℕ :=
  ((insertEdgesCalls sort edges s).map (RegionCall.searchSpent charge sort)).sum

/-- The rounds of `shift` in a call of `insert_edges`. -/
def insertEdgesShifts (sort : StdSort (Edge Ptr)) (edges : List (Edge Ptr)) (s : Store Ptr) : ℕ :=
  ((insertEdgesCalls sort edges s).map (RegionCall.shiftRounds sort)).sum

/-- Whether a call of `insert_edges` repairs the order at all. -/
def insertEdgesRepairs (sort : StdSort (Edge Ptr)) (edges : List (Edge Ptr)) (s : Store Ptr) : ℕ :=
  if (insertEdgesCalls sort edges s).isEmpty then 0 else 1

/-- What the calls of a run spend, one batch after the other. A call that throws is the last one. -/
def insertBatchesSpent (cost : List (Edge Ptr) → Store Ptr → ℕ) (sort : StdSort (Edge Ptr)) :
    List (List (Edge Ptr)) → Store Ptr → ℕ
  | [], _ => 0
  | edges :: rest, s => cost edges s +
    match insertEdges sort edges s with
    | .ok _ t => insertBatchesSpent cost sort rest t
    | .error _ _ => 0

/-- The rounds of Kahn's algorithm. -/
def kahnRounds (fuel : ℕ) (s : Store Ptr) : ℕ :=
  spent (fun _ => 1) (fun k : Kahn Ptr => (.ok (kahnRound k) : Except Fault _)) fuel (kahnStart s)

omit [DecidableEq Ptr] in
/-- The outgoing edges of the node that the next round takes. -/
def Kahn.looks (k : Kahn Ptr) : ℕ :=
  match k.nodesWithoutIncomingEdge with
  | [] => 0
  | n :: _ => (k.heap n).outgoingEdges.length

/-- The outgoing edges that Kahn's algorithm looks at. -/
def kahnLooks (fuel : ℕ) (s : Store Ptr) : ℕ :=
  spent Kahn.looks (fun k => (.ok (kahnRound k) : Except Fault _)) fuel (kahnStart s)

end DynamicDag
