import DynamicDag.Model.Graphs
import DynamicDag.General.BoundedLoop

/-! # Topological order of a graph

`setToTopologicalOrder` is Kahn's algorithm: nodes without unvisited incoming edges wait on a stack,
each popped node takes the next index, and every edge it leaves counts as visited at its head. The
number of visited edges decides whether the graph is a dag. Indices are written during the loop,
before this decision; the node vector is replaced after it.
-/

namespace DynamicDag

variable {Ptr : Type} [DecidableEq Ptr]

/-- The variables of Kahn's algorithm. The stack keeps its last entry first. -/
structure Kahn (Ptr : Type) where
  heap : Heap Ptr
  topologicalOrder : List Ptr
  nodesWithoutIncomingEdge : List Ptr
  numOfVisitedEdgesForNode : Ptr → ℤ
  visitedEdgesTotal : ℤ

/-- The loop body for one outgoing edge with head `m`. -/
def Kahn.visitEdge (s : Kahn Ptr) (m : Ptr) : Kahn Ptr :=
  let visited := Function.update s.numOfVisitedEdgesForNode m (s.numOfVisitedEdgesForNode m + 1)
  { s with
    numOfVisitedEdgesForNode := visited
    visitedEdgesTotal := s.visitedEdgesTotal + 1
    nodesWithoutIncomingEdge :=
      if visited m = (s.heap m).incomingEdges.length then m :: s.nodesWithoutIncomingEdge
      else s.nodesWithoutIncomingEdge }

/-- One round of the outer loop. -/
def kahnRound (s : Kahn Ptr) : Option (Kahn Ptr) :=
  match s.nodesWithoutIncomingEdge with
  | [] => none
  | n :: rest =>
    let taken := { s with
      heap := s.heap.setIndex n s.topologicalOrder.length
      topologicalOrder := s.topologicalOrder ++ [n]
      nodesWithoutIncomingEdge := rest }
    some ((taken.heap n).outgoingEdges.foldl Kahn.visitEdge taken)

/-- The state before the first round: every node without incoming edges waits. -/
def kahnStart (s : Store Ptr) : Kahn Ptr where
  heap := s.heap
  topologicalOrder := []
  nodesWithoutIncomingEdge :=
    (s.dag.nodes.filter fun node => (s.heap node).incomingEdges.isEmpty).reverse
  numOfVisitedEdgesForNode _ := 0
  visitedEdgesTotal := 0

/-- Sort the nodes topologically, with at most `fuel` rounds of the outer loop. -/
def setToTopologicalOrder (fuel : ℕ) : EStateM Fault (Store Ptr) Unit := fun s =>
  match BoundedLoop.run .outOfFuel (fun k => .ok (kahnRound k)) fuel (kahnStart s) with
  | .error e => .error e s
  | .ok k =>
    if k.visitedEdgesTotal ≠ s.dag.numberOfEdges then
      .error (.invalidArgument "the input graph is not a dag") { s with heap := k.heap }
    else .ok () { heap := k.heap, dag := { s.dag with nodes := k.topologicalOrder } }

omit [DecidableEq Ptr] in
/-- The check of the node at position `i`. -/
def nodeIsInOrder (heap : Heap Ptr) (v : Ptr) (i : ℤ) : Bool :=
  decide ((heap v).index = i) &&
    (heap v).incomingEdges.all (fun n => decide ((heap n).index < i)) &&
    (heap v).outgoingEdges.all (fun n => decide (i < (heap n).index))

/-- Every node stands at its index, after its predecessors and before its successors. -/
def graphIsInTopologicalOrder (heap : Heap Ptr) (graph : Graph Ptr) : Bool :=
  graph.nodes.zipIdx.all fun entry => nodeIsInOrder heap entry.1 entry.2

end DynamicDag
