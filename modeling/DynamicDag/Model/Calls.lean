import DynamicDag.Model.Evaluation
import DynamicDag.General.Procedures

/-! # Calls on graphs

A caller changes a graph through a few functions, in any order, and may go on after an exception: what
the call has written by then stays. Several graphs can live in one memory, as the graphs of successive
evaluation runs do, whose nodes are never freed. A sequence of calls is described by the store it leaves and
by how each of its calls ends.
-/

namespace DynamicDag

open Procedures

variable {Ptr : Type} [DecidableEq Ptr]

/-- A call of a function that changes a graph; `appendAll` is the append phase of `run_test_kahn`. -/
inductive Call (Ptr : Type) where
  | insertEdges (edges : List (Edge Ptr))
  | appendAll (edges : List (Edge Ptr))
  | setToTopologicalOrder
  | shuffleGraph (shuffle : StdShuffle Ptr)

namespace Call

/-- The edges a call adds to the graph. -/
def edges : Call Ptr → List (Edge Ptr)
  | .insertEdges edges => edges
  | .appendAll edges => edges
  | .setToTopologicalOrder => []
  | .shuffleGraph _ => []

/-- The run of a call. Kahn's algorithm takes a node of the graph in every round. -/
def perform (sort : StdSort (Edge Ptr)) : Call Ptr → EStateM Fault (Store Ptr) Unit
  | .insertEdges edges => DynamicDag.insertEdges sort edges
  | .appendAll edges => fun s => .ok () (DynamicDag.appendAll edges s)
  | .setToTopologicalOrder => fun s => DynamicDag.setToTopologicalOrder (s.dag.nodes.length + 1) s
  | .shuffleGraph shuffle => fun s => .ok () (DynamicDag.shuffleGraph shuffle s)

/-- The store that a call leaves behind, whether it returned or threw. -/
def after (sort : StdSort (Edge Ptr)) (s : Store Ptr) (call : Call Ptr) : Store Ptr :=
  endState (call.perform sort s)

/-- How a call ends. -/
def outcome (sort : StdSort (Edge Ptr)) (s : Store Ptr) (call : Call Ptr) : Except Fault Unit :=
  outcomeOf (call.perform sort s)

end Call

/-- A call that returned or threw an exception. The other faults stand for runs that the model does not
follow: an index outside its vector, after which the memory may be in any state, and a budget that was too
small. -/
def ended : Except Fault Unit → Bool
  | .ok _ => true
  | .error (.runtimeError _) => true
  | .error (.invalidArgument _) => true
  | .error _ => false

/-- How the calls of a sequence end. -/
def outcomes (sort : StdSort (Edge Ptr)) : List (Call Ptr) → Store Ptr → List (Except Fault Unit)
  | [], _ => []
  | call :: rest, s => call.outcome sort s :: outcomes sort rest (call.after sort s)

/-- Two graphs in one memory. -/
structure SharedMemory (Ptr : Type) where
  heap : Heap Ptr
  left : Graph Ptr
  right : Graph Ptr

namespace SharedMemory

def leftStore (m : SharedMemory Ptr) : Store Ptr := ⟨m.heap, m.left⟩

def rightStore (m : SharedMemory Ptr) : Store Ptr := ⟨m.heap, m.right⟩

/-- A call on one of the graphs. -/
def after (sort : StdSort (Edge Ptr)) (m : SharedMemory Ptr) : Call Ptr ⊕ Call Ptr → SharedMemory Ptr
  | .inl call =>
    { m with heap := (call.after sort m.leftStore).heap, left := (call.after sort m.leftStore).dag }
  | .inr call =>
    { m with heap := (call.after sort m.rightStore).heap, right := (call.after sort m.rightStore).dag }

/-- How a call on one of the graphs ends. -/
def outcome (sort : StdSort (Edge Ptr)) (m : SharedMemory Ptr) :
    Call Ptr ⊕ Call Ptr → Except Fault Unit ⊕ Except Fault Unit
  | .inl call => .inl (call.outcome sort m.leftStore)
  | .inr call => .inr (call.outcome sort m.rightStore)

/-- How the calls of an interleaving end. -/
def outcomes (sort : StdSort (Edge Ptr)) :
    List (Call Ptr ⊕ Call Ptr) → SharedMemory Ptr → List (Except Fault Unit ⊕ Except Fault Unit)
  | [], _ => []
  | call :: rest, m => m.outcome sort call :: outcomes sort rest (m.after sort call)

end SharedMemory

end DynamicDag
