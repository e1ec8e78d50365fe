import DynamicDag.General.CheckedAccess
import DynamicDag.General.Acyclic
import Mathlib.Logic.Function.Basic
import Mathlib.Algebra.BigOperators.Group.List.Basic
import Mathlib.Algebra.GroupWithZero.Nat

/-! # Nodes, graphs and the memory they live in

Nodes are objects in memory: a graph and the adjacency lists of its nodes hold pointers. The memory
maps every pointer to a node, so that all functions of a run work on shared nodes. `long` and
`long long` values are integers: the product in the argument check of the generator is taken to fit in
64 bits, and every other value does on a graph that fits in memory. Vectors are lists indexed through
bounds-checked access.
-/

namespace DynamicDag

/-- How a call can end other than by returning: the two exceptions, an index outside its vector,
and a bound on the rounds of a loop or on the random draws that was too small. -/
inductive Fault where
  | runtimeError (what : String)
  | invalidArgument (what : String)
  | outOfBounds
  | outOfFuel
  | outOfDraws
deriving DecidableEq, Repr

/-- `xs[slot]`. -/
def read {α : Type} (xs : List α) (slot : ℤ) : Except Fault α :=
  CheckedAccess.readAt .outOfBounds xs slot

/-- `xs[slot] = a`. -/
def write {α : Type} (xs : List α) (slot : ℤ) (a : α) : Except Fault (List α) :=
  CheckedAccess.writeAt .outOfBounds xs slot a

structure Node (Ptr : Type) where
  outgoingEdges : List Ptr
  incomingEdges : List Ptr
  /-- Current index in the vector of nodes of the graph. -/
  index : ℤ
deriving DecidableEq, Repr

structure Graph (Ptr : Type) where
  nodes : List Ptr
  numberOfEdges : ℤ
deriving DecidableEq, Repr

/-- Tail and head. -/
abbrev Edge (Ptr : Type) := Ptr × Ptr

/-- The memory that holds the nodes. -/
abbrev Heap (Ptr : Type) := Ptr → Node Ptr

namespace Heap

variable {Ptr : Type}

/-- `v->index_`, as a numbering of the nodes. -/
def index (heap : Heap Ptr) (v : Ptr) : ℤ := (heap v).index

/-- `v->outgoing_edges_`. -/
def succ (heap : Heap Ptr) (v : Ptr) : List Ptr := (heap v).outgoingEdges

/-- The same adjacency lists under another numbering. -/
def withIndex (heap : Heap Ptr) (index : Ptr → ℤ) : Heap Ptr :=
  fun v => { heap v with index := index v }

@[simp] theorem index_withIndex (heap : Heap Ptr) (index : Ptr → ℤ) :
    (heap.withIndex index).index = index := rfl

@[simp] theorem succ_withIndex (heap : Heap Ptr) (index : Ptr → ℤ) :
    (heap.withIndex index).succ = heap.succ := rfl

@[simp] theorem withIndex_withIndex (heap : Heap Ptr) (first second : Ptr → ℤ) :
    (heap.withIndex first).withIndex second = heap.withIndex second := rfl

@[simp] theorem withIndex_self (heap : Heap Ptr) : heap.withIndex heap.index = heap := rfl

variable [DecidableEq Ptr]

/-- `v->index_ = i`. -/
def setIndex (heap : Heap Ptr) (v : Ptr) (i : ℤ) : Heap Ptr :=
  Function.update heap v { heap v with index := i }

theorem setIndex_withIndex (heap : Heap Ptr) (index : Ptr → ℤ) (v : Ptr) (i : ℤ) :
    (heap.withIndex index).setIndex v i = heap.withIndex (Function.update index v i) := by
  funext w
  obtain rfl | other := eq_or_ne w v
  · simp [setIndex, withIndex]
  · simp [setIndex, withIndex, other]

/-- `x->outgoing_edges_.push_back(y); y->incoming_edges_.push_back(x)`. -/
def addEdge (heap : Heap Ptr) (e : Edge Ptr) : Heap Ptr :=
  let pushed := Function.update heap e.1
    { heap e.1 with outgoingEdges := (heap e.1).outgoingEdges ++ [e.2] }
  Function.update pushed e.2
    { pushed e.2 with incomingEdges := (pushed e.2).incomingEdges ++ [e.1] }

end Heap

/-- A graph in its memory. -/
structure Store (Ptr : Type) where
  heap : Heap Ptr
  dag : Graph Ptr

namespace Store

variable {Ptr : Type}

/-- An edge of the graph. -/
def Adj (s : Store Ptr) (u v : Ptr) : Prop := u ∈ s.dag.nodes ∧ v ∈ (s.heap u).outgoingEdges

/-- An edge of the graph or of a batch. -/
def AdjWith (s : Store Ptr) (edges : List (Edge Ptr)) (u v : Ptr) : Prop :=
  s.Adj u v ∨ (u, v) ∈ edges

/-- Both ends of every edge of a batch are nodes of the graph. -/
def Spans (s : Store Ptr) (edges : List (Edge Ptr)) : Prop :=
  ∀ e ∈ edges, e.1 ∈ s.dag.nodes ∧ e.2 ∈ s.dag.nodes

instance [DecidableEq Ptr] (s : Store Ptr) (edges : List (Edge Ptr)) : Decidable (s.Spans edges) :=
  inferInstanceAs (Decidable (∀ e ∈ edges, e.1 ∈ s.dag.nodes ∧ e.2 ∈ s.dag.nodes))

/-- `nodes_[i]->index_ == i` for all `i`. -/
def Indexed (s : Store Ptr) : Prop :=
  ∀ i (bound : i < s.dag.nodes.length), (s.heap s.dag.nodes[i]).index = i

/-- Distinct nodes, edges inside the graph, and adjacency lists that mirror each other with
multiplicity. -/
structure Wired [DecidableEq Ptr] (s : Store Ptr) : Prop where
  nodup : s.dag.nodes.Nodup
  outgoing : ∀ u ∈ s.dag.nodes, ∀ v ∈ (s.heap u).outgoingEdges, v ∈ s.dag.nodes
  incoming : ∀ v ∈ s.dag.nodes, ∀ u ∈ (s.heap v).incomingEdges, u ∈ s.dag.nodes
  mirrored : ∀ u ∈ s.dag.nodes, ∀ v ∈ s.dag.nodes,
    (s.heap u).outgoingEdges.count v = (s.heap v).incomingEdges.count u

/-- `number_of_edges_` is the number of edges. -/
def Counted (s : Store Ptr) : Prop :=
  s.dag.numberOfEdges = ((s.dag.nodes.map fun u => (s.heap u).outgoingEdges.length).sum : ℕ)

end Store

end DynamicDag
