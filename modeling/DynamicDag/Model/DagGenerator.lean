import DynamicDag.Model.Graphs
import DynamicDag.General.RejectionSampling
import Mathlib.Logic.Embedding.Basic
import Mathlib.Data.Finset.Insert

/-! # Random graphs and random additional edges

The random engine is a finite list of draws of `node_distribution(rng)`; each function consumes a
prefix of it. Successive `new node` return the addresses of an injective sequence. Edges drawn twice,
self-loops and, for the additional edges, edges of the graph are drawn again.
-/

namespace DynamicDag

variable {Ptr : Type} [DecidableEq Ptr]

/-- The index pair made from two draws in `generate_graph`. -/
def edgeIndices (shouldBeDag : Bool) (a b : ℤ) : ℤ × ℤ :=
  if shouldBeDag then (min a b, max a b) else (a, b)

/-- The generation loop of `generate_graph`, for `rounds` more edges. -/
def generateEdges (shouldBeDag : Bool) (nodes : List Ptr) :
    ℕ → Finset (ℤ × ℤ) → Heap Ptr → List ℤ → Except Fault (Heap Ptr × List ℤ)
  | 0, _, heap, draws => .ok (heap, draws)
  | rounds + 1, generatedEdges, heap, draws => do
    let (edge, draws) ← RejectionSampling.draw .outOfDraws (fun a b => .ok (edgeIndices shouldBeDag a b))
      (fun edge => decide (edge.1 = edge.2) || decide (edge ∈ generatedEdges)) draws
    let fromNode ← read nodes edge.1
    let toNode ← read nodes edge.2
    generateEdges shouldBeDag nodes rounds (insert edge generatedEdges)
      (heap.addEdge (fromNode, toNode)) draws

/-- `new node` for `i = 0, 1, ...`, with `index_ = i`. -/
def newNodes (alloc : ℕ ↪ Ptr) (heap : Heap Ptr) : ℕ → Heap Ptr
  | 0 => heap
  | i + 1 => Function.update (newNodes alloc heap i) (alloc i) ⟨[], [], i⟩

/-- A random graph with the given numbers of nodes and edges, returned with the unused draws. -/
def generateGraph (alloc : ℕ ↪ Ptr) (heap : Heap Ptr) (draws : List ℤ)
    (numberOfNodes numberOfEdges : ℤ) (shouldBeDag : Bool) : Except Fault (Store Ptr × List ℤ) :=
  if numberOfNodes < 2 then
    .error (.invalidArgument "the number of nodes needs to be at least 2")
  else if numberOfEdges < 0 then
    .error (.invalidArgument "number of needs to be at least 0")
  else if (shouldBeDag ∧ numberOfEdges > numberOfNodes / 2 * (numberOfNodes - 1)) ∨
      (¬ shouldBeDag ∧ numberOfEdges > numberOfNodes * (numberOfNodes - 1)) then
    .error (.invalidArgument "too many edges")
  else do
    let nodes := (List.range numberOfNodes.toNat).map alloc
    let (heap, draws) ← generateEdges shouldBeDag nodes numberOfEdges.toNat ∅
      (newNodes alloc heap numberOfNodes.toNat) draws
    return ({ heap, dag := { nodes, numberOfEdges } }, draws)

/-- The index pairs of the edges of the graph. -/
def existingEdges (s : Store Ptr) : Finset (ℤ × ℤ) :=
  (s.dag.nodes.flatMap fun n =>
    (s.heap n).outgoingEdges.map fun m => ((s.heap n).index, (s.heap m).index)).toFinset

/-- The node pair made from two draws in `generate_extra_edges`. -/
def extraEdge (dag : Graph Ptr) (a b : ℤ) : Except Fault (Edge Ptr) := do
  let fromNode ← read dag.nodes (min a b)
  let toNode ← read dag.nodes (max a b)
  return (fromNode, toNode)

/-- The generation loop of `generate_extra_edges`, for `rounds` more edges. -/
def generateExtra (s : Store Ptr) :
    ℕ → Finset (ℤ × ℤ) → List (Edge Ptr) → List ℤ → Except Fault (List (Edge Ptr) × List ℤ)
  | 0, _, generatedEdges, draws => .ok (generatedEdges, draws)
  | rounds + 1, existing, generatedEdges, draws => do
    let (e, draws) ← RejectionSampling.draw .outOfDraws (extraEdge s.dag)
      (fun e => decide (e.1 = e.2) || decide (((s.heap e.1).index, (s.heap e.2).index) ∈ existing)) draws
    generateExtra s rounds (insert ((s.heap e.1).index, (s.heap e.2).index) existing)
      (generatedEdges ++ [e]) draws

/-- New edges that respect the current order, returned with the unused draws. -/
def generateExtraEdges (s : Store Ptr) (draws : List ℤ) (numberOfEdges : ℤ) :
    Except Fault (List (Edge Ptr) × List ℤ) :=
  generateExtra s numberOfEdges.toNat (existingEdges s) [] draws

/-- `std::shuffle` for some state of the engine: a rearrangement. -/
structure StdShuffle (Ptr : Type) where
  shuffle : List Ptr → List Ptr
  perm : ∀ nodes, (shuffle nodes).Perm nodes

/-- Shuffle the nodes; their indices keep the old order. -/
def shuffleGraph (shuffle : StdShuffle Ptr) (s : Store Ptr) : Store Ptr :=
  { s with dag := { s.dag with nodes := shuffle.shuffle s.dag.nodes } }

end DynamicDag
