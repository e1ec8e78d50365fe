import DynamicDag.Model.DagGenerator
import DynamicDag.Model.DagUtil
import DynamicDag.Model.InsertionAlgorithm

/-! # The evaluation runs

A test set is a random dag in some topological order together with new edges that keep it a dag. The
dag has been shuffled and sorted again after the edges were drawn, so that part of them invalidate
the order they meet. The two runs insert them with PK2, or append them and sort from scratch.

The evaluation repeats a run with successive seeds, for every row of parameters, first with PK2 and then
with Kahn's algorithm. Durations are left out; the graph that a run leaves takes their place. The nodes
of a run are never freed, so that later runs allocate at other addresses of one memory.
-/

namespace DynamicDag

variable {Ptr : Type} [DecidableEq Ptr]

/-- `generate_test_set`. -/
def generateTestSet (alloc : ℕ ↪ Ptr) (heap : Heap Ptr) (draws : List ℤ) (shuffle : StdShuffle Ptr)
    (fuel : ℕ) (numOfNodes numOfEdges numOfNewEdges : ℤ) :
    Except Fault (Store Ptr × List (Edge Ptr)) := do
  let (dag, draws) ← generateGraph alloc heap draws numOfNodes numOfEdges true
  let (newEdges, _) ← generateExtraEdges dag draws numOfNewEdges
  match setToTopologicalOrder fuel (shuffleGraph shuffle dag) with
  | .error e _ => .error e
  | .ok _ dag => return (dag, newEdges)

/-- `run_test_pk2`. -/
def runTestPk2 (sort : StdSort (Edge Ptr)) (testSet : Store Ptr × List (Edge Ptr)) :
    Except Fault (Store Ptr) :=
  match insertEdges sort testSet.2 testSet.1 with
  | .error e _ => .error e
  | .ok _ dag => .ok dag

/-- The append phase of `run_test_kahn`. -/
def appendAll (edges : List (Edge Ptr)) (s : Store Ptr) : Store Ptr where
  heap := edges.foldl Heap.addEdge s.heap
  dag := { s.dag with numberOfEdges := s.dag.numberOfEdges + edges.length }

/-- `run_test_kahn`. -/
def runTestKahn (fuel : ℕ) (testSet : Store Ptr × List (Edge Ptr)) : Except Fault (Store Ptr) :=
  match setToTopologicalOrder fuel (appendAll testSet.2 testSet.1) with
  | .error e _ => .error e
  | .ok _ dag => .ok dag

/-- What a seed makes of the random engine in one run: the draws of the generators, and the shuffle that
follows them. -/
structure Seeded (Ptr : Type) where
  draws : List ℤ
  shuffle : StdShuffle Ptr

/-- The parameters of a row, with the number of edges that `density_` comes to. -/
structure TestSetParams where
  numberOfNodes : ℤ
  numberOfEdges : ℤ
  batchSize : ℤ
  numOfRuns : ℕ
deriving DecidableEq, Repr

/-- The memory between two runs, the number of allocations so far, and the graphs of the finished runs. -/
structure Bench (Ptr : Type) where
  heap : Heap Ptr
  used : ℕ
  dags : List (Graph Ptr)

/-- The addresses of the allocations after the first `used`. -/
def allocFrom (alloc : ℕ ↪ Ptr) (used : ℕ) : ℕ ↪ Ptr :=
  ⟨fun i => alloc (used + i), fun i j same => by have := alloc.injective same; omega⟩

/-- `generate_test_set` and the run on it. Kahn's algorithm takes a node in every round. -/
def generateAndRun (sort : StdSort (Edge Ptr)) (alloc : ℕ ↪ Ptr) (heap : Heap Ptr) (seeded : Seeded Ptr)
    (params : TestSetParams) (pk2 : Bool) : Except Fault (Store Ptr) := do
  let testSet ← generateTestSet alloc heap seeded.draws seeded.shuffle (params.numberOfNodes.toNat + 1)
    params.numberOfNodes params.numberOfEdges params.batchSize
  if pk2 then runTestPk2 sort testSet else runTestKahn (params.numberOfNodes.toNat + 1) testSet

/-- One round of the loop in `run_test_repeated`. -/
def runTest (sort : StdSort (Edge Ptr)) (alloc : ℕ ↪ Ptr) (seeded : Seeded Ptr) (params : TestSetParams)
    (pk2 : Bool) (b : Bench Ptr) : Except Fault (Bench Ptr) := do
  let s ← generateAndRun sort (allocFrom alloc b.used) b.heap seeded params pk2
  return { heap := s.heap, used := b.used + params.numberOfNodes.toNat, dags := b.dags ++ [s.dag] }

/-- The loop of `run_test_repeated`, for `runs` more runs. -/
def runTestRepeated (sort : StdSort (Edge Ptr)) (alloc : ℕ ↪ Ptr) (engine : ℤ → Seeded Ptr)
    (params : TestSetParams) (pk2 : Bool) :
    (runs : ℕ) → (startSeed : ℤ) → Bench Ptr → Except Fault (Bench Ptr)
  | 0, _, b => .ok b
  | runs + 1, startSeed, b => do
    let b ← runTest sort alloc (engine startSeed) params pk2 b
    runTestRepeated sort alloc engine params pk2 runs (startSeed + 1) b

/-- `run_full_tests`. The engine depends on the row, whose number of nodes bounds the draws. -/
def runFullTests (sort : StdSort (Edge Ptr)) (alloc : ℕ ↪ Ptr) (engine : TestSetParams → ℤ → Seeded Ptr)
    (testParams : List TestSetParams) (seed : ℤ) (pk2 : Bool) (b : Bench Ptr) : Except Fault (Bench Ptr) :=
  testParams.foldlM (fun b params =>
    runTestRepeated sort alloc (engine params) params pk2 params.numOfRuns seed b) b

/-- The evaluation: all rows with PK2, then all rows with Kahn's algorithm, on the same seeds. -/
def evaluationTests (sort : StdSort (Edge Ptr)) (alloc : ℕ ↪ Ptr) (engine : TestSetParams → ℤ → Seeded Ptr)
    (testParams : List TestSetParams) (seed : ℤ) (b : Bench Ptr) : Except Fault (Bench Ptr) := do
  let b ← runFullTests sort alloc engine testParams seed true b
  runFullTests sort alloc engine testParams seed false b

end DynamicDag
