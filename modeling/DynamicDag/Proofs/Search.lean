import DynamicDag.Abstract.Relocation
import DynamicDag.Model.InsertionAlgorithm

/-! # The searches compute frontiers

The Boolean vectors of the searches mark sets of nodes: `visited` the current path, `vacant` the path,
the finished nodes and those found by earlier searches. With this reading the loop of
`depth_first_search` follows the depth-first search of the library round by round, and `discover`
computes the frontier of its edges. Both are equations between runs, failures included, so that no
search uses an index outside its vector or stops for lack of rounds.
-/

namespace DynamicDag

open Relation Numbering

variable {Ptr : Type} [DecidableEq Ptr] {heap : Heap Ptr} {nodes : List Ptr}

/-- The exception of a search. -/
abbrev cycleDetected : Fault := .runtimeError "cycle detected"

theorem read_flag (numbered : Numbered heap.index nodes) (chosen : List Ptr) {v : Ptr}
    (member : v ∈ nodes) : read (flags nodes chosen) (heap v).index = .ok (decide (v ∈ chosen)) :=
  numbered.read_flags chosen member

theorem write_flag (numbered : Numbered heap.index nodes) (chosen other : List Ptr) {v : Ptr}
    (member : v ∈ nodes) {value : Bool} (here : decide (v ∈ other) = value)
    (elsewhere : ∀ w ∈ nodes, w ≠ v → (w ∈ chosen ↔ w ∈ other)) :
    write (flags nodes chosen) (heap v).index value = .ok (flags nodes other) :=
  numbered.write_flags member here elsewhere

/-- The variables of the search loop, read off the state of the abstract search. -/
def Search.ofState (nodes taken : List Ptr) (queue : EdgeQueue Ptr) (x : Ptr)
    (s : DepthFirst.State Ptr) : Search Ptr where
  stack := s.stack
  queue := s.finished.map (fun v => (v, x)) ++ queue
  vacant := flags nodes (s.stack ++ s.finished ++ taken)
  visited := flags nodes s.stack

/-- Nodes a search may take: not taken before and below the bound. -/
def untaken (heap : Heap Ptr) (taken : List Ptr) (upperBound : ℤ) (w : Ptr) : Bool :=
  !decide (w ∈ taken) && decide (heap.index w < upperBound)

/-- The scan of the adjacency list is the scan of the abstract search. -/
theorem unvisitedNeighbor_eq (numbered : Numbered heap.index nodes) (taken : List Ptr)
    (upperBound : ℤ) (s : DepthFirst.State Ptr) {neighbours : List Ptr}
    (inside : ∀ w ∈ neighbours, w ∈ nodes) :
    unvisitedNeighbor heap upperBound (flags nodes (s.stack ++ s.finished ++ taken))
        (flags nodes s.stack) neighbours =
      DepthFirst.scan cycleDetected (untaken heap taken upperBound) s neighbours := by
  induction neighbours with
  | nil => rfl
  | cons dest rest ih =>
    have member := inside dest List.mem_cons_self
    have later := ih (fun w inRest => inside w (List.mem_cons_of_mem _ inRest))
    simp only [unvisitedNeighbor, DepthFirst.scan, read_flag numbered _ member, bind, Except.bind,
      pure, Except.pure]
    by_cases onPath : dest ∈ s.stack
    · simp only [onPath, decide_true, ↓reduceIte]
    · have same : (!decide (dest ∈ s.stack ++ s.finished ++ taken) &&
          decide ((heap dest).index < upperBound)) =
          (untaken heap taken upperBound dest && !decide (dest ∈ s.finished)) := by
        change _ = (!decide (dest ∈ taken) && decide ((heap dest).index < upperBound) && _)
        by_cases finished : dest ∈ s.finished <;> by_cases old : dest ∈ taken <;>
          simp [onPath, finished, old]
      simp only [onPath, decide_false, Bool.false_eq_true, ↓reduceIte, same, later]

section Search

variable {start x : Ptr}

omit [DecidableEq Ptr] in
/-- The search stays inside the graph. -/
theorem inside_of_reach (closed : ∀ v ∈ nodes, ∀ w ∈ heap.succ v, w ∈ nodes) {available : Ptr → Bool}
    (root : start ∈ nodes) : ∀ v, DepthFirst.Reach heap.succ available start v → v ∈ nodes := by
  intro v reach
  induction reach with
  | refl => exact root
  | tail _ last ih => exact closed _ ih _ last.1

/-- One round of the loop is one step of the abstract search. -/
theorem searchRound_eq (numbered : Numbered heap.index nodes)
    (closed : ∀ v ∈ nodes, ∀ w ∈ heap.succ v, w ∈ nodes) (root : start ∈ nodes) (tail : x ∈ nodes)
    (taken : List Ptr) (queue : EdgeQueue Ptr) (s : DepthFirst.State Ptr)
    (inv : DepthFirst.Inv heap.succ (untaken heap taken (heap.index x)) start s) :
    searchRound heap (heap.index x) nodes (Search.ofState nodes taken queue x s) =
      (DepthFirst.step cycleDetected heap.succ (untaken heap taken (heap.index x)) s).map
        (Option.map (Search.ofState nodes taken queue x)) := by
  rcases s with ⟨_ | ⟨v, below⟩, finished⟩
  · rfl
  · have top : v ∈ nodes := inside_of_reach closed root v (inv.reached v (by simp))
    have scanned := unvisitedNeighbor_eq numbered taken (heap.index x) ⟨v :: below, finished⟩
      (closed v top)
    simp only [searchRound, Search.ofState, DepthFirst.step]
    rw [show (heap v).outgoingEdges = heap.succ v from rfl, scanned]
    cases outcome : DepthFirst.scan cycleDetected (untaken heap taken (heap.index x))
        ⟨v :: below, finished⟩ (heap.succ v) with
    | error e => rfl
    | ok found =>
      cases found with
      | some dest =>
        have member := closed v top dest (DepthFirst.scan_some outcome).1
        have vacant := write_flag numbered (v :: below ++ finished ++ taken)
          (dest :: v :: below ++ finished ++ taken) member (decide_eq_true (by simp))
          (fun w _ different => by simp [different])
        have visited := write_flag numbered (v :: below) (dest :: v :: below) member
          (decide_eq_true (by simp)) (fun w _ different => by simp [different])
        simp only [bind, Except.bind, vacant, visited]
        rfl
      | none =>
        have alone : v ∉ below := by
          have unique : (v :: (below ++ finished)).Nodup := inv.unique
          exact fun again => (List.nodup_cons.mp unique).1 (List.mem_append_left _ again)
        have visited := write_flag numbered (v :: below) below top (decide_eq_false alone)
          (fun w _ different => by simp [different])
        have bound : read nodes (heap.index x) = .ok x := numbered.read tail
        have same : flags nodes (v :: below ++ finished ++ taken) =
            flags nodes (below ++ v :: finished ++ taken) :=
          flags_congr fun w _ => by simp only [List.mem_append, List.mem_cons]; tauto
        simp only [bind, Except.bind, visited, bound, same]
        rfl

/-- `depth_first_search` is the abstract search, with its nodes marked and queued. -/
theorem depthFirstSearch_eq (numbered : Numbered heap.index nodes)
    (closed : ∀ v ∈ nodes, ∀ w ∈ heap.succ v, w ∈ nodes) (root : start ∈ nodes) (tail : x ∈ nodes)
    (taken : List Ptr) (queue : EdgeQueue Ptr) :
    depthFirstSearch start (heap.index x) queue heap nodes (flags nodes taken) =
      (DepthFirst.search cycleDetected .outOfFuel heap.succ (untaken heap taken (heap.index x))
        (2 * nodes.length) start).map
        fun found => (found.map (fun v => (v, x)) ++ queue, flags nodes (found ++ taken)) := by
  have vacant := write_flag numbered taken ([start] ++ [] ++ taken) root
    (decide_eq_true (by simp)) (fun w _ different => by simp [different])
  have visited : write (List.replicate nodes.length false) (heap start).index true =
      .ok (flags nodes [start]) := by
    rw [← flags_nil]
    exact write_flag numbered [] [start] root (decide_eq_true (by simp))
      (fun w _ different => by simp [different])
  have follows := BoundedLoop.run_refines Fault.outOfFuel (Search.ofState nodes taken queue x)
    (searchRound_eq numbered closed root tail taken queue)
    (fun s next inv moves => by
      have kept := DepthFirst.round cycleDetected (inside_of_reach closed root) s inv
      rw [moves] at kept
      exact kept.1)
    (2 * nodes.length) (DepthFirst.Inv.init _ _ start)
  simp only [depthFirstSearch, bind, Except.bind, vacant, visited, flags_length, DepthFirst.search]
  rw [show Search.mk [start] queue (flags nodes ([start] ++ [] ++ taken)) (flags nodes [start]) =
    Search.ofState nodes taken queue x ⟨[start], []⟩ from rfl, follows]
  cases outcome : BoundedLoop.run Fault.outOfFuel
      (DepthFirst.step cycleDetected heap.succ (untaken heap taken (heap.index x)))
      (2 * nodes.length) ⟨[start], []⟩ with
  | error e => rfl
  | ok s =>
    have empty := DepthFirst.stack_of_stop (BoundedLoop.stopped_of_run outcome)
    simp only [Except.map, Search.ofState, empty, List.nil_append]
    rfl

end Search

/-- The loop of `discover` collects frontier pairs. -/
theorem foldlM_discoverEdge (numbered : Numbered heap.index nodes)
    (closed : ∀ v ∈ nodes, ∀ w ∈ heap.succ v, w ∈ nodes) (found : List (Edge Ptr))
    {edges : List (Edge Ptr)} (inside : ∀ e ∈ edges, e.1 ∈ nodes ∧ e.2 ∈ nodes) :
    edges.foldlM (discoverEdge heap nodes) (found, flags nodes (found.map Prod.fst)) =
      (collect cycleDetected .outOfFuel heap.succ heap.index (2 * nodes.length) found edges).map
        fun found => (found, flags nodes (found.map Prod.fst)) := by
  induction edges generalizing found with
  | nil => rfl
  | cons e rest ih =>
    obtain ⟨tail, head⟩ := inside e List.mem_cons_self
    have later (next : List (Edge Ptr)) := ih next (fun f member => inside f (List.mem_cons_of_mem _ member))
    have step : discoverEdge heap nodes (found, flags nodes (found.map Prod.fst)) e =
        (collectStep cycleDetected .outOfFuel heap.succ heap.index (2 * nodes.length) found e).map
          fun found => (found, flags nodes (found.map Prod.fst)) := by
      simp only [discoverEdge, read_flag numbered _ head, bind, Except.bind, pure, Except.pure,
        decide_eq_true_eq, collectStep]
      by_cases old : e.2 ∈ found.map Prod.fst
      · rw [if_pos old, if_pos old]
        rfl
      · rw [if_neg old, if_neg old, show (heap e.1).index = heap.index e.1 from rfl,
          depthFirstSearch_eq numbered closed head tail,
          show untaken heap (found.map Prod.fst) (heap.index e.1) = free heap.index found e.1 from rfl]
        cases DepthFirst.search cycleDetected Fault.outOfFuel heap.succ (free heap.index found e.1)
            (2 * nodes.length) e.2 with
        | error err => rfl
        | ok new =>
          simp only [Except.map, fst_pairs]
    rw [List.foldlM_cons, step]
    simp only [collect]
    cases collectStep cycleDetected Fault.outOfFuel heap.succ heap.index (2 * nodes.length) found e with
    | error err => rfl
    | ok next => exact later next

/-- `discover` computes the frontier of its edges in the order of the sort, and marks it. -/
theorem discover_eq (numbered : Numbered heap.index nodes)
    (closed : ∀ v ∈ nodes, ∀ w ∈ heap.succ v, w ∈ nodes) (sort : StdSort (Edge Ptr))
    {edges sorted : List (Edge Ptr)} (arrangement : sort.sort (byTail heap) edges = sorted)
    (inside : ∀ e ∈ sorted, e.1 ∈ nodes ∧ e.2 ∈ nodes) :
    discover sort edges heap nodes (List.replicate nodes.length false) =
      (collect cycleDetected .outOfFuel heap.succ heap.index (2 * nodes.length) [] sorted).map
        fun found => (found, flags nodes (found.map Prod.fst)) := by
  rw [discover, arrangement, ← flags_nil]
  exact foldlM_discoverEdge numbered closed [] inside

/-- The hard-coded case of the tests of `discover`. -/
example : discover (.insertion _) [(8, 4), (4, 2), (6, 0)]
    ([(3, 5), (6, 8), (8, 4), (4, 2), (6, 0)].foldl Heap.addEdge fun v : ℕ => ⟨[], [], v⟩) (List.range 9)
    (List.replicate 9 false) = .ok ([(0, 6), (4, 8), (2, 8)], flags (List.range 9) [0, 2, 4]) := by
  decide +kernel

end DynamicDag
