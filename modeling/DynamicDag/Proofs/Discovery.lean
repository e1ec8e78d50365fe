import DynamicDag.Proofs.Regions

/-! # What a search finds

The results of `depth_first_search` and `discover` in terms of the vectors of the program: flags are
read through the indices of the nodes, and the queue is read from its top. One search takes exactly
what it can reach through nodes that are not vacant and below its bound, and fails exactly on a cycle
among these nodes. The searches of `discover` share the flags; together they still find everything
below the tail of some edge, in an order in which the nodes can be put back.
-/

namespace DynamicDag

open Relation Numbering

variable {Ptr : Type} {heap : Heap Ptr} {nodes : List Ptr} {vacant : List Bool} {start : Ptr}
  {upperBound : ℤ}

/-- Reached from `start` through nodes that are not vacant and below the bound. The start may lie
anywhere. -/
def Searched (heap : Heap Ptr) (vacant : List Bool) (upperBound : ℤ) (start : Ptr) : Ptr → Prop :=
  ReflTransGen (fun v w => w ∈ heap.succ v ∧ read vacant (heap w).index = .ok false ∧
    (heap w).index < upperBound) start

/-- A directed cycle among the nodes reached. -/
def SearchCloses (heap : Heap Ptr) (vacant : List Bool) (upperBound : ℤ) (start : Ptr) : Prop :=
  ∃ c, TransGen (fun v w => w ∈ heap.succ v ∧ Searched heap vacant upperBound start v ∧
    Searched heap vacant upperBound start w) c c

theorem Searched.mem (closed : ∀ v ∈ nodes, ∀ w ∈ heap.succ v, w ∈ nodes) (root : start ∈ nodes)
    {v : Ptr} (searched : Searched heap vacant upperBound start v) : v ∈ nodes := by
  induction searched with
  | refl => exact root
  | tail _ last ih => exact closed _ ih _ last.1

variable [DecidableEq Ptr]

/-- What one search delivers: its nodes from the top of the queue, and the flags it leaves. -/
structure SearchResult (heap : Heap Ptr) (nodes : List Ptr) (vacant : List Bool) (upperBound : ℤ)
    (start : Ptr) (found : List Ptr) (marked : List Bool) : Prop where
  nodup : found.Nodup
  mem_iff : ∀ v, v ∈ found ↔ Searched heap vacant upperBound start v
  length : marked.length = vacant.length
  marks : ∀ v, Searched heap vacant upperBound start v →
    read vacant (heap v).index = .ok false ∧ read marked (heap v).index = .ok true
  keeps : ∀ v ∈ nodes, ¬ Searched heap vacant upperBound start v →
    read marked (heap v).index = read vacant (heap v).index
  order : ∀ u v, Searched heap vacant upperBound start u → Searched heap vacant upperBound start v →
    v ∈ heap.succ u → found.idxOf u < found.idxOf v

theorem untaken_iff (numbered : Numbered heap.index nodes) (taken : List Ptr) {w : Ptr}
    (member : w ∈ nodes) : untaken heap taken upperBound w = true ↔
      read (flags nodes taken) (heap w).index = .ok false ∧ (heap w).index < upperBound := by
  rw [read_flag numbered taken member, untaken, Bool.and_eq_true, Except.ok.injEq,
    Bool.not_eq_true', decide_eq_true_iff]
  rfl

/-- What the program may search is what the abstract search may reach. -/
theorem searched_iff (numbered : Numbered heap.index nodes)
    (closed : ∀ v ∈ nodes, ∀ w ∈ heap.succ v, w ∈ nodes) (root : start ∈ nodes) (taken : List Ptr)
    (v : Ptr) : Searched heap (flags nodes taken) upperBound start v ↔
      DepthFirst.Reach heap.succ (untaken heap taken upperBound) start v := by
  constructor
  · intro searched
    induction searched with
    | refl => exact .refl
    | tail before last ih =>
      have member := closed _ (Searched.mem closed root before) _ last.1
      exact ReflTransGen.tail ih ⟨last.1, (untaken_iff numbered taken member).mpr last.2⟩
  · intro reach
    induction reach with
    | refl => exact .refl
    | tail before last ih =>
      have member := closed _ (Searched.mem closed root ih) _ last.1
      exact ReflTransGen.tail ih ⟨last.1, (untaken_iff numbered taken member).mp last.2⟩

/-- The result of the abstract search, read through the vectors. -/
theorem searchResult_of_result (numbered : Numbered heap.index nodes)
    (closed : ∀ v ∈ nodes, ∀ w ∈ heap.succ v, w ∈ nodes) (root : start ∈ nodes) {taken : List Ptr}
    (fresh : read (flags nodes taken) (heap start).index = .ok false) {found : List Ptr}
    (result : DepthFirst.Result heap.succ (untaken heap taken upperBound) start found) :
    SearchResult heap nodes (flags nodes taken) upperBound start found (flags nodes (found ++ taken)) where
  nodup := result.nodup
  mem_iff v := by rw [searched_iff numbered closed root, result.mem_iff]
  length := by simp
  marks v searched := by
    have member := searched.mem closed root
    have inFound := (result.mem_iff v).mpr ((searched_iff numbered closed root taken v).mp searched)
    refine ⟨?_, by rw [read_flag numbered _ member]; simp [inFound]⟩
    cases searched with
    | refl => exact fresh
    | tail _ last => exact last.2.1
  keeps v member unsearched := by
    have notFound : v ∉ found := by
      rw [result.mem_iff, ← searched_iff numbered closed root]
      exact unsearched
    rw [read_flag numbered _ member, read_flag numbered _ member]
    simp [notFound]
  order u v first second edge := by
    rw [searched_iff numbered closed root] at first second
    exact result.settled.idxOf_lt result.nodup ((result.mem_iff u).mpr first) edge second.not_blocked

/-- One search takes what it reaches, lists it in topological order, and fails exactly on a cycle. -/
theorem depthFirstSearch_exact (numbered : Numbered heap.index nodes)
    (closed : ∀ v ∈ nodes, ∀ w ∈ heap.succ v, w ∈ nodes) (length : vacant.length = nodes.length)
    (root : start ∈ nodes) (fresh : read vacant (heap start).index = .ok false)
    (nonneg : 0 ≤ upperBound) (bounded : upperBound < nodes.length) (queue : EdgeQueue Ptr) :
    (depthFirstSearch start upperBound queue heap nodes vacant = .error cycleDetected ↔
      SearchCloses heap vacant upperBound start) ∧
    (¬ SearchCloses heap vacant upperBound start → ∃ found : List Ptr, ∃ x : Ptr, ∃ marked : List Bool,
      depthFirstSearch start upperBound queue heap nodes vacant =
        .ok (found.map (fun v => (v, x)) ++ queue, marked) ∧
      read nodes upperBound = .ok x ∧
      SearchResult heap nodes vacant upperBound start found marked) := by
  obtain ⟨taken, rfl⟩ : ∃ taken, vacant = flags nodes taken :=
    ⟨_, (numbered.exists_flags vacant length).symm⟩
  obtain ⟨slot, rfl⟩ := Int.eq_ofNat_of_zero_le nonneg
  have inside : slot < nodes.length := by omega
  obtain ⟨x, atSlot⟩ : ∃ x, nodes[slot] = x := ⟨_, rfl⟩
  have tail : x ∈ nodes := atSlot ▸ List.getElem_mem inside
  have bound : (slot : ℤ) = heap.index x := by rw [← atSlot, numbered slot inside]
  rw [bound, depthFirstSearch_eq numbered closed root tail]
  have closes : SearchCloses heap (flags nodes taken) (heap.index x) start ↔
      ∃ c, TransGen (DepthFirst.Inner heap.succ (untaken heap taken (heap.index x)) start) c c := by
    simp only [SearchCloses, searched_iff numbered closed root]
    rfl
  rw [closes]
  obtain ⟨found, returned, result⟩ | ⟨failed, onCycle⟩ :=
    DepthFirst.search_cases cycleDetected Fault.outOfFuel
      (inside_of_reach closed root) le_rfl
  · have noCycle : ¬ ∃ c, TransGen
        (DepthFirst.Inner heap.succ (untaken heap taken (heap.index x)) start) c c :=
      not_exists.mpr result.acyclic
    rw [returned]
    exact ⟨iff_of_false (by simp [Except.map]) noCycle, fun _ => ⟨found, x, _, rfl, numbered.read tail,
      searchResult_of_result numbered closed root fresh result⟩⟩
  · rw [failed]
    exact ⟨iff_of_true rfl onCycle, fun noCycle => absurd onCycle noCycle⟩

/-- From the start of a path of three nodes, bounded by its end. -/
theorem depthFirstSearch_exact_path :
    let path := [(0, 1), (1, 2)].foldl Heap.addEdge fun v : ℕ => ⟨[], [], v⟩
    ∃ found : List ℕ, ∃ x marked,
      depthFirstSearch 0 2 [] path [0, 1, 2] [false, false, false] =
        .ok (found.map (fun v => (v, x)) ++ [], marked) ∧
      read [0, 1, 2] 2 = .ok x ∧
      SearchResult path [0, 1, 2] [false, false, false] 2 0 found marked := by
  intro path
  have numbered : Numbered path.index [0, 1, 2] := by unfold Numbered; decide
  have outcome := depthFirstSearch_exact numbered (by decide)
    (show [false, false, false].length = 3 from rfl) (show 0 ∈ [0, 1, 2] by decide) (by decide)
    (show (0 : ℤ) ≤ 2 by decide) (by decide) []
  exact outcome.2 fun closes => absurd (outcome.1.mpr closes) (by decide)

/-- The edge asks that `v` be moved: `v` is reached from its head by a path below its tail. -/
def Requires (heap : Heap Ptr) (e : Edge Ptr) (v : Ptr) : Prop :=
  heap.index e.2 < heap.index e.1 ∧ ReachBelow heap.succ heap.index e.1 e.2 v

omit [DecidableEq Ptr] in
theorem Requires.mem (closed : ∀ v ∈ nodes, ∀ w ∈ heap.succ v, w ∈ nodes) {e : Edge Ptr} {v : Ptr}
    (head : e.2 ∈ nodes) (asks : Requires heap e v) : v ∈ nodes := by
  obtain ⟨_, reach⟩ := asks
  induction reach with
  | refl => exact head
  | tail _ last ih => exact closed _ ih _ last.1

omit [DecidableEq Ptr] in
theorem Requires.index_lt {e : Edge Ptr} {v : Ptr} (asks : Requires heap e v) :
    heap.index v < heap.index e.1 := by
  obtain ⟨below, reach⟩ := asks
  cases reach with
  | refl => exact below
  | tail _ last => exact last.2

/-- What `discover` delivers: the queue from its top, and the flags it leaves. -/
structure Discovery (heap : Heap Ptr) (nodes : List Ptr) (edges : List (Edge Ptr))
    (queue : EdgeQueue Ptr) (vacant : List Bool) : Prop where
  length : vacant.length = nodes.length
  vacant_iff : ∀ v ∈ nodes, read vacant (heap v).index = .ok true ↔ ∃ e ∈ edges, Requires heap e v
  nodup : (queue.map Prod.fst).Nodup
  queued_iff : ∀ v, v ∈ queue.map Prod.fst ↔ ∃ e ∈ edges, Requires heap e v
  tail : ∀ m ∈ queue, ∃ e ∈ edges, e.1 = m.2 ∧ Requires heap e m.1
  highest : ∀ m ∈ queue, ∀ e ∈ edges, Requires heap e m.1 → heap.index e.1 ≤ heap.index m.2
  stays : ∀ m ∈ queue, read vacant (heap m.2).index = .ok false
  ordered : queue.Pairwise fun m n => heap.index m.2 ≤ heap.index n.2
  order : ∀ u v, u ∈ queue.map Prod.fst → v ∈ queue.map Prod.fst → v ∈ heap.succ u →
    (queue.map Prod.fst).idxOf u < (queue.map Prod.fst).idxOf v

/-- The pairs of a frontier, read through the vectors. -/
theorem discovery_of_frontier (numbered : Numbered heap.index nodes)
    (closed : ∀ v ∈ nodes, ∀ w ∈ heap.succ v, w ∈ nodes) {edges sorted : List (Edge Ptr)}
    (perm : sorted.Perm edges) (listed : Listed heap.succ heap.index nodes sorted)
    {found : EdgeQueue Ptr} (frontier : Frontier heap.succ heap.index sorted found) :
    Discovery heap nodes edges found (flags nodes (found.map Prod.fst)) := by
  have required (x v : Ptr) : Displaces heap.succ heap.index sorted x v ↔
      ∃ e ∈ edges, e.1 = x ∧ Requires heap e v := by
    constructor
    · rintro ⟨y, member, reach⟩
      have below := frontier.head_lt_tail numbered listed member
      exact ⟨(x, y), perm.mem_iff.mp member, rfl, below, reach⟩
    · rintro ⟨⟨_, y⟩, member, rfl, _, reach⟩
      exact ⟨y, perm.mem_iff.mpr member, reach⟩
  have queued (v : Ptr) : v ∈ found.map Prod.fst ↔ ∃ e ∈ edges, Requires heap e v := by
    rw [frontier.moved_iff]
    simp only [required]
    exact ⟨fun ⟨_, e, member, _, asks⟩ => ⟨e, member, asks⟩,
      fun ⟨e, member, asks⟩ => ⟨e.1, e, member, rfl, asks⟩⟩
  have movable := frontier.movable listed closed
  refine ⟨flags_length _ _, ?vacant_iff, frontier.nodup, queued, ?tail, ?highest, ?stays, frontier.ordered,
    ?order⟩
  case vacant_iff =>
    intro v member
    rw [read_flag numbered _ member, Except.ok.injEq, decide_eq_true_iff, queued]
  case tail => exact fun m member => (required m.2 m.1).mp (frontier.source m member)
  case highest =>
    intro m member e other asks
    exact ((frontier.pair_iff numbered listed).mp member).2 e.1 ((required _ _).mpr ⟨e, other, rfl, asks⟩)
  case stays =>
    intro m member
    rw [read_flag numbered _ (movable.target m member), decide_eq_false (frontier.fixed m member)]
  case order =>
    intro u v first second edge
    obtain ⟨m, left, rfl⟩ := List.mem_map.mp first
    obtain ⟨n, right, rfl⟩ := List.mem_map.mp second
    exact frontier.idxOf_lt_of_succ left right edge

omit [DecidableEq Ptr] in
theorem listed_sort (closed : ∀ v ∈ nodes, ∀ w ∈ heap.succ v, w ∈ nodes) {edges : List (Edge Ptr)}
    (present : ∀ e ∈ edges, e.1 ∈ nodes ∧ e.2 ∈ heap.succ e.1 ∧ heap.index e.2 ≤ heap.index e.1)
    (sort : StdSort (Edge Ptr)) : Listed heap.succ heap.index nodes (sort.sort (byTail heap) edges) := by
  have order := byTail_strictWeakOrder heap
  have perm := sort.perm (byTail heap) edges order
  refine ⟨fun e member => ?_, fun e member => (present e (perm.mem_iff.mp member)).2.1,
    fun e member => (present e (perm.mem_iff.mp member)).2.2,
    (sort.arranged _ _ order).imp fun before => byTail_eq_false.mp before⟩
  have facts := present e (perm.mem_iff.mp member)
  exact ⟨facts.1, closed _ facts.1 _ facts.2.1⟩

/-- When `discover` returns, it has found exactly the nodes some edge asks to move, each with the
highest tail that does, in an order in which they can be put back. -/
theorem discover_exact (numbered : Numbered heap.index nodes)
    (closed : ∀ v ∈ nodes, ∀ w ∈ heap.succ v, w ∈ nodes) {edges : List (Edge Ptr)}
    (present : ∀ e ∈ edges, e.1 ∈ nodes ∧ e.2 ∈ heap.succ e.1 ∧ heap.index e.2 ≤ heap.index e.1)
    (sort : StdSort (Edge Ptr)) {queue : EdgeQueue Ptr} {vacant : List Bool}
    (returned : discover sort edges heap nodes (List.replicate nodes.length false) = .ok (queue, vacant)) :
    Discovery heap nodes edges queue vacant := by
  have perm := sort.perm (byTail heap) edges (byTail_strictWeakOrder heap)
  have listed := listed_sort closed present sort
  rw [discover_eq numbered closed sort rfl listed.members] at returned
  obtain ⟨found, collected, frontier⟩ | ⟨failed, _⟩ := Frontier.collect_cases numbered closed
    le_rfl cycleDetected Fault.outOfFuel _ (Frontier.nil heap.succ heap.index) listed
  · rw [collected] at returned
    obtain ⟨rfl, rfl⟩ : found = queue ∧ flags nodes (found.map Prod.fst) = vacant := by
      simpa [Except.map] using returned
    exact discovery_of_frontier numbered closed perm listed frontier
  · rw [failed] at returned
    simp [Except.map] at returned

/-- An edge from behind a path to its first node. -/
theorem discover_exact_back :
    let path := [(0, 1), (1, 2), (3, 0)].foldl Heap.addEdge fun v : ℕ => ⟨[], [], v⟩
    ∃ queue vacant, Discovery path [0, 1, 2, 3] [(3, 0)] queue vacant := by
  intro path
  have numbered : Numbered path.index [0, 1, 2, 3] := by unfold Numbered; decide
  exact ⟨[(0, 3), (1, 3), (2, 3)], [true, true, true, false],
    discover_exact numbered (by decide) (by decide) (.insertion _) (by decide +kernel)⟩

/-- The searches of one call skip what earlier ones took and yet miss no cycle within their bounds: the call
throws exactly if the nodes reached from some head below its tail contain one, and returns otherwise. -/
theorem discover_throws_iff (numbered : Numbered heap.index nodes)
    (closed : ∀ v ∈ nodes, ∀ w ∈ heap.succ v, w ∈ nodes) {edges : List (Edge Ptr)}
    (present : ∀ e ∈ edges, e.1 ∈ nodes ∧ e.2 ∈ heap.succ e.1 ∧ heap.index e.2 ≤ heap.index e.1)
    (sort : StdSort (Edge Ptr)) :
    (discover sort edges heap nodes (List.replicate nodes.length false) = .error cycleDetected ↔
      ∃ e ∈ edges, ClosesBelow heap.succ heap.index e.1 e.2) ∧
    ((∃ found, discover sort edges heap nodes (List.replicate nodes.length false) = .ok found) ↔
      ¬ ∃ e ∈ edges, ClosesBelow heap.succ heap.index e.1 e.2) := by
  have perm := sort.perm (byTail heap) edges (byTail_strictWeakOrder heap)
  have listed := listed_sort closed present sort
  rw [discover_eq numbered closed sort rfl listed.members]
  obtain ⟨found, collected, frontier⟩ | ⟨failed, e, member, closes⟩ := Frontier.collect_cases numbered closed
    le_rfl cycleDetected Fault.outOfFuel _ (Frontier.nil heap.succ heap.index) listed
  · have none : ¬ ∃ e ∈ edges, ClosesBelow heap.succ heap.index e.1 e.2 := by
      rintro ⟨e, member, closes⟩
      exact frontier.not_closes numbered listed (perm.mem_iff.mpr member) closes
    simp [collected, Except.map, none]
  · have some : ∃ e ∈ edges, ClosesBelow heap.succ heap.index e.1 e.2 := ⟨e, perm.mem_iff.mp member, closes⟩
    simp [failed, Except.map, some]

/-- A cycle of two nodes behind the head. -/
theorem discover_throws_iff_pair :
    let pair := [(0, 1), (1, 0), (2, 0)].foldl Heap.addEdge fun v : ℕ => ⟨[], [], v⟩
    discover (.insertion _) [(2, 0)] pair [0, 1, 2] [false, false, false] = .error cycleDetected := by
  intro pair
  have numbered : Numbered pair.index [0, 1, 2] := by unfold Numbered; decide
  exact (discover_throws_iff numbered (by decide) (by decide) (.insertion _)).1.mpr
    ⟨(2, 0), by decide, 0, .head (b := 1) ⟨by decide, .refl, .single ⟨by decide, by decide⟩⟩
      (.single ⟨by decide, .single ⟨by decide, by decide⟩, .refl⟩)⟩

end DynamicDag
