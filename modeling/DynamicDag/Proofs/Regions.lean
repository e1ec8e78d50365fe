import DynamicDag.General.Procedures
import DynamicDag.Proofs.Adjacency
import DynamicDag.Proofs.Search
import DynamicDag.Proofs.Shift

/-! # Region by region is one search

The regions of a batch are treated from the highest to the lowest, each after the moves of those
above it have been made. All of this is compared with the store before any move: a region below
`level` finds there the numbering it would have found without the earlier moves, and its own moves
stay below `level`. Hence the regions together search as one run over the concatenated edges
would, and the store they leave is the first one with all pairs of that run moved at once.
-/

namespace DynamicDag

open Relation Numbering Procedures Reinsertion

variable {Ptr : Type} [DecidableEq Ptr]

namespace Store

/-- The store after the moves. -/
def moved (s : Store Ptr) (moves : EdgeQueue Ptr) : Store Ptr :=
  s.arranged (reinsert moves s.dag.nodes)

/-- The searches from a list of edges in one store, after others that found `found`. -/
def search (s : Store Ptr) (found edges : List (Edge Ptr)) : Except Fault (List (Edge Ptr)) :=
  collect cycleDetected .outOfFuel s.heap.succ s.heap.index (2 * s.dag.nodes.length) found edges

/-- Nodes that know their slots, and edges between them. -/
structure Placed (s : Store Ptr) : Prop where
  numbered : Numbered s.heap.index s.dag.nodes
  closed : ∀ v ∈ s.dag.nodes, ∀ w ∈ s.heap.succ v, w ∈ s.dag.nodes

/-- Edges in the order of the searches. -/
abbrev Lists (s : Store Ptr) (edges : List (Edge Ptr)) : Prop :=
  Listed s.heap.succ s.heap.index s.dag.nodes edges

/-- The frontier pairs of a list of edges. -/
abbrev Pairs (s : Store Ptr) (edges moves : List (Edge Ptr)) : Prop :=
  Frontier s.heap.succ s.heap.index edges moves

end Store

section Arrangement

variable {heap : Heap Ptr}

omit [DecidableEq Ptr] in
theorem byTail_strictWeakOrder (heap : Heap Ptr) : StrictWeakOrder (byTail heap) where
  asymm a b less := by simp only [byTail, decide_eq_true_eq, decide_eq_false_iff_not] at *; omega
  cotrans a b c less := by simp only [byTail, decide_eq_true_eq] at *; omega

omit [DecidableEq Ptr] in
theorem byTail_eq_false {e f : Edge Ptr} :
    byTail heap f e = false ↔ heap.index f.1 ≤ heap.index e.1 := by
  simp only [byTail, decide_eq_false_iff_not, gt_iff_lt, not_lt]
  rfl

variable {succ : Ptr → List Ptr} {index : Ptr → ℤ} {nodes : List Ptr}
  {first region arranged later : List (Edge Ptr)}

omit [DecidableEq Ptr] in
/-- One region may be arranged anew by descending tails. -/
theorem Listed.rearrange (listed : Listed succ index nodes (first ++ (region ++ later)))
    (perm : arranged.Perm region)
    (descending : arranged.Pairwise (fun e f => index f.1 ≤ index e.1)) :
    Listed succ index nodes (first ++ (arranged ++ later)) := by
  have same : (first ++ (arranged ++ later)).Perm (first ++ (region ++ later)) :=
    (perm.append_right later).append_left first
  refine ⟨fun e member => listed.members e (same.mem_iff.mp member),
    fun e member => listed.present e (same.mem_iff.mp member),
    fun e member => listed.invalidating e (same.mem_iff.mp member), ?_⟩
  obtain ⟨ofFirst, ofRest, across⟩ := List.pairwise_append.mp listed.descending
  obtain ⟨_, ofLater, between⟩ := List.pairwise_append.mp ofRest
  refine List.pairwise_append.mpr ⟨ofFirst, List.pairwise_append.mpr ⟨descending, ofLater, ?_⟩, ?_⟩
  · exact fun e inRegion f inLater => between e (perm.mem_iff.mp inRegion) f inLater
  · exact fun e inFirst f inRest =>
      across e inFirst f ((perm.append_right later).mem_iff.mp inRest)

end Arrangement

namespace Store

variable {s : Store Ptr} {treated region later : List (Edge Ptr)} {moves : EdgeQueue Ptr}
  {level lower : ℕ}

omit [DecidableEq Ptr] in
theorem Pairs.movable (pairs : s.Pairs treated moves) (lists : s.Lists treated) (placed : s.Placed) :
    Movable moves s.dag.nodes :=
  Frontier.movable pairs lists placed.closed

theorem moved_placed (placed : s.Placed) (movable : Movable moves s.dag.nodes) :
    (s.moved moves).Placed where
  numbered := s.arranged_numbered (reinsert_nodup movable.nodup placed.numbered.nodup)
  closed v member w edge :=
    movable.mem_iff.mpr (placed.closed v (movable.mem_iff.mp member) w edge)

theorem moved_length (placed : s.Placed) (movable : Movable moves s.dag.nodes) :
    (s.moved moves).dag.nodes.length = s.dag.nodes.length :=
  (movable.perm placed.numbered.nodup).length_eq

theorem moved_nil (placed : s.Placed) : s.moved [] = s := by
  simp only [moved, arranged, reinsert_nil, placed.numbered.renumber_eq, Heap.withIndex_self]

/-- Below the moves a node keeps its index. -/
theorem moved_index (placed : s.Placed) (movable : Movable moves s.dag.nodes)
    (high : ∀ m ∈ moves, (level : ℤ) ≤ s.heap.index m.1 ∧ (level : ℤ) ≤ s.heap.index m.2) {v : Ptr}
    (member : v ∈ s.dag.nodes) (low : s.heap.index v < level) :
    (s.moved moves).heap.index v = s.heap.index v :=
  (Frontier.renumber_above movable placed.numbered high member).1 low

/-- Below the moves the numberings before and after them separate the same nodes. -/
theorem moved_index_lt (placed : s.Placed) (movable : Movable moves s.dag.nodes)
    (high : ∀ m ∈ moves, (level : ℤ) ≤ s.heap.index m.1 ∧ (level : ℤ) ≤ s.heap.index m.2) {v : Ptr}
    (member : v ∈ s.dag.nodes) (low : s.heap.index v < level) (w : Ptr) :
    (s.moved moves).heap.index w < (s.moved moves).heap.index v ↔ s.heap.index w < s.heap.index v := by
  rw [moved_index placed movable high member low]
  by_cases inside : w ∈ s.dag.nodes
  · have above := (Frontier.renumber_above movable placed.numbered high inside).2
    obtain lowToo | highToo := lt_or_ge (s.heap.index w) level
    · rw [moved_index placed movable high inside lowToo]
    · have := above highToo
      change (level : ℤ) ≤ (s.moved moves).heap.index w at this
      omega
  · have same : (s.moved moves).heap.index w = s.heap.index w :=
      renumber_of_notMem fun again => inside (movable.mem_iff.mp again)
    rw [same]

/-- A list of edges below the moves is a list of edges after them. -/
theorem moved_lists (placed : s.Placed) (movable : Movable moves s.dag.nodes)
    (high : ∀ m ∈ moves, (level : ℤ) ≤ s.heap.index m.1 ∧ (level : ℤ) ≤ s.heap.index m.2)
    (lists : s.Lists region) (low : ∀ e ∈ region, s.heap.index e.1 < level) :
    (s.moved moves).Lists region := by
  have tail : ∀ e ∈ region, (s.moved moves).heap.index e.1 = s.heap.index e.1 := fun e member =>
    moved_index placed movable high (lists.members e member).1 (low e member)
  refine ⟨fun e member => ?_, lists.present, fun e member => ?_, ?_⟩
  · exact ⟨movable.mem_iff.mpr (lists.members e member).1, movable.mem_iff.mpr (lists.members e member).2⟩
  · have := low e member
    have := lists.invalidating e member
    rw [tail e member, moved_index placed movable high (lists.members e member).2 (by omega)]
    exact this
  · apply lists.descending.imp_of_mem
    intro e f left right order
    rw [tail e left, tail f right]
    exact order

/-- Below the moves the searches find what they would have found before them. -/
theorem search_moved (placed : s.Placed) (pairs : s.Pairs treated moves)
    (lists : s.Lists (treated ++ region)) (above : ∀ m ∈ moves, (level : ℤ) ≤ s.heap.index m.1)
    (low : ∀ e ∈ region, s.heap.index e.1 < level) :
    s.search moves region = ((s.moved moves).search [] region).map (fun new => new ++ moves) := by
  have movable := pairs.movable lists.prefix_of placed
  have high := pairs.both_above above
  have inRegion {e : Edge Ptr} (member : e ∈ region) : e ∈ treated ++ region :=
    List.mem_append_right _ member
  rw [search, search, moved_length placed movable]
  refine Frontier.collect_local cycleDetected .outOfFuel _ region [] (fun e member w => ?_)
    (fun e member m inFound => ?_) (fun e member again => ?_)
  · exact moved_index_lt placed movable high (lists.members e (inRegion member)).1 (low e member) w
  · have := low e member
    have := above m inFound
    omega
  · obtain ⟨m, inFound, same⟩ := List.mem_map.mp again
    have := lists.invalidating e (inRegion member)
    have := low e member
    have := above m inFound
    rw [same] at this
    omega

/-- A search returns the pairs of its edges or meets a cycle below the tail of one of them. -/
theorem search_cases (placed : s.Placed) (pairs : s.Pairs treated moves)
    (lists : s.Lists (treated ++ region)) :
    (∃ next, s.search moves region = .ok next ∧ s.Pairs (treated ++ region) next) ∨
      s.search moves region = .error cycleDetected ∧
        ∃ e ∈ region, ClosesBelow s.heap.succ s.heap.index e.1 e.2 :=
  Frontier.collect_cases placed.numbered placed.closed le_rfl _ _ region pairs lists

theorem search_append (s : Store Ptr) (found first second : List (Edge Ptr)) :
    s.search found (first ++ second) = (s.search found first).bind fun next => s.search next second :=
  collect_append found first second

/-- Two rounds of moves, the second below the first, are one. -/
theorem moved_moved {new : EdgeQueue Ptr} (first : Movable moves s.dag.nodes)
    (both : Movable (new ++ moves) s.dag.nodes) (above : ∀ m ∈ moves, (level : ℤ) ≤ s.heap.index m.1)
    (high : ∀ m ∈ moves, s.heap.index m.1 < s.heap.index m.2)
    (low : ∀ m ∈ new, s.heap.index m.1 < level ∧ s.heap.index m.2 < level) :
    (s.moved moves).moved new = s.moved (new ++ moves) := by
  have apart : ∀ m ∈ new, m.1 ∉ moves.map Prod.fst ∧ m.2 ∉ moves.map Prod.fst := by
    intro m member
    obtain ⟨source, target⟩ := low m member
    constructor <;>
    · intro again
      obtain ⟨n, listed, same⟩ := List.mem_map.mp again
      have := above n listed
      rw [same] at this
      omega
  have stay : ∀ m ∈ moves, m.2 ∉ new.map Prod.fst := by
    intro m member again
    obtain ⟨n, listed, same⟩ := List.mem_map.mp again
    have := (low n listed).1
    have := above m member
    have := high m member
    rw [← same] at this
    omega
  have nodes : reinsert new (reinsert moves s.dag.nodes) = reinsert (new ++ moves) s.dag.nodes :=
    reinsert_reinsert _ apart stay
  have index : renumber (renumber s.heap.index (reinsert moves s.dag.nodes))
      (reinsert (new ++ moves) s.dag.nodes) = renumber s.heap.index (reinsert (new ++ moves) s.dag.nodes) :=
    renumber_renumber fun v member => both.mem_iff.mpr (first.mem_iff.mp member)
  simp only [moved, arranged, Heap.index_withIndex, Heap.withIndex_withIndex, nodes, index]

/-- A shift of pairs above `lower` makes their moves. -/
theorem shift_moved (placed : s.Placed) (lists : s.Lists region) (pairs : s.Pairs region moves)
    (above : ∀ m ∈ moves, (lower : ℤ) ≤ s.heap.index m.1) (inside : lower ≤ s.dag.nodes.length) :
    ∃ r, shift lower moves s.heap s.dag.nodes (flags s.dag.nodes (moves.map Prod.fst)) = .ok r ∧
      ({ heap := r.heap, dag := { s.dag with nodes := r.invOrder } } : Store Ptr) = s.moved moves ∧
      r.vacant = List.replicate s.dag.nodes.length false := by
  have queued : Queued s.heap.index s.dag.nodes moves :=
    ⟨pairs.movable lists placed, pairs.below, pairs.ordered⟩
  obtain ⟨r, returned, nodes, heap, vacant, _⟩ := shift_eq queued placed.numbered inside above
  exact ⟨r, returned, by rw [nodes, heap]; rfl, vacant⟩

/-- The order in which the searches of a region are made. -/
theorem exists_arrangement (placed : s.Placed) (pairs : s.Pairs treated moves)
    (lists : s.Lists (treated ++ (region ++ later)))
    (above : ∀ m ∈ moves, (level : ℤ) ≤ s.heap.index m.1)
    (low : ∀ e ∈ region, s.heap.index e.1 < level) (sort : StdSort (Edge Ptr)) :
    ∃ arranged, sort.sort (byTail (s.moved moves).heap) region = arranged ∧ arranged.Perm region ∧
      (sort.Stable → arranged = region) ∧ s.Lists (treated ++ (arranged ++ later)) := by
  have movable := pairs.movable lists.prefix_of placed
  have high := pairs.both_above above
  have order := byTail_strictWeakOrder (s.moved moves).heap
  have perm := sort.perm _ region order
  have tail : ∀ e ∈ region, (s.moved moves).heap.index e.1 = s.heap.index e.1 := fun e member =>
    moved_index placed movable high (lists.members e (by simp [member])).1 (low e member)
  refine ⟨_, rfl, perm, fun stable => stable.sort_eq order ?_, lists.rearrange perm ?_⟩
  · have descending := (List.pairwise_append.mp (List.pairwise_append.mp lists.descending).2.1).1
    apply descending.imp_of_mem
    intro e f left right before
    rw [byTail_eq_false, tail e left, tail f right]
    exact before
  · apply (sort.arranged _ region order).imp_of_mem
    intro e f left right before
    rw [byTail_eq_false, tail e (perm.mem_iff.mp left), tail f (perm.mem_iff.mp right)] at before
    exact before

/-- After some moves, `discover` makes the searches of a region in the order of the sort. -/
theorem discover_moved (placed : s.Placed) (movable : Movable moves s.dag.nodes)
    {sort : StdSort (Edge Ptr)} {arranged : List (Edge Ptr)}
    (sorted : sort.sort (byTail (s.moved moves).heap) region = arranged)
    (lists : (s.moved moves).Lists arranged) :
    discover sort region (s.moved moves).heap (s.moved moves).dag.nodes
        (List.replicate s.dag.nodes.length false) =
      ((s.moved moves).search [] arranged).map
        fun found => (found, flags (s.moved moves).dag.nodes (found.map Prod.fst)) := by
  have after := moved_placed placed movable
  rw [← moved_length placed movable]
  exact discover_eq after.numbered after.closed sort sorted lists.members

/-- One region: its searches continue those made before, and so do its moves. -/
theorem processRegion_cases (placed : s.Placed) (pairs : s.Pairs treated moves)
    (lists : s.Lists (treated ++ (region ++ later)))
    (above : ∀ m ∈ moves, (level : ℤ) ≤ s.heap.index m.1)
    (low : ∀ e ∈ region, s.heap.index e.1 < level)
    (floor : Floor s.heap.succ s.heap.index s.dag.nodes lower)
    (heads : ∀ e ∈ treated ++ region, (lower : ℤ) ≤ s.heap.index e.2)
    (inside : lower ≤ s.dag.nodes.length) (sort : StdSort (Edge Ptr)) :
    ∃ arranged, arranged.Perm region ∧ (sort.Stable → arranged = region) ∧
      s.Lists (treated ++ (arranged ++ later)) ∧
      ((∃ next, s.search moves arranged = .ok next ∧ s.Pairs (treated ++ arranged) next ∧
          (∀ m ∈ next, (lower : ℤ) ≤ s.heap.index m.1) ∧
          processRegion sort region lower (List.replicate s.dag.nodes.length false) (s.moved moves) =
            .ok (List.replicate s.dag.nodes.length false) (s.moved next)) ∨
        s.search moves arranged = .error cycleDetected ∧
          processRegion sort region lower (List.replicate s.dag.nodes.length false) (s.moved moves) =
            .error cycleDetected (s.moved moves)) := by
  obtain ⟨arranged, sorted, perm, stable, all⟩ := exists_arrangement placed pairs lists above low sort
  refine ⟨arranged, perm, stable, all, ?_⟩
  have both : s.Lists (treated ++ arranged) := by
    rw [← List.append_assoc] at all
    exact all.prefix_of
  have movable := pairs.movable both.prefix_of placed
  have high := pairs.both_above above
  have lowArranged : ∀ e ∈ arranged, s.heap.index e.1 < level := fun e member =>
    low e (perm.mem_iff.mp member)
  have placedMoved := moved_placed placed movable
  have listsMoved : (s.moved moves).Lists arranged :=
    moved_lists placed movable high both.suffix_of lowArranged
  have continued := search_moved placed pairs both above lowArranged
  have length := moved_length placed movable
  have discovered := discover_moved placed movable sorted listsMoved
  obtain ⟨new, found, pairsMoved⟩ | ⟨failed, _⟩ :=
    search_cases placedMoved (Frontier.nil _ _) listsMoved
  · rw [found] at continued discovered
    obtain ⟨next, returned, pairsNext⟩ | ⟨failed, _⟩ := search_cases placed pairs both
    · obtain rfl : new ++ moves = next := Except.ok.inj (continued.symm.trans returned)
      have aboveNext := pairsNext.floor_le both placed.closed floor fun e member => heads e (by
        rw [List.mem_append] at member ⊢
        exact member.imp_right perm.mem_iff.mp)
      have lowNew : ∀ m ∈ new, s.heap.index m.1 < level ∧ s.heap.index m.2 < level := by
        intro m member
        obtain ⟨y, edge, _⟩ := pairsMoved.source m member
        have target : s.heap.index m.2 < level := lowArranged _ edge
        have := pairsNext.below m (List.mem_append_left _ member)
        omega
      have movableNext := pairsNext.movable both placed
      have aboveMoved : ∀ m ∈ new, (lower : ℤ) ≤ (s.moved moves).heap.index m.1 := by
        intro m member
        rw [moved_index placed movable high (movableNext.source m (List.mem_append_left _ member))
          (lowNew m member).1]
        exact aboveNext m (List.mem_append_left _ member)
      obtain ⟨r, shifted, after, vacant⟩ :=
        shift_moved placedMoved listsMoved pairsMoved aboveMoved (by rw [length]; exact inside)
      rw [moved_moved movable movableNext above pairs.below lowNew] at after
      refine .inl ⟨new ++ moves, continued, pairsNext, aboveNext, ?_⟩
      rw [length] at vacant
      simp only [processRegion, discovered, Except.map, shifted, vacant, after]
    · rw [continued] at failed
      contradiction
  · rw [failed] at continued discovered
    refine .inr ⟨continued, ?_⟩
    simp only [processRegion, discovered]
    rfl

/-- Every edge of the graph ascends or is listed. -/
def Ascends (s : Store Ptr) (edges : List (Edge Ptr)) : Prop :=
  ∀ v ∈ s.dag.nodes, ∀ w ∈ s.heap.succ v, s.heap.index v < s.heap.index w ∨ (v, w) ∈ edges

variable {sort : StdSort (Edge Ptr)} {sorted rest : List (Edge Ptr)} {i start : ℕ} {vacant : List Bool}

/-- The edges before `start` are treated; those from `start` on lie below all moves made. -/
structure Stage (s : Store Ptr) (sort : StdSort (Edge Ptr)) (sorted treated : List (Edge Ptr))
    (moves : EdgeQueue Ptr) (start level : ℕ) : Prop where
  perm : treated.Perm (sorted.take start)
  stable : sort.Stable → treated = sorted.take start
  lists : s.Lists (treated ++ sorted.drop start)
  searched : s.search [] treated = .ok moves
  pairs : s.Pairs treated moves
  above : ∀ m ∈ moves, (level : ℤ) ≤ s.heap.index m.1
  low : ∀ e ∈ sorted.drop start, s.heap.index e.1 < level

/-- A search has met a cycle after the moves of the regions above have been made. -/
structure Rejected (s : Store Ptr) (sort : StdSort (Edge Ptr)) (sorted first second : List (Edge Ptr))
    (moves : EdgeQueue Ptr) : Prop where
  perm : (first ++ second).Perm sorted
  stable : sort.Stable → first ++ second = sorted
  lists : s.Lists (first ++ second)
  searched : s.search [] first = .ok moves
  pairs : s.Pairs first moves
  failed : s.search moves second = .error cycleDetected
  apart : ∀ m ∈ moves, ∀ e ∈ second, s.heap.index e.1 < s.heap.index m.1

omit [DecidableEq Ptr] in
/-- No edge leads from above the heads treated to below them when the tails left are below. -/
theorem floor_of_split (ascends : s.Ascends sorted)
    (heads : ∀ e ∈ sorted.take i, (lower : ℤ) ≤ s.heap.index e.2)
    (tails : ∀ e ∈ sorted.drop i, s.heap.index e.1 < lower) :
    Floor s.heap.succ s.heap.index s.dag.nodes lower := by
  intro v member w edge high
  cases ascends v member w edge with
  | inl up => omega
  | inr listed =>
    rw [← List.take_append_drop i sorted, List.mem_append] at listed
    cases listed with
    | inl early => exact heads _ early
    | inr late => exact absurd (tails _ late) (not_lt.mpr high)

/-- Treating the region up to `i`. -/
theorem Stage.region_cases (stage : Stage s sort sorted treated moves start level)
    (placed : s.Placed) (ascends : s.Ascends sorted) (before : start ≤ i)
    (heads : ∀ e ∈ sorted.take i, (lower : ℤ) ≤ s.heap.index e.2)
    (tails : ∀ e ∈ sorted.drop i, s.heap.index e.1 < lower) (inside : lower ≤ s.dag.nodes.length) :
    (∃ more next, processRegion sort ((sorted.drop start).take (i - start)) lower
          (List.replicate s.dag.nodes.length false) (s.moved moves) =
        .ok (List.replicate s.dag.nodes.length false) (s.moved next) ∧
        Stage s sort sorted more next i lower) ∨
      processRegion sort ((sorted.drop start).take (i - start)) lower
          (List.replicate s.dag.nodes.length false) (s.moved moves) =
        .error cycleDetected (s.moved moves) ∧
        ∃ first second, Rejected s sort sorted first second moves := by
  have later : (sorted.drop start).drop (i - start) = sorted.drop i := by
    rw [List.drop_drop]
    congr 1
    omega
  have parts : (sorted.drop start).take (i - start) ++ sorted.drop i = sorted.drop start := by
    rw [← later, List.take_append_drop]
  have upTo : sorted.take start ++ (sorted.drop start).take (i - start) = sorted.take i := by
    rw [← List.take_add]
    congr 1
    omega
  have lists := stage.lists
  rw [← parts] at lists
  have low : ∀ e ∈ (sorted.drop start).take (i - start), s.heap.index e.1 < level := fun e member =>
    stage.low e (List.mem_of_mem_take member)
  have headsAll : ∀ e ∈ treated ++ (sorted.drop start).take (i - start),
      (lower : ℤ) ≤ s.heap.index e.2 := fun e member => heads e (by
    rw [← upTo]
    exact (stage.perm.append_right _).mem_iff.mp member)
  obtain ⟨arranged, perm, stable, all, ⟨next, searched, pairs, above, processed⟩ | ⟨failed, processed⟩⟩ :=
    processRegion_cases placed stage.pairs lists stage.above low
      (floor_of_split ascends heads tails) headsAll inside sort
  · refine .inl ⟨treated ++ arranged, next, processed, ?_, ?_, ?_, ?_, pairs, above, tails⟩
    · rw [← upTo]
      exact stage.perm.append perm
    · intro given
      rw [stage.stable given, stable given, upTo]
    · rw [List.append_assoc]
      exact all
    · rw [search_append, stage.searched]
      exact searched
  · refine .inr ⟨processed, treated, arranged ++ sorted.drop i, ?_, ?_, all, stage.searched, stage.pairs, ?_, ?_⟩
    · have := stage.perm.append (perm.append_right (sorted.drop i))
      rwa [parts, List.take_append_drop] at this
    · intro given
      rw [stage.stable given, stable given, parts, List.take_append_drop]
    · rw [search_append, failed]
      rfl
    · intro m inFound e member
      have inRest : e ∈ sorted.drop start := by
        rw [← parts]
        exact (perm.append_right _).mem_iff.mp member
      have := stage.low e inRest
      have := stage.above m inFound
      omega

omit [DecidableEq Ptr] in
theorem Lists.tail_le (lists : s.Lists sorted) {x y : Ptr} (here : sorted.drop i = (x, y) :: rest) :
    ∀ e ∈ sorted.drop i, s.heap.index e.1 ≤ s.heap.index x := by
  have descending := lists.descending.sublist (List.drop_sublist i sorted)
  rw [here] at descending ⊢
  intro e member
  rcases List.mem_cons.mp member with rfl | later
  · exact le_rfl
  · exact (List.pairwise_cons.mp descending).1 e later

/-- An edge of a region to come has its old indices. -/
theorem Stage.index_eq (stage : Stage s sort sorted treated moves start level) (placed : s.Placed)
    {e : Edge Ptr} (member : e ∈ sorted.drop start) :
    (s.moved moves).heap.index e.1 = s.heap.index e.1 ∧
      (s.moved moves).heap.index e.2 = s.heap.index e.2 := by
  have movable := stage.pairs.movable stage.lists.prefix_of placed
  have high := stage.pairs.both_above stage.above
  have listed : e ∈ treated ++ sorted.drop start := List.mem_append_right _ member
  have low := stage.low e member
  have := stage.lists.invalidating e listed
  exact ⟨moved_index placed movable high (stage.lists.members e listed).1 low,
    moved_index placed movable high (stage.lists.members e listed).2 (by omega)⟩

theorem regionLoop_cons (x y : Ptr) (bound : ℤ) (t : Store Ptr) :
    regionLoop sort sorted ((x, y) :: rest) i start bound vacant t =
      if t.heap.index x < bound ∧ i > 0 then
        match processRegion sort ((sorted.drop start).take (i - start)) bound vacant t with
        | .ok vacant t =>
          regionLoop sort sorted rest (i + 1) i (min (t.heap.index y) bound) vacant t
        | .error e t => .error e t
      else regionLoop sort sorted rest (i + 1) start (min (t.heap.index y) bound) vacant t := by
  by_cases split : t.heap.index x < bound ∧ i > 0
  · have same : (t.heap x).index < bound ∧ i > 0 := split
    rw [if_pos split]
    rw [regionLoop, get_bind, if_pos same]
    cases treated : processRegion sort ((sorted.drop start).take (i - start)) bound vacant t with
    | error e t => rw [bind_error treated]
    | ok vacant t =>
      rw [bind_ok treated, get_bind]
      rfl
  · have same : ¬ ((t.heap x).index < bound ∧ i > 0) := split
    rw [if_neg split, regionLoop, get_bind, if_neg same]
    rfl

/-- The loop cuts the sorted edges into regions that can be treated one after the other. -/
theorem regionLoop_cases (placed : s.Placed) (ascends : s.Ascends sorted) (lists : s.Lists sorted)
    (here : sorted.drop i = rest) (stage : Stage s sort sorted treated moves start level)
    (before : start ≤ i) (heads : ∀ e ∈ sorted.take i, (lower : ℤ) ≤ s.heap.index e.2)
    (inside : lower ≤ s.dag.nodes.length) :
    (∃ more next : List (Edge Ptr), ∃ last level' lower' : ℕ,
        regionLoop sort sorted rest i start lower (List.replicate s.dag.nodes.length false)
          (s.moved moves) =
        .ok (last, lower', List.replicate s.dag.nodes.length false) (s.moved next) ∧
        Stage s sort sorted more next last level' ∧
        (∀ e ∈ sorted, (lower' : ℤ) ≤ s.heap.index e.2) ∧ lower' ≤ s.dag.nodes.length) ∨
      ∃ next first second, regionLoop sort sorted rest i start lower
          (List.replicate s.dag.nodes.length false) (s.moved moves) =
        .error cycleDetected (s.moved next) ∧ Rejected s sort sorted first second next := by
  induction rest generalizing i start treated moves level lower with
  | nil =>
    refine .inl ⟨treated, moves, start, level, lower, rfl, stage, fun e member => heads e ?_, inside⟩
    rwa [← List.take_append_drop i sorted, here, List.append_nil] at member
  | cons e rest ih =>
    obtain ⟨x, y⟩ := e
    have later : sorted.drop (i + 1) = rest := by
      rw [← List.drop_drop, here]
      rfl
    have current : (x, y) ∈ sorted.drop i := by
      rw [here]
      exact List.mem_cons_self
    have inRegion : (x, y) ∈ sorted.drop start := List.drop_subset_drop_left sorted before current
    obtain ⟨slot, slotBound, _, atSlot⟩ :=
      placed.numbered.exists_slot (lists.members _ (List.mem_of_mem_drop current)).2
    have lowest : min (s.heap.index y) (lower : ℤ) = ((min slot lower : ℕ) : ℤ) := by
      rw [show s.heap.index y = slot from atSlot]
      omega
    have headsNext : ∀ f ∈ sorted.take (i + 1), ((min slot lower : ℕ) : ℤ) ≤ s.heap.index f.2 := by
      intro f member
      rw [List.take_add, here, List.mem_append] at member
      cases member with
      | inl early =>
        have := heads f early
        omega
      | inr last =>
        obtain rfl := List.mem_singleton.mp last
        dsimp only at atSlot ⊢
        omega
    obtain ⟨tail, head⟩ := stage.index_eq placed inRegion
    rw [regionLoop_cons, tail]
    by_cases split : s.heap.index x < lower ∧ i > 0
    · rw [if_pos split]
      have tails : ∀ f ∈ sorted.drop i, s.heap.index f.1 < lower := fun f member =>
        (Lists.tail_le lists here f member).trans_lt split.1
      obtain ⟨more, next, processed, nextStage⟩ | ⟨failed, first, second, rejected⟩ :=
        stage.region_cases placed ascends before heads tails inside
      · have headNext := (nextStage.index_eq placed current).2
        rw [processed]
        dsimp only
        rw [headNext, lowest]
        exact ih later nextStage (by omega) headsNext (by omega)
      · rw [failed]
        exact .inr ⟨moves, first, second, rfl, rejected⟩
    · rw [if_neg split, head, lowest]
      exact ih later stage (by omega) headsNext (by omega)

end Store

end DynamicDag
