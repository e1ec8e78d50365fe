import DynamicDag.Abstract.Spending
import DynamicDag.Model.Work
import DynamicDag.Proofs.Locality
import DynamicDag.Proofs.SortAgain
import Mathlib.Algebra.Order.BigOperators.Group.Finset
import Mathlib.Order.Interval.Finset.Nat

/-! # What a call costs

The work of `insert_edges` is bounded by the part of the graph that the batch affects: every slot between
the ends of an invalidating edge is read once by `shift`, and only nodes that a search discovers cost looks
at their outgoing edges. The scan of these edges starts anew whenever the search comes back to a node, so
that its cost is quadratic in their number.
-/

namespace DynamicDag

open Relation Numbering Procedures Reinsertion BoundedLoop

variable {Ptr : Type} [DecidableEq Ptr]

section Searches

variable {heap : Heap Ptr} {nodes : List Ptr}

/-- The scan looks as far as the abstract one. -/
theorem lookedAt_eq (numbered : Numbered heap.index nodes) (taken : List Ptr) (upperBound : ℤ)
    (s : DepthFirst.State Ptr) {neighbours : List Ptr} (inside : ∀ w ∈ neighbours, w ∈ nodes) :
    lookedAt heap upperBound (flags nodes (s.stack ++ s.finished ++ taken)) (flags nodes s.stack) neighbours =
      DepthFirst.looked (untaken heap taken upperBound) s neighbours := by
  induction neighbours with
  | nil => rfl
  | cons dest rest ih =>
    obtain ⟨member, later⟩ := List.forall_mem_cons.mp inside
    have alone : ∀ w ∈ [dest], w ∈ nodes := List.forall_mem_singleton.mpr member
    have one := unvisitedNeighbor_eq numbered taken upperBound s alone
    rw [DepthFirst.scan_cons] at one
    rw [lookedAt, one, DepthFirst.looked, ih later]
    by_cases onPath : dest ∈ s.stack
    · simp [DepthFirst.passed, onPath]
    · rw [if_neg onPath]
      split_ifs <;> rfl

/-- A charge of the program that is one of the abstract search. -/
def SearchCharge.Abstracts (charge : SearchCharge Ptr) (heap : Heap Ptr) (nodes : List Ptr)
    (abstract : (Ptr → Bool) → DepthFirst.State Ptr → ℕ) : Prop :=
  ∀ (taken : List Ptr) (queue : EdgeQueue Ptr) (x : Ptr) (s : DepthFirst.State Ptr),
    (∀ v ∈ s.stack, v ∈ nodes) → charge heap (heap.index x) (Search.ofState nodes taken queue x s) =
      abstract (untaken heap taken (heap.index x)) s

theorem round_abstracts (heap : Heap Ptr) (nodes : List Ptr) :
    SearchCharge.round.Abstracts heap nodes fun _ _ => 1 := fun _ _ _ _ _ => rfl

theorem looks_abstracts (numbered : Numbered heap.index nodes)
    (closed : ∀ v ∈ nodes, ∀ w ∈ heap.succ v, w ∈ nodes) :
    SearchCharge.looks.Abstracts heap nodes (DepthFirst.looks heap.succ) := by
  rintro taken queue x ⟨_ | ⟨v, below⟩, finished⟩ inside
  · rfl
  · exact lookedAt_eq numbered taken _ ⟨v :: below, finished⟩ (closed v (inside v List.mem_cons_self))

variable {charge : SearchCharge Ptr} {abstract : (Ptr → Bool) → DepthFirst.State Ptr → ℕ}

/-- A search spends what the abstract search spends. -/
theorem searchSpent_eq (numbered : Numbered heap.index nodes)
    (closed : ∀ v ∈ nodes, ∀ w ∈ heap.succ v, w ∈ nodes) (same : charge.Abstracts heap nodes abstract)
    {start x : Ptr} (root : start ∈ nodes) (tail : x ∈ nodes) (taken : List Ptr) (queue : EdgeQueue Ptr) :
    searchSpent charge start (heap.index x) queue heap nodes (flags nodes taken) =
      spent (abstract (untaken heap taken (heap.index x)))
        (DepthFirst.step cycleDetected heap.succ (untaken heap taken (heap.index x))) (2 * nodes.length)
        ⟨[start], []⟩ := by
  have vacant := write_flag numbered taken ([start] ++ [] ++ taken) root
    (decide_eq_true (by simp)) (fun w _ different => by simp [different])
  have visited : write (List.replicate nodes.length false) (heap start).index true = .ok (flags nodes [start]) := by
    rw [← flags_nil]
    exact write_flag numbered [] [start] root (decide_eq_true (by simp)) (fun w _ different => by simp [different])
  simp only [searchSpent, vacant, visited, flags_length]
  exact spent_refines (Search.ofState nodes taken queue x) (searchRound_eq numbered closed root tail taken queue)
    (fun s next inv moved => inv.of_step moved)
    (fun s inv => same taken queue x s fun v member =>
      inside_of_reach closed root v (inv.reached v (List.mem_append_left _ member)))
    (2 * nodes.length) (DepthFirst.Inv.init _ _ start)

theorem discoverEdge_eq (numbered : Numbered heap.index nodes)
    (closed : ∀ v ∈ nodes, ∀ w ∈ heap.succ v, w ∈ nodes) (found : List (Edge Ptr)) {e : Edge Ptr}
    (inside : e.1 ∈ nodes ∧ e.2 ∈ nodes) :
    discoverEdge heap nodes (found, flags nodes (found.map Prod.fst)) e =
      (collectStep cycleDetected .outOfFuel heap.succ heap.index (2 * nodes.length) found e).map
        fun found => (found, flags nodes (found.map Prod.fst)) := by
  have alone : ∀ f ∈ [e], f.1 ∈ nodes ∧ f.2 ∈ nodes := List.forall_mem_singleton.mpr inside
  have one := foldlM_discoverEdge numbered closed found alone
  rw [List.foldlM_cons] at one
  simp only [List.foldlM_nil, bind_pure, collect] at one
  rw [one]
  cases collectStep cycleDetected Fault.outOfFuel heap.succ heap.index (2 * nodes.length) found e <;> rfl

/-- The searches of `discover` spend what the abstract searches spend. -/
theorem discoverSpent_eq (numbered : Numbered heap.index nodes)
    (closed : ∀ v ∈ nodes, ∀ w ∈ heap.succ v, w ∈ nodes) (same : charge.Abstracts heap nodes abstract)
    {edges : List (Edge Ptr)} (inside : ∀ e ∈ edges, e.1 ∈ nodes ∧ e.2 ∈ nodes) (found : List (Edge Ptr)) :
    discoverSpent charge heap nodes edges (found, flags nodes (found.map Prod.fst)) =
      collectSpent abstract cycleDetected Fault.outOfFuel heap.succ heap.index (2 * nodes.length) found edges := by
  induction edges generalizing found with
  | nil => rfl
  | cons e rest ih =>
    obtain ⟨here, later⟩ := List.forall_mem_cons.mp inside
    rw [discoverSpent, collectSpent, read_flag numbered _ here.2, discoverEdge_eq numbered closed found here]
    congr 1
    · by_cases old : e.2 ∈ found.map Prod.fst
      · rw [if_pos old, decide_eq_true old]
      · rw [if_neg old, decide_eq_false old]
        exact searchSpent_eq numbered closed same here.2 here.1 (found.map Prod.fst) found
    · cases collectStep cycleDetected Fault.outOfFuel heap.succ heap.index (2 * nodes.length) found e with
      | error err => rfl
      | ok next => exact ih later next

end Searches

/-- `shift` makes one round for every slot from the first one up to its last target. -/
theorem shiftRounds_eq {heap : Heap Ptr} {nodes : List Ptr} {moves : EdgeQueue Ptr}
    (queued : Queued heap.index nodes moves) (numbered : Numbered heap.index nodes) {k top : ℕ}
    (inside : k ≤ nodes.length) (above : ∀ m ∈ moves, (k : ℤ) ≤ heap.index m.1)
    (last : ∃ m ∈ moves, heap.index m.2 = top) (bounded : ∀ m ∈ moves, heap.index m.2 ≤ top) :
    k + shiftRounds k moves heap nodes (flags nodes (moves.map Prod.fst)) = top + 1 := by
  obtain ⟨r, returned, _, _, _, _⟩ := shift_eq queued numbered inside above
  obtain ⟨final, listed, atTop⟩ := last
  have round : ∀ s next, (∃ i, AtSlot heap nodes moves i s ∧ i ≤ top + 1) → shiftRound s = .ok (some next) →
      (∃ i, AtSlot heap nodes moves i next ∧ i ≤ top + 1) ∧ s.i.toNat + 1 = next.i.toNat := by
    rintro s next ⟨i, atSlot, _⟩ moved
    cases waiting : s.queue.isEmpty with
    | true => simp [shiftRound, waiting] at moved
    | false =>
      have unread := atSlot.unread queued numbered waiting
      obtain ⟨next', moved', kept⟩ := shiftRound_eq queued numbered atSlot unread waiting
      obtain rfl : next' = next := by simpa [moved'] using moved
      obtain ⟨m, member⟩ := List.exists_mem_of_ne_nil _ (by simpa using waiting : s.queue ≠ [])
      rw [atSlot.queue] at member
      obtain ⟨queuedHere, high⟩ := List.mem_filter.mp member
      have := of_decide_eq_true high
      have := bounded m queuedHere
      refine ⟨⟨i + 1, kept, by omega⟩, ?_⟩
      rw [atSlot.slot, kept.slot]
      rfl
  have low : k ≤ top + 1 := by
    have := above final listed
    have := queued.below final listed
    omega
  have start := AtSlot.start queued numbered inside above
  have total := spent_eq round ⟨k, start, low⟩ returned
  obtain ⟨i, atSlot, bound⟩ := invariant_of_run (fun s next inv moved => (round s next inv moved).1)
    ⟨k, start, low⟩ returned
  have beyond : top < i := by
    by_contra short
    have waiting : final ∈ pending heap.index moves i := List.mem_filter.mpr ⟨listed, decide_eq_true (by omega)⟩
    rw [← atSlot.queue, queue_of_stop (stopped_of_run returned)] at waiting
    exact List.not_mem_nil waiting
  rw [atSlot.slot] at total
  simp only [Int.toNat_natCast] at total
  rw [shiftRounds]
  omega

namespace Store

variable {s : Store Ptr} {treated region sorted rest : List (Edge Ptr)} {moves : EdgeQueue Ptr}
  {level lower start i : ℕ} {sort : StdSort (Edge Ptr)} {call : RegionCall Ptr} {calls : List (RegionCall Ptr)}

/-- Below the moves a search reaches what it would have reached before them. -/
theorem reachBelow_moved (placed : s.Placed) (movable : Movable moves s.dag.nodes)
    (high : ∀ m ∈ moves, (level : ℤ) ≤ s.heap.index m.1 ∧ (level : ℤ) ≤ s.heap.index m.2) {x y : Ptr}
    (member : x ∈ s.dag.nodes) (low : s.heap.index x < level) :
    ReachBelow (s.moved moves).heap.succ (s.moved moves).heap.index x y =
      ReachBelow s.heap.succ s.heap.index x y := by
  simp only [ReachBelow, moved_index_lt placed movable high member low]
  rfl

/-- The region that `insert_edges` treats between two positions of the sorted edges. -/
structure Treats (s : Store Ptr) (sort : StdSort (Edge Ptr)) (sorted treated : List (Edge Ptr))
    (moves : EdgeQueue Ptr) (start level i lower : ℕ) : Prop where
  stage : Stage s sort sorted treated moves start level
  before : start < i
  room : start < sorted.length
  heads : ∀ e ∈ sorted.take i, (lower : ℤ) ≤ s.heap.index e.2
  tails : ∀ e ∈ sorted.drop i, s.heap.index e.1 < lower
  inside : lower ≤ s.dag.nodes.length
  covers : ∀ slot : ℕ, lower ≤ slot →
    (∃ e ∈ (sorted.drop start).take (i - start), (slot : ℤ) ≤ s.heap.index e.1) →
    ∃ e ∈ (sorted.drop start).take (i - start), s.heap.index e.2 ≤ slot ∧ (slot : ℤ) ≤ s.heap.index e.1

/-- The call for a region in the store that the moves have left. -/
def regionCall (s : Store Ptr) (sorted : List (Edge Ptr)) (moves : EdgeQueue Ptr) (start i lower : ℕ) :
    RegionCall Ptr :=
  ⟨(sorted.drop start).take (i - start), lower, List.replicate s.dag.nodes.length false, s.moved moves⟩

omit [DecidableEq Ptr] in
theorem region_append_drop (sorted : List (Edge Ptr)) (before : start ≤ i) :
    (sorted.drop start).take (i - start) ++ sorted.drop i = sorted.drop start := by
  have later : (sorted.drop start).drop (i - start) = sorted.drop i := by
    rw [List.drop_drop]
    congr 1
    omega
  rw [← later, List.take_append_drop]

omit [DecidableEq Ptr] in
theorem region_subset_take (sorted : List (Edge Ptr)) (before : start ≤ i) :
    (sorted.drop start).take (i - start) ⊆ sorted.take i := by
  rw [show i = start + (i - start) by omega, List.take_add, Nat.add_sub_cancel_left]
  exact List.subset_append_right _ _

/-- The edges of a region in the order of the second sort, and where their searches lead. -/
structure RegionOrder (s : Store Ptr) (sort : StdSort (Edge Ptr)) (sorted region arranged : List (Edge Ptr))
    (moves : EdgeQueue Ptr) (level lower : ℕ) : Prop where
  movable : Movable moves s.dag.nodes
  order : sort.sort (byTail (s.moved moves).heap) region = arranged
  perm : arranged.Perm region
  lists : (s.moved moves).Lists arranged
  tail : ∀ e ∈ arranged, (s.moved moves).heap.index e.1 = s.heap.index e.1
  reached : ∀ e ∈ arranged, ∀ v, ReachBelow (s.moved moves).heap.succ (s.moved moves).heap.index e.1 e.2 v →
    v ∈ s.dag.nodes ∧ (∃ e ∈ sorted, ReachBelow s.heap.succ s.heap.index e.1 e.2 v) ∧
      (lower : ℤ) ≤ s.heap.index v ∧ s.heap.index v < level
  unmoved : ∀ v ∈ s.dag.nodes, s.heap.index v < level → (s.moved moves).heap.index v = s.heap.index v

theorem Treats.exists_order (treats : Treats s sort sorted treated moves start level i lower) (placed : s.Placed)
    (ascends : s.Ascends sorted) :
    ∃ arranged, RegionOrder s sort sorted ((sorted.drop start).take (i - start)) arranged moves level lower := by
  have lists := treats.stage.lists
  rw [← region_append_drop sorted treats.before.le] at lists
  have low : ∀ e ∈ (sorted.drop start).take (i - start), s.heap.index e.1 < level := fun e member =>
    treats.stage.low e (List.mem_of_mem_take member)
  obtain ⟨arranged, order, perm, _, all⟩ :=
    exists_arrangement placed treats.stage.pairs lists treats.stage.above low sort
  have movable := treats.stage.pairs.movable lists.prefix_of placed
  have high := treats.stage.pairs.both_above treats.stage.above
  have ofRegion : s.Lists arranged := all.suffix_of.prefix_of
  have lowArranged : ∀ e ∈ arranged, s.heap.index e.1 < level := fun e member => low e (perm.mem_iff.mp member)
  have floor := floor_of_split ascends treats.heads treats.tails
  refine ⟨arranged, movable, order, perm, moved_lists placed movable high ofRegion lowArranged, fun e member => ?_,
    fun e member v reach => ?_, fun v inside below => moved_index placed movable high inside below⟩
  · exact moved_index placed movable high (ofRegion.members e member).1 (lowArranged e member)
  · rw [reachBelow_moved placed movable high (ofRegion.members e member).1 (lowArranged e member)] at reach
    have inRegion := perm.mem_iff.mp member
    have head := treats.heads e (region_subset_take sorted treats.before.le inRegion)
    refine ⟨ofRegion.reach_mem placed.closed member reach, ⟨e, ?_, reach⟩,
      reach.floor floor placed.closed (ofRegion.members e member).2 head, ?_⟩
    · exact List.mem_of_mem_drop (List.mem_of_mem_take inRegion)
    · have := lowArranged e member
      have := ofRegion.invalidating e member
      cases reach with
      | refl => omega
      | tail _ last =>
        have := last.2
        omega

section Charges

variable {charge : SearchCharge Ptr} {abstract : (Ptr → Bool) → DepthFirst.State Ptr → ℕ} {weight : Ptr → ℕ}

/-- The searches of a region charge for nodes of the region only. -/
theorem Treats.searchSpent_le (treats : Treats s sort sorted treated moves start level i lower) (placed : s.Placed)
    (ascends : s.Ascends sorted)
    (same : ∀ t : Store Ptr, t.Placed → t.heap.succ = s.heap.succ → charge.Abstracts t.heap t.dag.nodes abstract)
    (affords : DepthFirst.Affords s.heap.succ cycleDetected Fault.outOfFuel abstract weight) :
    ∃ part : List Ptr, part.Nodup ∧
      (∀ v ∈ part, v ∈ s.dag.nodes ∧ (∃ e ∈ sorted, ReachBelow s.heap.succ s.heap.index e.1 e.2 v) ∧
        (lower : ℤ) ≤ s.heap.index v ∧ s.heap.index v < level) ∧
      (s.regionCall sorted moves start i lower).searchSpent charge sort ≤ (part.map weight).sum := by
  obtain ⟨arranged, ordered⟩ := treats.exists_order placed ascends
  have after := moved_placed placed ordered.movable
  obtain ⟨part, unique, taken, bound⟩ := collectSpent_le affords (s.moved moves).heap.index
    (2 * (s.moved moves).dag.nodes.length) arranged []
  refine ⟨part, unique, fun v member => ?_, ?_⟩
  · obtain ⟨_, e, listed, reach⟩ := taken v member
    exact ordered.reached e listed v reach
  · have equal := discoverSpent_eq after.numbered after.closed (same _ after rfl) ordered.lists.members []
    rw [List.map_nil, flags_nil, moved_length placed ordered.movable] at equal
    rw [moved_length placed ordered.movable] at bound
    rw [RegionCall.searchSpent, regionCall, ordered.order]
    exact equal.trans_le bound

end Charges

omit [DecidableEq Ptr] in
theorem exists_mem_region (before : start < i) (room : start < sorted.length) :
    ∃ e, e ∈ (sorted.drop start).take (i - start) := by
  refine List.exists_mem_of_ne_nil _ fun none => ?_
  have := congrArg List.length none
  simp only [List.length_take, List.length_drop, List.length_nil] at this
  omega

theorem Treats.lower_lt (treats : Treats s sort sorted treated moves start level i lower) : lower < level := by
  obtain ⟨e, member⟩ := exists_mem_region treats.before treats.room
  have inRest := List.mem_of_mem_take member
  have head := treats.heads e (region_subset_take sorted treats.before.le member)
  have tail := treats.stage.low e inRest
  have := treats.stage.lists.invalidating e (List.mem_append_right _ inRest)
  omega

/-- A region that is shifted takes one round for every slot from its lowest head to its highest tail. -/
theorem Treats.shiftRounds_cases (treats : Treats s sort sorted treated moves start level i lower) (placed : s.Placed)
    (ascends : s.Ascends sorted) : ∃ top : ℕ,
      (∃ e ∈ (sorted.drop start).take (i - start), s.heap.index e.1 = top) ∧
      (∀ e ∈ (sorted.drop start).take (i - start), s.heap.index e.1 ≤ top) ∧
      (lower + (s.regionCall sorted moves start i lower).shiftRounds sort = top + 1 ∨
        (s.regionCall sorted moves start i lower).shiftRounds sort = 0 ∧
          ∃ e t, (s.regionCall sorted moves start i lower).run sort = .error e t) := by
  obtain ⟨arranged, ordered⟩ := treats.exists_order placed ascends
  have after := moved_placed placed ordered.movable
  have length := moved_length placed ordered.movable
  have discovered := discover_moved placed ordered.movable ordered.order ordered.lists
  -- the first edge has the highest tail
  obtain ⟨first, others, split⟩ : ∃ first others, arranged = first :: others := by
    obtain ⟨e, member⟩ := exists_mem_region treats.before treats.room
    exact List.exists_cons_of_ne_nil (List.ne_nil_of_mem (ordered.perm.mem_iff.mpr member))
  have inArranged : first ∈ arranged := split ▸ List.mem_cons_self
  have highest : ∀ e ∈ arranged, s.heap.index e.1 ≤ s.heap.index first.1 := by
    intro e member
    rw [← ordered.tail e member, ← ordered.tail first inArranged]
    have descending := ordered.lists.descending
    rw [split] at descending member
    obtain rfl | later := List.mem_cons.mp member
    · exact le_rfl
    · exact (List.pairwise_cons.mp descending).1 e later
  obtain ⟨top, topBound, _, atTop⟩ := after.numbered.exists_slot (ordered.lists.members first inArranged).1
  rw [ordered.tail first inArranged] at atTop
  refine ⟨top, ⟨first, ordered.perm.mem_iff.mp inArranged, atTop⟩, fun e member => ?_, ?_⟩
  · rw [← atTop]
    exact highest e (ordered.perm.mem_iff.mpr member)
  · rw [RegionCall.shiftRounds, RegionCall.run, regionCall, processRegion, discovered]
    obtain ⟨new, found, pairs⟩ | ⟨failed, _⟩ := search_cases after (Frontier.nil _ _) ordered.lists
    · left
      rw [found]
      refine shiftRounds_eq ⟨pairs.movable ordered.lists after, pairs.below, pairs.ordered⟩ after.numbered
        (by rw [length]; exact treats.inside) (fun m member => ?_) ?_ fun m member => ?_
      · obtain ⟨y, edge, reach⟩ := pairs.source m member
        obtain ⟨inside, _, high, below⟩ := ordered.reached _ edge _ reach
        rw [ordered.unmoved _ inside below]
        exact high
      · obtain ⟨m, member, _, high⟩ := pairs.reached first inArranged first.2 .refl
        obtain ⟨y, edge, _⟩ := pairs.source m member
        refine ⟨m, member, le_antisymm ?_ ?_⟩
        · rw [← atTop, ordered.tail _ edge]
          exact highest _ edge
        · rw [← atTop, ← ordered.tail first inArranged]
          exact high
      · obtain ⟨y, edge, _⟩ := pairs.source m member
        rw [← atTop, ordered.tail _ edge]
        exact highest _ edge
    · right
      rw [failed]
      exact ⟨rfl, _, _, rfl⟩

/-- The regions of a call from one position on, up to the one in which a search fails. -/
inductive Sweep (s : Store Ptr) (sort : StdSort (Edge Ptr)) (sorted : List (Edge Ptr)) :
    ℕ → ℕ → List (RegionCall Ptr) → Prop
  | done {start level : ℕ} : sorted.drop start = [] → Sweep s sort sorted start level []
  | fails {treated : List (Edge Ptr)} {moves : EdgeQueue Ptr} {start level i lower : ℕ} {e : Fault}
      {t : Store Ptr} :
      Treats s sort sorted treated moves start level i lower →
      (s.regionCall sorted moves start i lower).run sort = .error e t →
      Sweep s sort sorted start level [s.regionCall sorted moves start i lower]
  | next {treated : List (Edge Ptr)} {moves : EdgeQueue Ptr} {start level i lower : ℕ}
      {calls : List (RegionCall Ptr)} : Treats s sort sorted treated moves start level i lower →
      Sweep s sort sorted i lower calls →
      Sweep s sort sorted start level (s.regionCall sorted moves start i lower :: calls)

theorem Treats.run_cases (treats : Treats s sort sorted treated moves start level i lower) (placed : s.Placed)
    (ascends : s.Ascends sorted) :
    (∃ more next, (s.regionCall sorted moves start i lower).run sort =
        .ok (List.replicate s.dag.nodes.length false) (s.moved next) ∧ Stage s sort sorted more next i lower) ∨
      (s.regionCall sorted moves start i lower).run sort = .error cycleDetected (s.moved moves) :=
  (treats.stage.region_cases placed ascends treats.before.le treats.heads treats.tails treats.inside).imp_right
    fun failed => failed.1

omit [DecidableEq Ptr] in
theorem region_concat {e : Edge Ptr} (here : sorted.drop i = e :: rest) (upTo : start ≤ i) :
    (sorted.drop start).take (i + 1 - start) = (sorted.drop start).take (i - start) ++ [e] := by
  rw [show i + 1 - start = i - start + 1 by omega, List.take_add, List.drop_drop,
    show start + (i - start) = i by omega, here]
  rfl

omit [DecidableEq Ptr] in
/-- A new region consists of the slots between the ends of its first edge. -/
theorem covers_single {x y : Ptr} {slot : ℕ} (here : sorted.drop i = (x, y) :: rest)
    (falls : s.heap.index y ≤ s.heap.index x) (below : s.heap.index x < lower) (atSlot : s.heap.index y = slot) :
    ∀ k : ℕ, min slot lower ≤ k →
      (∃ e ∈ (sorted.drop i).take (i + 1 - i), (k : ℤ) ≤ s.heap.index e.1) →
      ∃ e ∈ (sorted.drop i).take (i + 1 - i), s.heap.index e.2 ≤ k ∧ (k : ℤ) ≤ s.heap.index e.1 := by
  rw [region_concat here le_rfl, Nat.sub_self, List.take_zero, List.nil_append]
  rintro k low ⟨e, member, high⟩
  obtain rfl := List.mem_singleton.mp member
  refine ⟨(x, y), List.mem_singleton_self _, ?_, high⟩
  dsimp only
  omega

omit [DecidableEq Ptr] in
/-- An edge whose tail is not below the region extends it without a gap. -/
theorem covers_concat (placed : s.Placed) (lists : s.Lists sorted) {x y : Ptr} {slot : ℕ}
    (here : sorted.drop i = (x, y) :: rest)
    (begun : start < i ∨ start = 0 ∧ i = 0 ∧ lower = s.dag.nodes.length)
    (joins : (lower : ℤ) ≤ s.heap.index x ∨ i = 0)
    (covers : ∀ slot : ℕ, lower ≤ slot →
      (∃ e ∈ (sorted.drop start).take (i - start), (slot : ℤ) ≤ s.heap.index e.1) →
      ∃ e ∈ (sorted.drop start).take (i - start), s.heap.index e.2 ≤ slot ∧ (slot : ℤ) ≤ s.heap.index e.1)
    (atSlot : s.heap.index y = slot) :
    ∀ k : ℕ, min slot lower ≤ k →
      (∃ e ∈ (sorted.drop start).take (i + 1 - start), (k : ℤ) ≤ s.heap.index e.1) →
      ∃ e ∈ (sorted.drop start).take (i + 1 - start),
        s.heap.index e.2 ≤ k ∧ (k : ℤ) ≤ s.heap.index e.1 := by
  rw [region_concat here (by omega)]
  rintro k low ⟨e, member, high⟩
  have inSorted : (x, y) ∈ sorted := List.mem_of_mem_drop (by rw [here]; exact List.mem_cons_self)
  have ends := lists.members (x, y) inSorted
  obtain old | new := le_or_gt lower k
  · -- the tails of the region are not below the tail of the edge
    have inRegion : ∃ f ∈ (sorted.drop start).take (i - start), (k : ℤ) ≤ s.heap.index f.1 := by
      obtain inside | last := List.mem_append.mp member
      · exact ⟨e, inside, high⟩
      · obtain rfl := List.mem_singleton.mp last
        obtain before | ⟨_, _, all⟩ := begun
        · obtain ⟨f, listed⟩ : ∃ f, f ∈ (sorted.drop start).take (i - start) := by
            refine exists_mem_region before ?_
            have := congrArg List.length here
            simp only [List.length_drop, List.length_cons] at this
            omega
          have order := lists.descending
          rw [← List.take_append_drop i sorted, here] at order
          have above := (List.pairwise_append.mp order).2.2 f (region_subset_take sorted before.le listed) (x, y)
            List.mem_cons_self
          exact ⟨f, listed, high.trans above⟩
        · have bound : s.heap.index x < s.dag.nodes.length := (placed.numbered.bounds ends.1).2
          dsimp only at high
          omega
    obtain ⟨f, listed, between⟩ := covers k old inRegion
    exact ⟨f, List.mem_append_left _ listed, between⟩
  · have below : (k : ℤ) ≤ s.heap.index x := by
      obtain above | first := joins
      · omega
      · have empty : (sorted.drop start).take (i - start) = [] := by rw [first, Nat.zero_sub, List.take_zero]
        rw [empty, List.nil_append] at member
        obtain rfl := List.mem_singleton.mp member
        exact high
    refine ⟨(x, y), List.mem_append_right _ (List.mem_singleton_self _), ?_, below⟩
    dsimp only
    omega

section Calls

variable {x y : Ptr} {bound : ℤ} {vacant vacant' : List Bool} {t u : Store Ptr} {e : Fault}

theorem regionCalls_cut (split : t.heap.index x < bound ∧ i > 0)
    (returned : (⟨(sorted.drop start).take (i - start), bound, vacant, t⟩ : RegionCall Ptr).run sort =
      .ok vacant' u) :
    regionCalls sort sorted ((x, y) :: rest) i start bound vacant t =
      ⟨(sorted.drop start).take (i - start), bound, vacant, t⟩ ::
        regionCalls sort sorted rest (i + 1) i (min (u.heap.index y) bound) vacant' u := by
  rw [regionCalls, if_pos (show (t.heap x).index < bound ∧ i > 0 from split)]
  simp only [returned]
  rfl

theorem regionCalls_cut_error (split : t.heap.index x < bound ∧ i > 0)
    (failed : (⟨(sorted.drop start).take (i - start), bound, vacant, t⟩ : RegionCall Ptr).run sort = .error e u) :
    regionCalls sort sorted ((x, y) :: rest) i start bound vacant t =
      [⟨(sorted.drop start).take (i - start), bound, vacant, t⟩] := by
  rw [regionCalls, if_pos (show (t.heap x).index < bound ∧ i > 0 from split)]
  simp only [failed]

theorem regionCalls_join (joins : ¬ (t.heap.index x < bound ∧ i > 0)) :
    regionCalls sort sorted ((x, y) :: rest) i start bound vacant t =
      regionCalls sort sorted rest (i + 1) start (min (t.heap.index y) bound) vacant t := by
  rw [regionCalls, if_neg (show ¬ ((t.heap x).index < bound ∧ i > 0) from joins)]
  rfl

end Calls

/-- The loop over the sorted edges treats one region after the other. -/
theorem regionCalls_sweep (placed : s.Placed) (ascends : s.Ascends sorted) (lists : s.Lists sorted)
    (nonempty : sorted ≠ []) (here : sorted.drop i = rest) (stage : Stage s sort sorted treated moves start level)
    (begun : start < i ∨ start = 0 ∧ i = 0 ∧ lower = s.dag.nodes.length) (room : start < sorted.length)
    (heads : ∀ e ∈ sorted.take i, (lower : ℤ) ≤ s.heap.index e.2) (inside : lower ≤ s.dag.nodes.length)
    (covers : ∀ slot : ℕ, lower ≤ slot →
      (∃ e ∈ (sorted.drop start).take (i - start), (slot : ℤ) ≤ s.heap.index e.1) →
      ∃ e ∈ (sorted.drop start).take (i - start), s.heap.index e.2 ≤ slot ∧ (slot : ℤ) ≤ s.heap.index e.1) :
    Sweep s sort sorted start level (regionCalls sort sorted rest i start lower
      (List.replicate s.dag.nodes.length false) (s.moved moves)) := by
  induction rest generalizing i start treated moves level lower with
  | nil =>
    have whole : sorted.length ≤ i := List.drop_eq_nil_iff.mp here
    have before : start < i := begun.resolve_right fun first => by
      have := List.length_pos_of_ne_nil nonempty
      omega
    have region : (sorted.drop start).take (i - start) = sorted.drop start :=
      List.take_of_length_le (by rw [List.length_drop]; omega)
    have treats : Treats s sort sorted treated moves start level i lower :=
      ⟨stage, before, room, heads, fun e member => by simp [here] at member, inside, covers⟩
    have same : regionCalls sort sorted [] i start lower (List.replicate s.dag.nodes.length false) (s.moved moves) =
        [s.regionCall sorted moves start i lower] := by
      rw [regionCalls, regionCall, region]
    rw [same]
    obtain ⟨more, next, returned, _⟩ | failed := treats.run_cases placed ascends
    · exact .next treats (.done here)
    · exact .fails treats failed
  | cons e rest ih =>
    obtain ⟨x, y⟩ := e
    have later : sorted.drop (i + 1) = rest := by
      rw [← List.drop_drop, here]
      rfl
    have current : (x, y) ∈ sorted.drop i := by
      rw [here]
      exact List.mem_cons_self
    have room' : i < sorted.length := by
      by_contra beyond
      rw [List.drop_of_length_le (by omega)] at here
      contradiction
    have upTo : start ≤ i := by omega
    have inRegion : (x, y) ∈ sorted.drop start := List.drop_subset_drop_left sorted upTo current
    have ends := lists.members _ (List.mem_of_mem_drop current)
    have falls := lists.invalidating _ (List.mem_of_mem_drop current)
    obtain ⟨slot, slotBound, _, atSlot⟩ := placed.numbered.exists_slot ends.2
    have lowest : min (s.heap.index y) (lower : ℤ) = ((min slot lower : ℕ) : ℤ) := by
      rw [show s.heap.index y = slot from atSlot]
      omega
    have headsNext : ∀ f ∈ sorted.take (i + 1), ((min slot lower : ℕ) : ℤ) ≤ s.heap.index f.2 := by
      intro f member
      rw [List.take_add, here, List.mem_append] at member
      cases member with
      | inl early =>
        have := heads f early
        omega
      | inr last =>
        obtain rfl := List.mem_singleton.mp last
        dsimp only at atSlot ⊢
        omega
    obtain ⟨tail, head⟩ := stage.index_eq placed inRegion
    by_cases split : s.heap.index x < lower ∧ i > 0
    · have before : start < i := by omega
      have treats : Treats s sort sorted treated moves start level i lower :=
        ⟨stage, before, room, heads, fun f member => (Lists.tail_le lists here f member).trans_lt split.1, inside,
          covers⟩
      have cut : (s.moved moves).heap.index x < lower ∧ i > 0 := by rwa [tail]
      obtain ⟨more, next, returned, nextStage⟩ | failed := treats.run_cases placed ascends
      · rw [regionCalls_cut cut returned, (nextStage.index_eq placed current).2, lowest]
        refine .next treats (ih later nextStage (.inl (by omega)) room' headsNext (by omega) ?_)
        exact covers_single here falls split.1 atSlot
      · rw [regionCalls_cut_error cut failed]
        exact .fails treats failed
    · rw [regionCalls_join (by rwa [tail]), head, lowest]
      exact ih later stage (.inl (by omega)) room headsNext (by omega)
        (covers_concat placed lists here begun (by omega) covers atSlot)

/-- The calls follow each other, each on the flags and the store that the one before left, and end with the
outcome. -/
inductive CallsRun (sort : StdSort (Edge Ptr)) :
    List (RegionCall Ptr) → List Bool → Store Ptr → EStateM.Result Fault (Store Ptr) Unit → Prop
  | done (vacant : List Bool) (s : Store Ptr) : CallsRun sort [] vacant s (.ok () s)
  | fails {region : List (Edge Ptr)} {bound : ℤ} {vacant : List Bool} {s t : Store Ptr} {e : Fault} :
      processRegion sort region bound vacant s = .error e t →
      CallsRun sort [⟨region, bound, vacant, s⟩] vacant s (.error e t)
  | next {region : List (Edge Ptr)} {bound : ℤ} {vacant vacant' : List Bool} {s t : Store Ptr}
      {calls : List (RegionCall Ptr)} {outcome : EStateM.Result Fault (Store Ptr) Unit} :
      processRegion sort region bound vacant s = .ok vacant' t → CallsRun sort calls vacant' t outcome →
      CallsRun sort (⟨region, bound, vacant, s⟩ :: calls) vacant s outcome

theorem CallsRun.returned {vacant : List Bool} {outcome : EStateM.Result Fault (Store Ptr) Unit} {t : Store Ptr}
    (run : CallsRun sort calls vacant s outcome) (ok : outcome = .ok () t) :
    ∀ call ∈ calls, ∃ vacant u, call.run sort = .ok vacant u := by
  induction run with
  | done => simp
  | fails => cases ok
  | next returned _ ih => exact List.forall_mem_cons.mpr ⟨⟨_, _, returned⟩, ih ok⟩

theorem regionCalls_run (bound : ℤ) (vacant : List Bool) (t : Store Ptr) :
    CallsRun sort (regionCalls sort sorted rest i start bound vacant t) vacant t
      (match regionLoop sort sorted rest i start bound vacant t with
        | .error e t => .error e t
        | .ok (start, bound, vacant) t =>
          match processRegion sort (sorted.drop start) bound vacant t with
          | .error e t => .error e t
          | .ok _ t => .ok () t) := by
  induction rest generalizing i start bound vacant t with
  | nil =>
    rw [regionLoop, regionCalls]
    simp only [pure, EStateM.pure]
    cases outcome : processRegion sort (sorted.drop start) bound vacant t with
    | error e u => exact .fails outcome
    | ok vacant u => exact .next outcome (.done _ _)
  | cons e rest ih =>
    obtain ⟨x, y⟩ := e
    rw [regionLoop_cons]
    by_cases split : t.heap.index x < bound ∧ i > 0
    · rw [if_pos split]
      cases outcome : processRegion sort ((sorted.drop start).take (i - start)) bound vacant t with
      | error e u =>
        rw [regionCalls_cut_error split outcome]
        exact .fails outcome
      | ok vacant u =>
        rw [regionCalls_cut split outcome]
        exact .next outcome (ih _ _ _)
    · rw [if_neg split, regionCalls_join split]
      exact ih _ _ _

theorem insertEdgesCalls_eq (s : Store Ptr) (edges : List (Edge Ptr)) (sort : StdSort (Edge Ptr)) :
    insertEdgesCalls sort edges s =
      if (s.invalidating edges).isEmpty then []
      else regionCalls sort (Store.treated sort edges s) (Store.treated sort edges s) 0 0 s.dag.nodes.length
        (List.replicate s.dag.nodes.length false) (appendAll edges s) := by
  have appended : (appendEdges s.heap edges) = ((appendAll edges s).heap, s.invalidating edges) :=
    appendEdges_eq s.heap edges
  rw [insertEdgesCalls, appended]
  rfl

/-- A call of `insert_edges` is the run of its regions on the updated graph. -/
theorem insertEdges_callsRun (s : Store Ptr) (edges : List (Edge Ptr)) (sort : StdSort (Edge Ptr)) :
    CallsRun sort (insertEdgesCalls sort edges s) (List.replicate s.dag.nodes.length false) (appendAll edges s)
      (insertEdges sort edges s) := by
  rw [insertEdgesCalls_eq, insertEdges_eq]
  by_cases harmless : (s.invalidating edges).isEmpty
  · rw [if_pos harmless, if_pos harmless]
    exact .done _ _
  · rw [if_neg harmless, if_neg harmless]
    exact regionCalls_run _ _ _

/-- All searches of a call charge for the nodes that the batch reaches, each once. -/
theorem Sweep.searches_le {charge : SearchCharge Ptr} {abstract : (Ptr → Bool) → DepthFirst.State Ptr → ℕ}
    {weight : Ptr → ℕ} (sweep : Sweep s sort sorted start level calls) (placed : s.Placed)
    (ascends : s.Ascends sorted)
    (same : ∀ t : Store Ptr, t.Placed → t.heap.succ = s.heap.succ → charge.Abstracts t.heap t.dag.nodes abstract)
    (affords : DepthFirst.Affords s.heap.succ cycleDetected Fault.outOfFuel abstract weight) {reached : Finset Ptr}
    (all : ∀ v ∈ s.dag.nodes, (∃ e ∈ sorted, ReachBelow s.heap.succ s.heap.index e.1 e.2 v) → v ∈ reached) :
    (calls.map (RegionCall.searchSpent charge sort)).sum ≤
      ∑ v ∈ reached with s.heap.index v < level, weight v := by
  have covered {part : List Ptr} {level lower : ℕ} (unique : part.Nodup)
      (taken : ∀ v ∈ part, v ∈ s.dag.nodes ∧
        (∃ e ∈ sorted, ReachBelow s.heap.succ s.heap.index e.1 e.2 v) ∧
        (lower : ℤ) ≤ s.heap.index v ∧ s.heap.index v < level) :
      part.toFinset ⊆ {v ∈ reached | s.heap.index v < level} := by
    intro v member
    obtain ⟨inside, reach, _, below⟩ := taken v (List.mem_toFinset.mp member)
    exact Finset.mem_filter.mpr ⟨all v inside reach, below⟩
  induction sweep with
  | done => exact Nat.zero_le _
  | fails treats _ =>
    obtain ⟨part, unique, taken, bound⟩ := treats.searchSpent_le placed ascends same affords
    rw [List.map_singleton, List.sum_singleton]
    refine bound.trans ?_
    rw [← List.sum_toFinset _ unique]
    exact Finset.sum_le_sum_of_subset (covered unique taken)
  | @next _ _ _ level i lower calls treats _ ih =>
    obtain ⟨part, unique, taken, bound⟩ := treats.searchSpent_le placed ascends same affords
    rw [List.map_cons, List.sum_cons]
    refine (Nat.add_le_add bound ih).trans ?_
    rw [← List.sum_toFinset _ unique, ← Finset.sum_union ?apart]
    case apart =>
      refine Finset.disjoint_left.mpr fun v inPart below => ?_
      have low := (taken v (List.mem_toFinset.mp inPart)).2.2.1
      have := (Finset.mem_filter.mp below).2
      omega
    refine Finset.sum_le_sum_of_subset (Finset.union_subset (covered unique taken) fun v below => ?_)
    obtain ⟨member, low⟩ := Finset.mem_filter.mp below
    exact Finset.mem_filter.mpr ⟨member, by have := treats.lower_lt; omega⟩

/-- The slots between the ends of an edge that does not ascend. -/
def affected (s : Store Ptr) (edges : List (Edge Ptr)) : Finset ℕ :=
  {slot ∈ Finset.range s.dag.nodes.length |
    ∃ e ∈ edges, s.heap.index e.2 ≤ slot ∧ (slot : ℤ) ≤ s.heap.index e.1}

omit [DecidableEq Ptr] in
theorem mem_affected {edges : List (Edge Ptr)} {slot : ℕ} : slot ∈ s.affected edges ↔
    slot < s.dag.nodes.length ∧ ∃ e ∈ edges, s.heap.index e.2 ≤ slot ∧ (slot : ℤ) ≤ s.heap.index e.1 := by
  rw [affected, Finset.mem_filter, Finset.mem_range]

/-- The slots of a region are an interval above those of the later regions. -/
theorem Treats.affected_card (treats : Treats s sort sorted treated moves start level i lower) (placed : s.Placed)
    (lists : s.Lists sorted) {top : ℕ}
    (reached : ∃ e ∈ (sorted.drop start).take (i - start), s.heap.index e.1 = top)
    (bounded : ∀ e ∈ (sorted.drop start).take (i - start), s.heap.index e.1 ≤ top) :
    (s.affected (sorted.drop start)).card = (top + 1 - lower) + (s.affected (sorted.drop i)).card := by
  obtain ⟨last, listed, atTop⟩ := reached
  have inside : top < s.dag.nodes.length := by
    have member := (lists.members last (List.mem_of_mem_drop (List.mem_of_mem_take listed))).1
    have := (placed.numbered.bounds member).2
    omega
  have parts : s.affected (sorted.drop start) = Finset.Ico lower (top + 1) ∪ s.affected (sorted.drop i) := by
    ext slot
    rw [Finset.mem_union, Finset.mem_Ico, mem_affected, mem_affected, ← region_append_drop sorted treats.before.le]
    constructor
    · rintro ⟨room, e, member, low, high⟩
      obtain here | later := List.mem_append.mp member
      · have := treats.heads e (region_subset_take sorted treats.before.le here)
        have := bounded e here
        exact .inl (by omega)
      · exact .inr ⟨room, e, later, low, high⟩
    · rintro (⟨low, high⟩ | ⟨room, e, member, between⟩)
      · obtain ⟨e, member, between⟩ := treats.covers slot low ⟨last, listed, by omega⟩
        exact ⟨by omega, e, List.mem_append_left _ member, between⟩
      · exact ⟨room, e, List.mem_append_right _ member, between⟩
  have apart : Disjoint (Finset.Ico lower (top + 1)) (s.affected (sorted.drop i)) := by
    refine Finset.disjoint_left.mpr fun slot here there => ?_
    obtain ⟨_, e, member, _, high⟩ := mem_affected.mp there
    have := treats.tails e member
    have := (Finset.mem_Ico.mp here).1
    omega
  rw [parts, Finset.card_union_of_disjoint apart, Nat.card_Ico]

/-- Every affected slot costs at most one round of `shift`, and exactly one if no search fails. -/
theorem Sweep.shifts_card (sweep : Sweep s sort sorted start level calls) (placed : s.Placed)
    (ascends : s.Ascends sorted) (lists : s.Lists sorted) :
    (calls.map (RegionCall.shiftRounds sort)).sum ≤ (s.affected (sorted.drop start)).card ∧
      ((∀ call ∈ calls, ∃ vacant t, call.run sort = .ok vacant t) →
        (calls.map (RegionCall.shiftRounds sort)).sum = (s.affected (sorted.drop start)).card) := by
  induction sweep with
  | done ended =>
    rw [ended]
    exact ⟨Nat.zero_le _, fun _ => by simp [affected]⟩
  | fails treats failed =>
    obtain ⟨top, reached, bounded, rounds | ⟨rounds, _⟩⟩ := treats.shiftRounds_cases placed ascends
    all_goals
      have card := treats.affected_card placed lists reached bounded
      refine ⟨by rw [List.map_singleton, List.sum_singleton]; omega, fun returned => ?_⟩
      obtain ⟨_, _, returned⟩ := returned _ (List.mem_singleton_self _)
      rw [failed] at returned
      contradiction
  | next treats _ ih =>
    obtain ⟨top, reached, bounded, rounds | ⟨rounds, _, _, failed⟩⟩ := treats.shiftRounds_cases placed ascends
    all_goals
      have card := treats.affected_card placed lists reached bounded
      rw [List.map_cons, List.sum_cons, card]
    · refine ⟨by have := ih.1; omega, fun returned => ?_⟩
      have := ih.2 (List.forall_mem_cons.mp returned).2
      omega
    · refine ⟨by have := ih.1; omega, fun returned => ?_⟩
      obtain ⟨_, _, returned⟩ := (List.forall_mem_cons.mp returned).1
      rw [failed] at returned
      contradiction

section Total

variable {edges : List (Edge Ptr)}

/-- The regions of a call, on the updated graph. -/
theorem insertEdges_sweep (sorted : s.Sorted) (spans : s.Spans edges) (sort : StdSort (Edge Ptr)) :
    (appendAll edges s).Ascends (Store.treated sort edges s) ∧
      (appendAll edges s).Lists (Store.treated sort edges s) ∧
      Sweep (appendAll edges s) sort (Store.treated sort edges s) 0 s.dag.nodes.length
        (insertEdgesCalls sort edges s) := by
  have placed := sorted.appendAll_placed spans
  have lists : (appendAll edges s).Lists (Store.treated sort edges s) := spans.lists sort
  have perm : (Store.treated sort edges s).Perm (s.invalidating edges) :=
    sort.perm _ _ (byTail_strictWeakOrder (appendAll edges s).heap)
  have ascends : (appendAll edges s).Ascends (Store.treated sort edges s) := by
    intro v member w edge
    rw [appendAll_index]
    exact (sorted.ascends_or member edge).imp_right perm.mem_iff.mpr
  refine ⟨ascends, lists, ?_⟩
  rw [insertEdgesCalls_eq]
  by_cases harmless : (s.invalidating edges).isEmpty
  · rw [if_pos harmless]
    rw [List.isEmpty_iff.mp harmless, List.perm_nil] at perm
    exact .done (by rw [perm, List.drop_nil])
  · rw [if_neg harmless]
    have nonempty : Store.treated sort edges s ≠ [] := fun none => by
      rw [none] at perm
      exact harmless (List.isEmpty_iff.mpr perm.nil_eq.symm)
    have start : (appendAll edges s).Stage sort (Store.treated sort edges s) [] [] 0 s.dag.nodes.length :=
      ⟨.refl _, fun _ => rfl, lists, rfl, Frontier.nil _ _, fun m member => absurd member List.not_mem_nil,
        fun e member => (placed.numbered.bounds (lists.members e member).1).2⟩
    have swept := regionCalls_sweep placed ascends lists nonempty rfl start (.inr ⟨rfl, rfl, rfl⟩)
      (List.length_pos_of_ne_nil nonempty) (by simp) le_rfl (by simp)
    rwa [moved_nil placed] at swept

theorem affected_treated (sort : StdSort (Edge Ptr)) :
    (appendAll edges s).affected (Store.treated sort edges s) = s.affected edges := by
  ext slot
  rw [mem_affected, mem_affected, appendAll_index, appendAll_nodes]
  refine and_congr_right fun _ => exists_congr fun e => and_congr_left fun between => ?_
  rw [treated, mem_of_sort (.refl _), mem_invalidating, and_iff_left (between.1.trans between.2)]

open Classical in
/-- The searches of a call are paid for by the nodes that it reads. -/
theorem insertEdges_searches_le {charge : SearchCharge Ptr} {abstract : (Ptr → Bool) → DepthFirst.State Ptr → ℕ}
    {weight : Ptr → ℕ} (sorted : s.Sorted) (spans : s.Spans edges) (sort : StdSort (Edge Ptr))
    (same : ∀ t : Store Ptr, t.Placed → t.heap.succ = (appendAll edges s).heap.succ →
      charge.Abstracts t.heap t.dag.nodes abstract)
    (affords : DepthFirst.Affords (appendAll edges s).heap.succ cycleDetected Fault.outOfFuel abstract weight) :
    insertEdgesSearches charge sort edges s ≤ ∑ v ∈ s.dag.nodes.toFinset with s.Reads edges v, weight v := by
  have placed := sorted.appendAll_placed spans
  obtain ⟨ascends, _, sweep⟩ := insertEdges_sweep sorted spans sort
  have all : ∀ v ∈ (appendAll edges s).dag.nodes, (∃ e ∈ Store.treated sort edges s,
      ReachBelow (appendAll edges s).heap.succ (appendAll edges s).heap.index e.1 e.2 v) →
      v ∈ ({v ∈ s.dag.nodes.toFinset | s.Reads edges v} : Finset Ptr) := by
    rintro v member ⟨e, listed, reach⟩
    rw [appendAll_index] at reach
    exact Finset.mem_filter.mpr ⟨List.mem_toFinset.mpr member, e, (mem_of_sort (.refl _)).mp listed, reach⟩
  exact (sweep.searches_le placed ascends same affords all).trans
    (Finset.sum_le_sum_of_subset (Finset.filter_subset _ _))

open Classical in
theorem insertEdges_rounds_le (sorted : s.Sorted) (spans : s.Spans edges) (sort : StdSort (Edge Ptr)) :
    insertEdgesSearches .round sort edges s ≤ ∑ v ∈ s.dag.nodes.toFinset with s.Reads edges v, 2 :=
  insertEdges_searches_le sorted spans sort (fun t _ _ => round_abstracts t.heap t.dag.nodes)
    (DepthFirst.rounds_affordable _ _ _)

open Classical in
theorem insertEdges_looks_le (sorted : s.Sorted) (spans : s.Spans edges) (sort : StdSort (Edge Ptr)) :
    insertEdgesSearches .looks sort edges s ≤ ∑ v ∈ s.dag.nodes.toFinset with s.Reads edges v,
      ((appendAll edges s).heap v).outgoingEdges.length *
        (((appendAll edges s).heap v).outgoingEdges.length + 3) / 2 :=
  insertEdges_searches_le sorted spans sort
    (fun _ here same => same ▸ looks_abstracts here.numbered here.closed) (DepthFirst.looks_affordable _ _ _)

/-- The rounds of `shift` are the affected slots. -/
theorem insertEdges_shifts (sorted : s.Sorted) (spans : s.Spans edges) (sort : StdSort (Edge Ptr)) :
    insertEdgesShifts sort edges s ≤ (s.affected edges).card ∧
      ∀ t, insertEdges sort edges s = .ok () t → insertEdgesShifts sort edges s = (s.affected edges).card := by
  obtain ⟨ascends, lists, sweep⟩ := insertEdges_sweep sorted spans sort
  have shifts := sweep.shifts_card (sorted.appendAll_placed spans) ascends lists
  rw [List.drop_zero, affected_treated] at shifts
  exact ⟨shifts.1, fun t returned => shifts.2 ((insertEdges_callsRun s edges sort).returned returned)⟩

open Classical in
/-- The work of a call that returns or throws: `shift` makes at most one round for every slot between the
ends of an invalidating edge, and exactly one if the call returns. All searches together make at most two
rounds for every node that an invalidating edge reaches below its tail, where its head counts in any case, that
of a self-loop too. They look at the outgoing edges of these nodes only, at no more than `d * (d + 3) / 2` where
a node has `d`. -/
theorem insertEdges_work (sorted : s.Sorted) (spans : s.Spans edges) (sort : StdSort (Edge Ptr)) :
    insertEdgesShifts sort edges s ≤ (s.affected edges).card ∧
      (∀ t, insertEdges sort edges s = .ok () t → insertEdgesShifts sort edges s = (s.affected edges).card) ∧
      insertEdgesSearches .round sort edges s ≤ 2 * {v ∈ s.dag.nodes.toFinset | s.Reads edges v}.card ∧
      insertEdgesSearches .looks sort edges s ≤ ∑ v ∈ s.dag.nodes.toFinset with s.Reads edges v,
        ((appendAll edges s).heap v).outgoingEdges.length *
          (((appendAll edges s).heap v).outgoingEdges.length + 3) / 2 := by
  obtain ⟨shifts, exactly⟩ := insertEdges_shifts sorted spans sort
  refine ⟨shifts, exactly, (insertEdges_rounds_le sorted spans sort).trans_eq ?_,
    insertEdges_looks_le sorted spans sort⟩
  rw [Finset.sum_const_nat fun v _ => rfl, Nat.mul_comm]

/-- On three nodes without edges, the edge from the last to the first costs a round for each slot. -/
theorem insertEdges_work_first : insertEdgesShifts (.insertion _) [(2, 0)] (edgeless 3) = 3 := by
  have returned : ∃ t, insertEdges (.insertion _) [(2, 0)] (edgeless 3) = .ok () t := ⟨_, rfl⟩
  obtain ⟨t, returned⟩ := returned
  rw [(insertEdges_work ⟨by decide, edgeless_wired 3⟩ (by decide) (.insertion _)).2.1 t returned]
  decide

omit [DecidableEq Ptr] in
/-- The sort of a single edge. -/
theorem sort_singleton (sort : StdSort (Edge Ptr)) (heap : Heap Ptr) (e : Edge Ptr) :
    sort.sort (byTail heap) [e] = [e] :=
  List.perm_singleton.mp (sort.perm _ _ (byTail_strictWeakOrder heap))

/-- The call for a single invalidating edge searches once. -/
theorem insertEdgesSearches_single {charge : SearchCharge Ptr}
    {abstract : (Ptr → Bool) → DepthFirst.State Ptr → ℕ} (sorted : s.Sorted) {x y : Ptr}
    (tail : x ∈ s.dag.nodes) (head : y ∈ s.dag.nodes) (back : s.heap.index y ≤ s.heap.index x)
    (same : charge.Abstracts (appendAll [(x, y)] s).heap (appendAll [(x, y)] s).dag.nodes abstract)
    (sort : StdSort (Edge Ptr)) : insertEdgesSearches charge sort [(x, y)] s =
      spent (abstract (untaken (appendAll [(x, y)] s).heap [] ((appendAll [(x, y)] s).heap.index x)))
        (DepthFirst.step cycleDetected (appendAll [(x, y)] s).heap.succ
          (untaken (appendAll [(x, y)] s).heap [] ((appendAll [(x, y)] s).heap.index x)))
        (2 * s.dag.nodes.length) ⟨[y], []⟩ := by
  have spans : s.Spans [(x, y)] := List.forall_mem_singleton.mpr ⟨tail, head⟩
  have placed := sorted.appendAll_placed spans
  have invalid : s.invalidating [(x, y)] = [(x, y)] := by
    rw [invalidating, List.filter_singleton, decide_eq_true back]
    rfl
  have treatedAs : Store.treated sort [(x, y)] s = [(x, y)] := by rw [treated, invalid, sort_singleton]
  have calls : insertEdgesSearches charge sort [(x, y)] s =
      searchSpent charge y ((appendAll [(x, y)] s).heap.index x) [] (appendAll [(x, y)] s).heap
        (appendAll [(x, y)] s).dag.nodes (flags (appendAll [(x, y)] s).dag.nodes []) := by
    have unflagged := read_flag placed.numbered [] head
    rw [flags_nil] at unflagged ⊢
    rw [insertEdgesSearches, insertEdgesCalls_eq, invalid, treatedAs]
    simp only [List.isEmpty_cons, Bool.false_eq_true, ↓reduceIte, regionCalls, gt_iff_lt, lt_irrefl, and_false,
      List.drop_zero, List.map_cons, List.map_nil, List.sum_singleton, RegionCall.searchSpent, sort_singleton]
    rw [discoverSpent, show s.dag.nodes = (appendAll [(x, y)] s).dag.nodes from rfl, unflagged]
    cases discoverEdge (appendAll [(x, y)] s).heap (appendAll [(x, y)] s).dag.nodes
      ([], List.replicate (appendAll [(x, y)] s).dag.nodes.length false) (x, y) <;> rfl
  rw [calls]
  exact searchSpent_eq placed.numbered placed.closed same head tail [] []

/-- The edge from `x` back to `y` leads into a fan: `d` neighbours of `y` below `x`, without outgoing edges. -/
structure Fan (s : Store Ptr) (x y : Ptr) (d : ℕ) : Prop where
  tail : x ∈ s.dag.nodes
  head : y ∈ s.dag.nodes
  back : s.heap.index y < s.heap.index x
  unique : (s.heap y).outgoingEdges.Nodup
  size : (s.heap y).outgoingEdges.length = d
  leaves : ∀ w ∈ (s.heap y).outgoingEdges, s.heap.index w < s.heap.index x ∧ (s.heap w).outgoingEdges = []

theorem Fan.looks {x y : Ptr} {d : ℕ} (fan : s.Fan x y d) (sorted : s.Sorted) (sort : StdSort (Edge Ptr)) :
    insertEdgesSearches .looks sort [(x, y)] s = d * (d + 3) / 2 := by
  have spans : s.Spans [(x, y)] := List.forall_mem_singleton.mpr ⟨fan.tail, fan.head⟩
  have placed := sorted.appendAll_placed spans
  have unchanged {v : Ptr} (other : v ≠ x) : (appendAll [(x, y)] s).heap.succ v = (s.heap v).outgoingEdges := by
    simp [Heap.succ, appendAll_outgoing, headsFrom, other.symm]
  have loopless : y ∉ (s.heap y).outgoingEdges := fun loop => (sorted.ascends fan.head loop).ne rfl
  have off : y ≠ x := fun same => (same ▸ fan.back).ne rfl
  have fanOut : (appendAll [(x, y)] s).heap.succ y = (s.heap y).outgoingEdges := unchanged off
  rw [insertEdgesSearches_single sorted fan.tail fan.head fan.back.le
    (looks_abstracts placed.numbered placed.closed)]
  refine (DepthFirst.spent_looks_fan cycleDetected ?leaves ?usable ?apart (by rw [fanOut]; exact fan.unique)
    ?enough).trans (by rw [fanOut, DepthFirst.effort, fan.size])
  case leaves =>
    rw [fanOut]
    intro w member
    rw [unchanged fun same => (same ▸ (fan.leaves w member).1).ne rfl]
    exact (fan.leaves w member).2
  case usable =>
    rw [fanOut, appendAll_index]
    intro w member
    have below := (fan.leaves w member).1
    simpa [untaken, appendAll_index] using below
  case apart =>
    rw [fanOut]
    exact loopless
  case enough =>
    rw [fanOut]
    have inside : y :: (s.heap y).outgoingEdges ⊆ s.dag.nodes :=
      List.cons_subset.mpr ⟨fan.head, sorted.wired.outgoing y fan.head⟩
    have fits := ((List.nodup_cons.mpr ⟨loopless, fan.unique⟩).subperm inside).length_le
    rw [List.length_cons] at fits
    omega

/-- The edges from the first node to the next `d`. -/
def fanEdges (d : ℕ) : List (Edge ℕ) := (List.range d).map fun i => (0, i + 1)

theorem mem_fanEdges {d : ℕ} {e : Edge ℕ} : e ∈ fanEdges d ↔ e.1 = 0 ∧ 0 < e.2 ∧ e.2 ≤ d := by
  simp only [fanEdges, List.mem_map, List.mem_range, Prod.ext_iff]
  constructor
  · rintro ⟨i, early, first, second⟩
    omega
  · rintro ⟨first, positive, last⟩
    exact ⟨e.2 - 1, by omega, by omega, by omega⟩

/-- There is a fan of every size. -/
theorem exists_fan (d : ℕ) : ∃ s : Store ℕ, s.Sorted ∧ ∃ x y, s.Fan x y d := by
  have spans : (edgeless (d + 2)).Spans (fanEdges d) := by
    intro e member
    have ends := mem_fanEdges.mp member
    simp only [edgeless, List.mem_range]
    omega
  have wired := (edgeless_wired (d + 2)).appendAll spans
  have outgoing (v : ℕ) : ((appendAll (fanEdges d) (edgeless (d + 2))).heap v).outgoingEdges =
      headsFrom (fanEdges d) v := appendAll_outgoing v
  have index (v : ℕ) : (appendAll (fanEdges d) (edgeless (d + 2))).heap.index v = v := by
    rw [appendAll_index]
    rfl
  have ascends : ∀ v w, w ∈ headsFrom (fanEdges d) v → v < w := by
    intro v w edge
    have ends := mem_fanEdges.mp (mem_headsFrom.mp edge)
    omega
  have heads : headsFrom (fanEdges d) 0 = (List.range d).map fun i => i + 1 := by
    have all : (fanEdges d).filter (fun e => decide (e.1 = 0)) = fanEdges d :=
      List.filter_eq_self.mpr fun e member => decide_eq_true (mem_fanEdges.mp member).1
    rw [headsFrom, all, fanEdges, List.map_map]
    rfl
  have sorted : (appendAll (fanEdges d) (edgeless (d + 2))).Sorted := by
    refine ⟨wired.inOrder (fun i bound => ?_) fun v _ w edge => ?_, wired⟩
    · rw [index]
      simp [edgeless]
    · rw [Heap.succ, outgoing] at edge
      rw [index, index]
      exact_mod_cast ascends v w edge
  refine ⟨_, sorted, d + 1, 0, by simp [edgeless], by simp [edgeless], ?_, ?_, ?_, fun w member => ?_⟩
  · rw [index, index]
    omega
  · rw [outgoing, heads]
    exact List.nodup_range.map fun i j same => Nat.succ.inj same
  · rw [outgoing, heads, List.length_map, List.length_range]
  · rw [outgoing] at member ⊢
    have ends := mem_fanEdges.mp (mem_headsFrom.mp member)
    rw [index, index]
    refine ⟨by omega, List.eq_nil_iff_forall_not_mem.mpr fun u edge => ?_⟩
    have again := mem_fanEdges.mp (mem_headsFrom.mp edge)
    omega

/-- The scan that starts anew makes a search quadratic: where an edge leads back from `x` to an earlier node `y`
with `d` neighbours below `x`, all of them without outgoing edges, the call looks at exactly `d * (d + 3) / 2`
outgoing edges, although there are only `d`. There are such graphs for every `d`. -/
theorem insertEdges_rescans (d : ℕ) :
    (∀ s : Store Ptr, s.Sorted → ∀ x y, s.Fan x y d → ∀ sort : StdSort (Edge Ptr),
      insertEdgesSearches .looks sort [(x, y)] s = d * (d + 3) / 2) ∧
      ∃ s : Store ℕ, s.Sorted ∧ ∃ x y, s.Fan x y d :=
  ⟨fun _ sorted _ _ fan sort => fan.looks sorted sort, exists_fan d⟩

/-- A head with two neighbours costs five looks. -/
theorem insertEdges_rescans_two :
    insertEdgesSearches .looks (.insertion _) [(3, 0)] (appendAll [(0, 1), (0, 2)] (edgeless 4)) = 5 := by
  have fan : (appendAll [(0, 1), (0, 2)] (edgeless 4)).Fan 3 0 2 := by
    constructor <;> decide
  exact (insertEdges_rescans 2).1 _ ⟨by decide, (edgeless_wired 4).appendAll (by decide)⟩ 3 0 fan (.insertion _)

end Total

section Kahn

variable {taken : List Ptr} {k next : Kahn Ptr}

/-- A round of Kahn's algorithm takes a node and visits its outgoing edges. -/
theorem Taking.pays (wired : s.Wired) (taking : s.Taking taken k) (moved : kahnRound k = some next) :
    ∃ n, s.Taking (taken ++ [n]) next ∧ k.looks = (s.heap.succ n).length := by
  cases waiting : k.nodesWithoutIncomingEdge with
  | nil => simp [kahnRound, waiting] at moved
  | cons n rest =>
    obtain ⟨next', moved', kept⟩ := taking.round waiting wired
    obtain rfl : next' = next := Option.some.inj (moved'.symm.trans moved)
    refine ⟨n, kept, ?_⟩
    simp only [Kahn.looks, waiting, taking.visiting.heap]
    rfl

/-- What a run of Kahn's algorithm charges for the rounds and for their edges. -/
theorem kahn_spends (wired : s.Wired) {fuel : ℕ} (enough : s.dag.nodes.length < fuel) :
    ∃ taken : List Ptr, taken.Nodup ∧ (∀ v, v ∈ taken ↔ v ∈ s.dag.nodes ∧ ¬ s.BehindCycle v) ∧
      kahnRounds fuel s = taken.length ∧
      kahnLooks fuel s = (taken.map fun v => (s.heap v).outgoingEdges.length).sum := by
  obtain ⟨k, taken, returned, taking, empty⟩ := kahn_stops wired enough
  have start : ∃ taken, s.Taking taken (kahnStart s) := ⟨[], Taking.start s wired⟩
  have oneRound : ∀ k next : Kahn Ptr, (∃ taken, s.Taking taken k) →
      (.ok (kahnRound k) : Except Fault _) = .ok (some next) →
      (∃ taken, s.Taking taken next) ∧ k.topologicalOrder.length + 1 = next.topologicalOrder.length := by
    rintro k next ⟨before, taking⟩ moved
    obtain ⟨n, kept, _⟩ := taking.pays wired (Except.ok.inj moved)
    rw [taking.visiting.order, kept.visiting.order, List.length_append]
    exact ⟨⟨_, kept⟩, rfl⟩
  have itsEdges : ∀ k next : Kahn Ptr, (∃ taken, s.Taking taken k) →
      (.ok (kahnRound k) : Except Fault _) = .ok (some next) →
      (∃ taken, s.Taking taken next) ∧ k.visitedEdgesTotal.toNat + k.looks = next.visitedEdgesTotal.toNat := by
    rintro k next ⟨before, taking⟩ moved
    obtain ⟨n, kept, looks⟩ := taking.pays wired (Except.ok.inj moved)
    rw [taking.visiting.total, kept.visiting.total, edgesFrom_snoc, List.length_append, List.length_map]
    exact ⟨⟨_, kept⟩, by omega⟩
  have rounds := spent_eq oneRound start returned
  have looks := spent_eq itsEdges start returned
  rw [taking.visiting.order] at rounds
  rw [taking.visiting.total, length_edgesFrom, Int.toNat_natCast] at looks
  refine ⟨taken, taking.unique, taking.mem_iff wired empty, ?_, ?_⟩
  · rw [kahnRounds, ← rounds]
    exact (Nat.zero_add _).symm
  · rw [kahnLooks, ← looks]
    exact (Nat.zero_add _).symm

open Classical in
/-- Kahn's algorithm takes one round for every node that no cycle leads to and looks at each of its outgoing
edges once: on a dag, one round a node and one look an edge, whatever the edges appended last. -/
theorem setToTopologicalOrder_work (wired : s.Wired) {fuel : ℕ} (enough : s.dag.nodes.length < fuel) :
    kahnRounds fuel s = {v ∈ s.dag.nodes.toFinset | ¬ s.BehindCycle v}.card ∧
      kahnLooks fuel s =
        ∑ v ∈ s.dag.nodes.toFinset with ¬ s.BehindCycle v, (s.heap v).outgoingEdges.length ∧
      (Acyclic s.Adj → kahnRounds fuel s = s.dag.nodes.length ∧
        (s.Counted → (kahnLooks fuel s : ℤ) = s.dag.numberOfEdges)) := by
  obtain ⟨taken, unique, members, rounds, looks⟩ := kahn_spends wired enough
  have set : ({v ∈ s.dag.nodes.toFinset | ¬ s.BehindCycle v} : Finset Ptr) = taken.toFinset := by
    ext v
    rw [Finset.mem_filter, List.mem_toFinset, List.mem_toFinset, members]
  rw [set, List.toFinset_card_of_nodup unique, List.sum_toFinset _ unique]
  refine ⟨rounds, looks, fun acyclic => ?_⟩
  have perm : taken.Perm s.dag.nodes := by
    refine (List.perm_ext_iff_of_nodup unique wired.nodup).mpr fun v => ?_
    rw [members]
    exact and_iff_left fun ⟨u, cycle, _⟩ => acyclic u cycle
  refine ⟨rounds.trans perm.length_eq, fun counted => ?_⟩
  rw [looks, counted, (perm.map _).sum_eq]

/-- Three nodes and one edge. -/
theorem setToTopologicalOrder_work_edge : kahnRounds 4 (appendAll [(0, 2)] (edgeless 3)) = 3 := by
  have wired : (appendAll [(0, 2)] (edgeless 3)).Wired := (edgeless_wired 3).appendAll (by decide)
  exact ((setToTopologicalOrder_work wired (by decide : 3 < 4)).2.2 acyclic_one_edge).1

end Kahn

end Store

end DynamicDag
