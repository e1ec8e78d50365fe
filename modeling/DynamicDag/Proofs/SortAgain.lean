import DynamicDag.Proofs.Kahn
import Mathlib.Data.List.Palindrome

/-! # What the sort takes, and what it goes by

Kahn's algorithm takes exactly the nodes that no cycle leads to; whether it returns is then a comparison
of numbers. The old arrangement of the nodes and their indices only matter through the order of the nodes
without incoming edges, which the stack turns round. So a second sort does not keep the order it finds,
and a third one restores it.
-/

namespace DynamicDag

open Relation Numbering

variable {Ptr : Type} [DecidableEq Ptr]

omit [DecidableEq Ptr] in
theorem reverse_eq_self_iff {xs : List Ptr} (unique : xs.Nodup) : xs.reverse = xs ↔ xs.length ≤ 1 := by
  constructor
  · intro same
    cases List.Palindrome.of_reverse_eq same with
    | nil => exact Nat.zero_le 1
    | singleton x => exact le_rfl
    | cons_concat x _ => exact absurd unique (by simp)
  · intro short
    obtain ⟨x, rfl⟩ | rfl := (Nat.le_one_iff_eq_zero_or_eq_one.mp short).symm.imp
      List.length_eq_one_iff.mp List.length_eq_zero_iff.mp
    · rfl
    · rfl

namespace Store

variable {s : Store Ptr} {taken : List Ptr} {k : Kahn Ptr}

omit [DecidableEq Ptr] in
/-- Some cycle leads to the node. -/
def BehindCycle (s : Store Ptr) (v : Ptr) : Prop :=
  ∃ u, TransGen s.Adj u u ∧ ReflTransGen s.Adj u v

section Taken

variable (wired : s.Wired) (taking : s.Taking taken k)

include wired taking

/-- A taken node comes after its predecessors. -/
theorem Taking.before {u v : Ptr} (member : v ∈ taken) (edge : s.Adj u v) :
    u ∈ taken ∧ taken.idxOf u < taken.idxOf v := by
  have bound := List.idxOf_lt_length_iff.mpr member
  have entering : u ∈ (s.heap v).incomingEdges := by
    rw [← List.count_pos_iff, ← wired.mirrored u edge.1 v (taking.subset member), List.count_pos_iff]
    exact edge.2
  have early := taking.preceded (taken.idxOf v) bound u (by rwa [List.getElem_idxOf bound])
  have inside := List.mem_of_mem_take early
  exact ⟨inside, (List.mem_take_iff_idxOf_lt inside).mp early⟩

theorem Taking.before_path {u v : Ptr} (member : v ∈ taken) (path : TransGen s.Adj u v) :
    u ∈ taken ∧ taken.idxOf u < taken.idxOf v := by
  induction path with
  | single edge => exact taking.before wired member edge
  | tail _ edge ih =>
    obtain ⟨inside, last⟩ := taking.before wired member edge
    obtain ⟨first, earlier⟩ := ih inside
    exact ⟨first, earlier.trans last⟩

/-- The sort takes the nodes that no cycle leads to. -/
theorem Taking.mem_iff (empty : k.nodesWithoutIncomingEdge = []) (v : Ptr) :
    v ∈ taken ↔ v ∈ s.dag.nodes ∧ ¬ s.BehindCycle v := by
  constructor
  · intro member
    refine ⟨taking.subset member, ?_⟩
    rintro ⟨u, cycle, path⟩
    have inside : u ∈ taken := by
      obtain rfl | steps := reflTransGen_iff_eq_or_transGen.mp path
      · exact member
      · exact (taking.before_path wired member steps).1
    exact lt_irrefl _ (taking.before_path wired inside cycle).2
  · rintro ⟨member, free⟩
    by_contra left
    -- among the nodes left over that lead to `v`, one has no such predecessor
    classical
    have acyclic : Acyclic fun a b => s.Adj a b ∧ ReflTransGen s.Adj b v := by
      intro a cycle
      obtain ⟨_, _, last⟩ := TransGen.tail'_iff.mp cycle
      exact free ⟨a, cycle.lift id fun _ _ step => step.1, last.2⟩
    have nonempty : (s.dag.nodes.toFinset.filter fun w => w ∉ taken ∧ ReflTransGen s.Adj w v).Nonempty :=
      ⟨v, by simp [member, left, ReflTransGen.refl]⟩
    obtain ⟨m, rest, first⟩ := acyclic.exists_source nonempty
    simp only [Finset.mem_filter, List.mem_toFinset] at rest first
    have ready := taking.ready_iff wired rest.1
    rw [empty, List.append_nil] at ready
    apply rest.2.1
    apply ready.mpr
    intro u entering
    by_contra later
    have inside := wired.incoming m rest.1 u entering
    have edge : s.Adj u m := by
      refine ⟨inside, List.count_pos_iff.mp ?_⟩
      rw [wired.mirrored u inside m rest.1]
      exact List.count_pos_iff.mpr entering
    exact first u ⟨inside, later, .head edge rest.2.2⟩ ⟨edge, rest.2.2⟩

end Taken

/-- The call, whatever the graph claims about the number of its edges: all nodes that no cycle leads to
are numbered in topological order, and the number of edges that leave them decides. -/
theorem setToTopologicalOrder_any_count (wired : s.Wired) {fuel : ℕ} (enough : s.dag.nodes.length < fuel) :
    ∃ order : List Ptr, order.Nodup ∧ (∀ v, v ∈ order ↔ v ∈ s.dag.nodes ∧ ¬ s.BehindCycle v) ∧
      order.Pairwise (fun u v => ¬ s.Adj v u) ∧
      setToTopologicalOrder fuel s =
        if s.dag.numberOfEdges = ((order.map fun u => (s.heap u).outgoingEdges.length).sum : ℕ) then
          .ok () (s.arranged order)
        else .error notADag { s with heap := (s.arranged order).heap } := by
  obtain ⟨k, taken, returned, taking, empty⟩ := kahn_stops wired enough
  refine ⟨taken, taking.unique, taking.mem_iff wired empty, ?_, ?_⟩
  · rw [List.pairwise_iff_getElem]
    intro i j iBound jBound earlier back
    have before := (taking.before wired (List.getElem_mem iBound) back).2
    rw [taking.unique.idxOf_getElem i iBound, taking.unique.idxOf_getElem j jBound] at before
    omega
  · simp only [setToTopologicalOrder, returned, taking.visiting.total, length_edgesFrom, taking.visiting.heap,
      taking.visiting.order]
    obtain same | other := eq_or_ne s.dag.numberOfEdges
      ((taken.map fun u => (s.heap u).outgoingEdges.length).sum : ℕ)
    · rw [if_pos same, if_neg fun different => different same.symm]
      rfl
    · rw [if_neg other, if_pos fun same => other same.symm]
      rfl

/-- A graph of three nodes whose number of edges is wrong by its cycle: the call returns and drops two nodes. -/
theorem setToTopologicalOrder_any_count_dropped : ∃ order : List ℕ, (∀ v, v ∈ order ↔ v ∈ [0, 1, 2] ∧
      ¬ (⟨(appendAll [(0, 1), (1, 0)] (edgeless 3)).heap, ⟨[0, 1, 2], 0⟩⟩ : Store ℕ).BehindCycle v) ∧
    setToTopologicalOrder 4 ⟨(appendAll [(0, 1), (1, 0)] (edgeless 3)).heap, ⟨[0, 1, 2], 0⟩⟩ =
      .ok () (arranged ⟨(appendAll [(0, 1), (1, 0)] (edgeless 3)).heap, ⟨[0, 1, 2], 0⟩⟩ order) := by
  have wired : (⟨(appendAll [(0, 1), (1, 0)] (edgeless 3)).heap, ⟨[0, 1, 2], 0⟩⟩ : Store ℕ).Wired :=
    ⟨by decide, by decide, by decide, by decide⟩
  obtain ⟨order, _, members, _, ended⟩ := setToTopologicalOrder_any_count wired (show 3 < 4 by decide)
  refine ⟨order, members, ?_⟩
  have returned : ∃ t, setToTopologicalOrder 4
      (⟨(appendAll [(0, 1), (1, 0)] (edgeless 3)).heap, ⟨[0, 1, 2], 0⟩⟩ : Store ℕ) = .ok () t := ⟨_, rfl⟩
  obtain ⟨t, returned⟩ := returned
  rw [ended] at returned ⊢
  split_ifs at returned ⊢
  rfl

/-- The nodes without incoming edges. -/
def sources (s : Store Ptr) : List Ptr := s.dag.nodes.filter fun v => (s.heap v).incomingEdges.isEmpty

/-- Visiting edges of one node only pushes nodes with incoming edges. -/
theorem foldl_visitEdge_filter {source : Ptr → Bool} (edges : List Ptr) (k : Kahn Ptr)
    (entered : ∀ m ∈ edges, source m = false) :
    ((edges.foldl Kahn.visitEdge k).nodesWithoutIncomingEdge.filter source) =
      k.nodesWithoutIncomingEdge.filter source := by
  induction edges generalizing k with
  | nil => rfl
  | cons m rest ih =>
    rw [List.foldl_cons, ih _ fun w later => entered w (List.mem_cons_of_mem _ later)]
    simp only [Kahn.visitEdge]
    split_ifs
    · rw [List.filter_cons_of_neg (by simp [entered m List.mem_cons_self])]
    · rfl

/-- The sources among the nodes taken and those that wait are the old ones, turned round. -/
structure Turning (s : Store Ptr) (taken : List Ptr) (k : Kahn Ptr) : Prop extends s.Taking taken k where
  turned : (taken ++ k.nodesWithoutIncomingEdge).filter (fun v => (s.heap v).incomingEdges.isEmpty) =
    s.sources.reverse

theorem Turning.start (wired : s.Wired) : s.Turning [] (kahnStart s) := by
  refine ⟨Taking.start s wired, ?_⟩
  rw [List.nil_append, kahnStart, List.filter_reverse, List.filter_filter]
  simp only [Bool.and_self]
  rfl

theorem Turning.round (turning : s.Turning taken k) (wired : s.Wired) {n : Ptr} {rest : List Ptr}
    (top : k.nodesWithoutIncomingEdge = n :: rest) :
    ∃ next, kahnRound k = some next ∧ s.Turning (taken ++ [n]) next := by
  obtain ⟨next, moved, further⟩ := turning.toTaking.round top wired
  refine ⟨next, moved, further, ?_⟩
  have same := (turning.toTaking.kahnRound_eq top).symm.trans moved
  obtain rfl := Option.some.inj same
  have member := turning.toTaking.top_mem top
  have entered : ∀ m ∈ s.heap.succ n, (s.heap m).incomingEdges.isEmpty = false := by
    intro m edge
    have entering : n ∈ (s.heap m).incomingEdges := by
      rw [← List.count_pos_iff, ← wired.mirrored n member m (wired.outgoing n member m edge), List.count_pos_iff]
      exact edge
    rw [List.isEmpty_eq_false_iff]
    exact List.ne_nil_of_mem entering
  have turned := turning.turned
  rw [top, List.append_cons, List.filter_append] at turned
  rw [List.filter_append, foldl_visitEdge_filter _ _ entered]
  exact turned

/-- The run of the sort, with the order of the sources. -/
theorem kahn_turns (wired : s.Wired) {fuel : ℕ} (enough : s.dag.nodes.length < fuel) :
    ∃ k taken, BoundedLoop.run Fault.outOfFuel (fun k => .ok (kahnRound k)) fuel (kahnStart s) = .ok k ∧
      s.Taking taken k ∧ k.nodesWithoutIncomingEdge = [] ∧
      taken.filter (fun v => (s.heap v).incomingEdges.isEmpty) = s.sources.reverse := by
  obtain ⟨k, taken, returned, turning, empty⟩ :=
    kahn_rule (fun turning top => turning.round wired top) wired (Turning.start wired) enough
  have turned := turning.turned
  rw [empty, List.append_nil] at turned
  exact ⟨k, taken, returned, turning.toTaking, empty, turned⟩

section Heap

/-- The loop body reads the incoming edges of the memory and writes none of it. -/
theorem visitEdge_withHeap (k : Kahn Ptr) {heap : Heap Ptr}
    (same : ∀ v, (heap v).incomingEdges = (k.heap v).incomingEdges) (m : Ptr) :
    Kahn.visitEdge { k with heap := heap } m = { k.visitEdge m with heap := heap } := by
  simp only [Kahn.visitEdge, same]

theorem foldl_visitEdge_withHeap (edges : List Ptr) (k : Kahn Ptr) {heap : Heap Ptr}
    (same : ∀ v, (heap v).incomingEdges = (k.heap v).incomingEdges) :
    edges.foldl Kahn.visitEdge { k with heap := heap } = { edges.foldl Kahn.visitEdge k with heap := heap } := by
  induction edges generalizing k with
  | nil => rfl
  | cons m rest ih =>
    rw [List.foldl_cons, List.foldl_cons, visitEdge_withHeap k same]
    exact ih (k.visitEdge m) same

end Heap

/-- The variables of the sort on a graph with the same edges and other indices. -/
def renumbered (s : Store Ptr) (index : Ptr → ℤ) (k : Kahn Ptr) : Kahn Ptr :=
  { k with heap := s.heap.withIndex (renumber index k.topologicalOrder) }

/-- Graphs with the same edges and the same list of sources are sorted alike. -/
theorem kahn_renumbered (wired : s.Wired) {t : Store Ptr} {index : Ptr → ℤ}
    (heap : t.heap = s.heap.withIndex index) (same : t.sources = s.sources) (fuel : ℕ) :
    BoundedLoop.run Fault.outOfFuel (fun k => .ok (kahnRound k)) fuel (kahnStart t) =
      (BoundedLoop.run Fault.outOfFuel (fun k => .ok (kahnRound k)) fuel (kahnStart s)).map
        (s.renumbered index) := by
  have start : kahnStart t = s.renumbered index (kahnStart s) := by
    have waiting : (kahnStart t).nodesWithoutIncomingEdge = (kahnStart s).nodesWithoutIncomingEdge :=
      congrArg List.reverse same
    have unnumbered : renumber index [] = index := funext fun _ => renumber_of_notMem List.not_mem_nil
    have fields : kahnStart t = { kahnStart s with heap := t.heap, nodesWithoutIncomingEdge :=
      (kahnStart t).nodesWithoutIncomingEdge } := rfl
    rw [fields, waiting, heap, renumbered, show (kahnStart s).topologicalOrder = [] from rfl, unnumbered]
    rfl
  have follows : ∀ k, (∃ taken, s.Taking taken k) →
      (.ok (kahnRound (s.renumbered index k)) : Except Fault (Option (Kahn Ptr))) =
        (.ok (kahnRound k) : Except Fault (Option (Kahn Ptr))).map (Option.map (s.renumbered index)) := by
    rintro k ⟨taken, taking⟩
    cases top : k.nodesWithoutIncomingEdge with
    | nil => simp [kahnRound, renumbered, top, Except.map]
    | cons n rest =>
      obtain ⟨next, moved, further⟩ := taking.round top wired
      have order := further.visiting.order
      have popped := taking.pop top
      have fresh : n ∉ taken := fun again =>
        List.disjoint_of_nodup_append (List.nodup_append.mp popped.nodup).1 again (List.mem_singleton_self n)
      obtain rfl := Option.some.inj ((taking.kahnRound_eq top).symm.trans moved)
      rw [taking.kahnRound_eq top]
      have numbers : (s.heap.withIndex (renumber index taken)).setIndex n taken.length =
          s.heap.withIndex (renumber index (taken ++ [n])) := by
        rw [Heap.setIndex_withIndex, renumber_append_singleton fresh]
      have round : kahnRound (s.renumbered index k) = some ((s.heap.succ n).foldl Kahn.visitEdge
          { k.pop n rest with heap := s.heap.withIndex (renumber index (taken ++ [n])) }) := by
        simp only [kahnRound, renumbered, top, taking.visiting.order, numbers, Kahn.pop]
        rfl
      have lists : ∀ v, ((s.heap.withIndex (renumber index (taken ++ [n]))) v).incomingEdges =
          ((k.pop n rest).heap v).incomingEdges := by
        intro v
        rw [popped.heap]
        rfl
      rw [round, foldl_visitEdge_withHeap _ _ lists]
      simp only [Except.map, Option.map, renumbered, order]
  have keeps := @kahnRound_keeps Ptr _ s.Taking fun taking top => taking.round top wired
  rw [start]
  exact BoundedLoop.run_refines Fault.outOfFuel (s.renumbered index) follows keeps fuel ⟨[], Taking.start s wired⟩

theorem arranged_arranged {first second : List Ptr} (covered : ∀ v, v ∈ first → v ∈ second) :
    (s.arranged first).arranged second = s.arranged second := by
  simp only [arranged, Heap.index_withIndex, Heap.withIndex_withIndex, renumber_renumber covered]

theorem Counted.arranged (counted : s.Counted) (wired : s.Wired) {order : List Ptr}
    (perm : order.Perm s.dag.nodes) : (s.arranged order).Counted :=
  counted.of_perm wired.nodup perm (fun _ => rfl) rfl

theorem acyclic_arranged (acyclic : Acyclic s.Adj) {order : List Ptr} (perm : order.Perm s.dag.nodes) :
    Acyclic (s.arranged order).Adj :=
  acyclic.mono fun _ _ edge => ⟨perm.mem_iff.mp edge.1, edge.2⟩

/-- A graph arranged anew, with the sources in the same order, is sorted in the same order. -/
theorem order_eq_of_sources (wired : s.Wired) {order : List Ptr} (same : (s.arranged order).sources = s.sources)
    {fuel : ℕ} {l : Kahn Ptr}
    (left : BoundedLoop.run Fault.outOfFuel (fun k => .ok (kahnRound k)) fuel (kahnStart s) = .ok k)
    (right : BoundedLoop.run Fault.outOfFuel (fun k => .ok (kahnRound k)) fuel (kahnStart (s.arranged order)) =
      .ok l) : l.topologicalOrder = k.topologicalOrder := by
  rw [kahn_renumbered (t := s.arranged order) wired rfl same, left, Except.map] at right
  rw [← Except.ok.inj right, renumbered]

theorem acyclic_one_edge : Acyclic (appendAll [(0, 2)] (edgeless 3)).Adj := by
  refine .of_rank id fun u v edge => ?_
  rw [appendAll_adj (by decide)] at edge
  obtain ⟨_, none⟩ | listed := edge
  · exact absurd none List.not_mem_nil
  · obtain ⟨rfl, rfl⟩ := Prod.mk.inj (List.mem_singleton.mp listed)
    decide

section Again

variable (wired : s.Wired) (counted : s.Counted) (acyclic : Acyclic s.Adj)

include wired counted acyclic

/-- The sort of a dag, with its run and the order of the sources. -/
theorem sort_turns {fuel : ℕ} (enough : s.dag.nodes.length < fuel) :
    ∃ k, BoundedLoop.run Fault.outOfFuel (fun k => .ok (kahnRound k)) fuel (kahnStart s) = .ok k ∧
      setToTopologicalOrder fuel s = .ok () (s.arranged k.topologicalOrder) ∧
      k.topologicalOrder.Perm s.dag.nodes ∧
      k.topologicalOrder.filter (fun v => (s.heap v).incomingEdges.isEmpty) = s.sources.reverse := by
  obtain ⟨k, taken, returned, taking, empty, turned⟩ := kahn_turns wired enough
  have perm := taking.perm_of_acyclic wired empty acyclic
  have all : k.visitedEdgesTotal = s.dag.numberOfEdges := by
    rw [taking.visiting.total, counted, length_edgesFrom]
    exact congrArg _ (perm.map _).sum_eq
  have order := taking.visiting.order
  refine ⟨k, returned, ?_, by rwa [order], by rwa [order]⟩
  simp only [setToTopologicalOrder, returned, all, ne_eq, not_true_eq_false, ↓reduceIte,
    taking.visiting.heap, order]
  rfl

/-- The dag that a sort returns depends on the old arrangement and the old indices through the order of
the sources alone, and different orders of the sources are never sorted alike. -/
theorem setToTopologicalOrder_sources {t : Store Ptr} {index : Ptr → ℤ}
    (heap : t.heap = s.heap.withIndex index) (perm : t.dag.nodes.Perm s.dag.nodes)
    (count : t.dag.numberOfEdges = s.dag.numberOfEdges) {fuel : ℕ} (enough : s.dag.nodes.length < fuel) :
    ∃ a b, setToTopologicalOrder fuel s = .ok () a ∧ setToTopologicalOrder fuel t = .ok () b ∧
      (a.dag = b.dag ↔ s.sources = t.sources) := by
  have outgoing : ∀ v, (t.heap v).outgoingEdges = (s.heap v).outgoingEdges := fun v => by rw [heap]; rfl
  have incoming : ∀ v, (t.heap v).incomingEdges = (s.heap v).incomingEdges := fun v => by rw [heap]; rfl
  have acyclicThere : Acyclic t.Adj := by
    refine acyclic.mono fun u v edge => ⟨perm.mem_iff.mp edge.1, ?_⟩
    rw [← outgoing]
    exact edge.2
  obtain ⟨k, returned, left, _, first⟩ := sort_turns wired counted acyclic enough
  obtain ⟨l, returnedThere, right, _, second⟩ := sort_turns (wired.of_perm perm outgoing incoming)
    (counted.of_perm wired.nodup perm outgoing count) acyclicThere (perm.length_eq.trans_lt enough)
  refine ⟨_, _, left, right, fun same => ?_, fun same => ?_⟩
  · have order : k.topologicalOrder = l.topologicalOrder := congrArg Graph.nodes same
    simp only [incoming] at second
    rw [← List.reverse_inj, ← first, ← second, order]
  · rw [kahn_renumbered wired heap same.symm, returned, Except.map] at returnedThere
    obtain rfl := Except.ok.inj returnedThere
    simp only [arranged, renumbered, count]

omit wired counted acyclic in
/-- Two sources, listed in both orders. -/
theorem setToTopologicalOrder_sources_swapped :
    ∃ a b, setToTopologicalOrder 4 (appendAll [(0, 2)] (edgeless 3)) = .ok () a ∧
      setToTopologicalOrder 4 ((appendAll [(0, 2)] (edgeless 3)).arranged [1, 0, 2]) = .ok () b ∧
      a.dag ≠ b.dag := by
  have spans : (edgeless 3).Spans [(0, 2)] := by decide
  obtain ⟨a, b, left, right, same⟩ := setToTopologicalOrder_sources
    ((edgeless_wired 3).appendAll spans) ((edgeless_counted 3).appendAll (edgeless_wired 3) spans) acyclic_one_edge
    (t := (appendAll [(0, 2)] (edgeless 3)).arranged [1, 0, 2]) rfl (by decide) rfl (by decide : 3 < 4)
  exact ⟨a, b, left, right, mt same.mp (by decide)⟩

/-- A second sort turns the order of the sources round once more, and a third one restores the result of
the first. So the sorted graph comes back unchanged only when it has at most one source. -/
theorem setToTopologicalOrder_alternates {fuel : ℕ} (enough : s.dag.nodes.length < fuel) :
    ∃ t u, setToTopologicalOrder fuel s = .ok () t ∧ setToTopologicalOrder fuel t = .ok () u ∧
      setToTopologicalOrder fuel u = .ok () t ∧ t.sources = s.sources.reverse ∧
      (u = t ↔ s.sources.length ≤ 1) := by
  obtain ⟨k, returned, sortedOnce, perm, turned⟩ := sort_turns wired counted acyclic enough
  have wiredOnce := wired.arranged perm
  obtain ⟨l, returnedOnce, sortedTwice, permAgain, turnedBack⟩ := sort_turns wiredOnce
    (counted.arranged wired perm) (acyclic_arranged acyclic perm) (perm.length_eq.trans_lt enough)
  have replaced : (s.arranged k.topologicalOrder).arranged l.topologicalOrder = s.arranged l.topologicalOrder :=
    arranged_arranged fun v member => permAgain.mem_iff.mpr member
  have restored : (s.arranged l.topologicalOrder).arranged k.topologicalOrder = s.arranged k.topologicalOrder :=
    arranged_arranged fun v member => permAgain.mem_iff.mp member
  have permBoth : l.topologicalOrder.Perm s.dag.nodes := permAgain.trans perm
  rw [replaced] at sortedTwice
  obtain ⟨m, returnedTwice, sortedThrice, _, _⟩ := sort_turns (wired.arranged permBoth)
    (counted.arranged wired permBoth) (acyclic_arranged acyclic permBoth) (permBoth.length_eq.trans_lt enough)
  have once : (s.arranged k.topologicalOrder).sources = s.sources.reverse := turned
  have twice : (s.arranged l.topologicalOrder).sources = s.sources := by
    rw [← List.reverse_reverse s.sources, ← once]
    exact turnedBack
  rw [order_eq_of_sources wired twice returned returnedTwice, restored] at sortedThrice
  refine ⟨_, _, sortedOnce, sortedTwice, sortedThrice, once, fun same => ?_, fun single => ?_⟩
  · have palindrome : s.sources = s.sources.reverse := by rw [← once, ← same, twice]
    exact (reverse_eq_self_iff (wired.nodup.filter _)).mp palindrome.symm
  · have same : s.sources.reverse = s.sources := (reverse_eq_self_iff (wired.nodup.filter _)).mpr single
    rw [order_eq_of_sources wired (once.trans same) returned returnedOnce]

omit wired counted acyclic in
/-- Two sources: every sort of the sorted graph moves nodes. -/
theorem setToTopologicalOrder_alternates_two :
    ∃ t u, setToTopologicalOrder 4 (appendAll [(0, 2)] (edgeless 3)) = .ok () t ∧
      setToTopologicalOrder 4 t = .ok () u ∧ setToTopologicalOrder 4 u = .ok () t ∧ u ≠ t := by
  have spans : (edgeless 3).Spans [(0, 2)] := by decide
  obtain ⟨t, u, first, second, third, _, unchanged⟩ := setToTopologicalOrder_alternates
    ((edgeless_wired 3).appendAll spans) ((edgeless_counted 3).appendAll (edgeless_wired 3) spans)
    acyclic_one_edge (by decide : 3 < 4)
  exact ⟨t, u, first, second, third, mt unchanged.mp (by decide)⟩

end Again

end Store

end DynamicDag
