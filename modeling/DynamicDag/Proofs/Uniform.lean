import DynamicDag.General.UniformSampling
import DynamicDag.Proofs.Progress

/-! # What the generators return, with which probability

Both generators throw pairs of node numbers until enough different admissible edges are found. Every
admissible edge is made by equally many throws. So for an ideal source of draws, all lists of new free
edges are equally likely additional edges, all sets of admissible edges are equally likely graphs, and
the calls return with probability one.
-/

namespace DynamicDag

open Filter Topology CheckedAccess Numbering RejectionSampling Store UniformSampling

variable {Ptr : Type} [DecidableEq Ptr]

/-- The draws of `node_distribution(rng)` for a stream of pairs of node numbers. -/
def nodeDraws {n : ℕ} (throws : List (Fin n × Fin n)) : List ℤ :=
  drawsOf (fun p => (p.1 : ℤ)) (fun p => (p.2 : ℤ)) throws

/-- A pair in ascending order. -/
def ascend {n : ℕ} (p : Fin n × Fin n) : Fin n × Fin n := (min p.1 p.2, max p.1 p.2)

/-- Two throws make an ascending pair. -/
theorem card_ascend {n : ℕ} {c : Fin n × Fin n} (ascends : c.1 < c.2) :
    (Finset.univ.filter fun p => ascend p = c).card = 2 := by
  have both : (Finset.univ.filter fun p => ascend p = c) = {(c.1, c.2), (c.2, c.1)} := by
    ext ⟨a, b⟩
    simp only [Finset.mem_filter, Finset.mem_univ, true_and, ascend, Finset.mem_insert, Finset.mem_singleton,
      Prod.ext_iff]
    obtain le | le := le_total a b
    · rw [min_eq_left le, max_eq_right le]
      omega
    · rw [min_eq_right le, max_eq_left le]
      omega
  rw [both, Finset.card_pair fun same => ascends.ne (Prod.mk.inj same).1]

section Extra

variable {s : Store Ptr} {found : List (Edge Ptr)}

/-- The edge made from a throw of `generate_extra_edges`. -/
def throwExtra (nodes : List Ptr) (p : Fin nodes.length × Fin nodes.length) : Edge Ptr :=
  (nodes[(ascend p).1], nodes[(ascend p).2])

/-- The variables of the loop of `generate_extra_edges` after these new edges. -/
def afterExtra (s : Store Ptr) (found : List (Edge Ptr)) : Finset (ℤ × ℤ) × List (Edge Ptr) :=
  (existingEdges s ∪ (found.map (indexPair s.heap)).toFinset, found)

omit [DecidableEq Ptr] in
theorem extraEdge_throw (dag : Graph Ptr) (p : Fin dag.nodes.length × Fin dag.nodes.length) :
    extraEdge dag (p.1 : ℤ) (p.2 : ℤ) = .ok (throwExtra dag.nodes p) := by
  have reads : ∀ i : Fin dag.nodes.length, read dag.nodes (i : ℤ) = .ok dag.nodes[i] :=
    fun i => readAt_natCast i.isLt
  have least : min (p.1 : ℤ) (p.2 : ℤ) = (ascend p).1 := by simp [ascend]
  have greatest : max (p.1 : ℤ) (p.2 : ℤ) = (ascend p).2 := by simp [ascend]
  simp only [extraEdge, least, greatest, reads]
  rfl

variable (numbered : Numbered s.heap.index s.dag.nodes)

include numbered

omit [DecidableEq Ptr] in
theorem throwExtra_spec (p : Fin s.dag.nodes.length × Fin s.dag.nodes.length) :
    ((throwExtra s.dag.nodes p).1 ∈ s.dag.nodes ∧ (throwExtra s.dag.nodes p).2 ∈ s.dag.nodes) ∧
      s.heap.index (throwExtra s.dag.nodes p).1 = (ascend p).1 ∧
      s.heap.index (throwExtra s.dag.nodes p).2 = (ascend p).2 :=
  ⟨⟨List.getElem_mem _, List.getElem_mem _⟩, numbered _ _, numbered _ _⟩

/-- Two throws make a free edge. -/
theorem card_throwExtra {e : Edge Ptr} (free : e ∈ s.freeEdges) :
    (Finset.univ.filter fun p => throwExtra s.dag.nodes p = e).card = 2 := by
  obtain ⟨inside, ascends, _⟩ := mem_freeEdges.mp free
  obtain ⟨i, iBound, atTail, tailIndex⟩ := numbered.exists_slot inside.1
  obtain ⟨j, jBound, atHead, headIndex⟩ := numbered.exists_slot inside.2
  have before : (⟨i, iBound⟩ : Fin s.dag.nodes.length) < ⟨j, jBound⟩ := by
    rw [Fin.mk_lt_mk]
    omega
  rw [← card_ascend (c := (⟨i, iBound⟩, ⟨j, jBound⟩)) before]
  congr 1
  refine Finset.filter_congr fun p _ => ⟨fun same => ?_, fun same => ?_⟩
  · obtain ⟨_, first, second⟩ := throwExtra_spec numbered p
    rw [same] at first second
    exact Prod.ext (Fin.ext (Int.natCast_inj.mp (first.symm.trans tailIndex)))
      (Fin.ext (Int.natCast_inj.mp (second.symm.trans headIndex)))
  · exact (congrArg (fun c => (s.dag.nodes[c.1], s.dag.nodes[c.2])) same).trans (Prod.ext atTail atHead)

variable (closed : ∀ v ∈ s.dag.nodes, ∀ w ∈ s.heap.succ v, w ∈ s.dag.nodes)

include closed

omit [DecidableEq Ptr] in
/-- The index pairs of the edges name them. -/
theorem mem_existingEdges {e : Edge Ptr} (inside : e.1 ∈ s.dag.nodes ∧ e.2 ∈ s.dag.nodes) :
    indexPair s.heap e ∈ existingEdges s ↔ e.2 ∈ (s.heap e.1).outgoingEdges := by
  rw [existingEdges, List.mem_toFinset, List.mem_flatMap]
  constructor
  · rintro ⟨u, member, listed⟩
    obtain ⟨v, edge, same⟩ := List.mem_map.mp listed
    obtain rfl := indexPair_inj (e := (u, v)) numbered ⟨member, closed u member v edge⟩ inside same
    exact edge
  · intro edge
    exact ⟨e.1, inside.1, List.mem_map.mpr ⟨e.2, edge, rfl⟩⟩

theorem extraRejected_throw (p : Fin s.dag.nodes.length × Fin s.dag.nodes.length)
    (chosen : Chosen s.freeEdges found) :
    extraRejected s (afterExtra s found) (throwExtra s.dag.nodes p) = false ↔
      throwExtra s.dag.nodes p ∈ s.freeEdges ∧ throwExtra s.dag.nodes p ∉ found := by
  obtain ⟨inside, first, second⟩ := throwExtra_spec numbered p
  have ordered : s.heap.index (throwExtra s.dag.nodes p).1 ≤ s.heap.index (throwExtra s.dag.nodes p).2 := by
    rw [first, second]
    exact Int.ofNat_le.mpr min_le_max
  have different : (throwExtra s.dag.nodes p).1 ≠ (throwExtra s.dag.nodes p).2 ↔
      s.heap.index (throwExtra s.dag.nodes p).1 < s.heap.index (throwExtra s.dag.nodes p).2 :=
    ⟨fun apart => lt_of_le_of_ne ordered (mt (numbered.injOn inside.1 inside.2) apart),
      fun before same => before.ne (congrArg s.heap.index same)⟩
  have generated : indexPair s.heap (throwExtra s.dag.nodes p) ∈ found.map (indexPair s.heap) ↔
      throwExtra s.dag.nodes p ∈ found := by
    refine ⟨fun listed => ?_, List.mem_map_of_mem⟩
    obtain ⟨e, member, same⟩ := List.mem_map.mp listed
    rwa [← indexPair_inj numbered (mem_freeEdges.mp (chosen.inside e member)).1 inside same]
  simp only [extraRejected, afterExtra, Bool.or_eq_false_iff, decide_eq_false_iff_not, Finset.mem_union,
    List.mem_toFinset, not_or, generated, mem_existingEdges numbered closed inside, mem_freeEdges]
  rw [← ne_eq, different]
  tauto

/-- A call of `generate_extra_edges` is a run of sampling. -/
theorem generateExtraEdges_eq_sample (k : ℕ) (throws : List (Fin s.dag.nodes.length × Fin s.dag.nodes.length)) :
    generateExtraEdges s (nodeDraws throws) k =
      match sample (throwExtra s.dag.nodes) s.freeEdges k [] throws with
      | none => .error .outOfDraws
      | some (edges, rest) => .ok (edges, nodeDraws rest) := by
  have start : afterExtra s [] = (existingEdges s, []) := by simp [afterExtra]
  have records : ∀ p found, recordExtra s (afterExtra s found) (throwExtra s.dag.nodes p) =
      .ok (afterExtra s (found ++ [throwExtra s.dag.nodes p])) := by
    intro p found
    simp only [recordExtra, afterExtra, List.map_append, List.toFinset_append, List.map_cons, List.map_nil,
      List.toFinset_cons, List.toFinset_nil, insert_empty_eq, Finset.union_singleton, Finset.union_insert]
  have run : fill Fault.outOfDraws (extraEdge s.dag) (extraRejected s) (recordExtra s) k (afterExtra s [])
      (nodeDraws throws) = _ := fill_eq_sample (afterExtra s) (extraEdge_throw s.dag)
    (fun p found => extraRejected_throw numbered closed p) records ⟨.nil, by simp⟩ throws
  rw [generateExtraEdges, Int.toNat_natCast, generateExtra_eq_fill s k (existingEdges s, []), ← start, run]
  cases sample (throwExtra s.dag.nodes) s.freeEdges k [] throws with
  | none => rfl
  | some last => rfl

/-- The call returns these edges. -/
theorem generateExtraEdges_returns (edges : List (Edge Ptr)) (k : ℕ)
    (throws : List (Fin s.dag.nodes.length × Fin s.dag.nodes.length)) :
    (∃ rest, generateExtraEdges s (nodeDraws throws) k = .ok (edges, rest)) ↔
      Finds (throwExtra s.dag.nodes) s.freeEdges k [] edges throws := by
  rw [generateExtraEdges_eq_sample numbered closed, Finds]
  cases sample (throwExtra s.dag.nodes) s.freeEdges k [] throws with
  | none => simp
  | some last => simp [Prod.ext_iff]

omit numbered closed in
/-- All lists of as many different free edges are equally likely to be returned, and the call returns with
probability one if the graph lacks as many ascending edges as requested. -/
theorem generateExtraEdges_uniform (inOrder : graphIsInTopologicalOrder s.heap s.dag = true)
    (closed : ∀ v ∈ s.dag.nodes, ∀ w ∈ (s.heap v).outgoingEdges, w ∈ s.dag.nodes)
    (nonempty : s.dag.nodes ≠ []) {k : ℕ} (room : k ≤ s.freeEdges.card) :
    Tendsto (share fun throws : List (Fin s.dag.nodes.length × Fin s.dag.nodes.length) =>
        ∃ edges rest, generateExtraEdges s (nodeDraws throws) k = .ok (edges, rest)) atTop (𝓝 1) ∧
      ∀ edges : List (Edge Ptr), edges.Nodup → edges.length = k → (∀ e ∈ edges, e ∈ s.freeEdges) →
        Tendsto (share fun throws : List (Fin s.dag.nodes.length × Fin s.dag.nodes.length) =>
          ∃ rest, generateExtraEdges s (nodeDraws throws) k = .ok (edges, rest)) atTop
          (𝓝 (1 / s.freeEdges.card.descFactorial k)) := by
  have numbered := ((graphIsInTopologicalOrder_iff _ _).mp inOrder).1
  have positive : 0 < s.dag.nodes.length := List.length_pos_iff.mpr nonempty
  have : Nonempty (Fin s.dag.nodes.length × Fin s.dag.nodes.length) := ⟨⟨0, positive⟩, ⟨0, positive⟩⟩
  have fibers : ∀ e ∈ s.freeEdges, (Finset.univ.filter fun p => throwExtra s.dag.nodes p = e).card = 2 :=
    fun e free => card_throwExtra numbered free
  constructor
  · rw [share_congr fun throws => exists_congr fun edges =>
      generateExtraEdges_returns numbered closed edges k throws]
    exact tendsto_share_returns fibers two_pos ⟨.nil, by simp⟩ (by simpa using room)
  · rintro edges unique rfl free
    rw [share_congr (generateExtraEdges_returns numbered closed edges edges.length)]
    exact tendsto_share_finds fibers two_pos (show Chosen s.freeEdges ([] ++ edges) from ⟨unique, free⟩)

omit numbered closed in
/-- Two edges are free in a graph of three nodes with one edge. -/
theorem generateExtraEdges_uniform_half :
    Tendsto (share fun throws : List (Fin 3 × Fin 3) => ∃ rest,
      generateExtraEdges (appendAll [(0, 1)] (edgeless 3)) (nodeDraws throws) 1 = .ok ([(0, 2)], rest)) atTop
        (𝓝 (1 / 2)) := by
  have law := (generateExtraEdges_uniform (s := appendAll [(0, 1)] (edgeless 3)) (by decide) (by decide) (by decide)
    (k := 1) (by decide)).2 [(0, 2)] (by decide) rfl (by decide)
  rw [show (appendAll [(0, 1)] (edgeless 3)).freeEdges.card.descFactorial 1 = 2 by decide] at law
  exact_mod_cast law

end Extra

section Generation

variable {alloc : ℕ ↪ Ptr} {heap : Heap Ptr} {n m : ℕ} {shouldBeDag : Bool} {found : List (Fin n × Fin n)}

/-- The slots of the edge made from a throw of `generate_graph`. -/
def throwSlots (shouldBeDag : Bool) (p : Fin n × Fin n) : Fin n × Fin n := if shouldBeDag then ascend p else p

/-- The slots of the edges that `generate_graph` may generate. -/
def admissible (n : ℕ) (shouldBeDag : Bool) : Finset (Fin n × Fin n) :=
  if shouldBeDag then ArcCount.ascending (Fin n) else Finset.univ.offDiag

theorem mem_admissible {e : Fin n × Fin n} :
    e ∈ admissible n shouldBeDag ↔ if shouldBeDag then e.1 < e.2 else e.1 ≠ e.2 := by
  cases shouldBeDag with
  | true => exact ArcCount.mem_ascending
  | false => simp [admissible]

theorem card_admissible (n : ℕ) (shouldBeDag : Bool) :
    (admissible n shouldBeDag).card = if shouldBeDag then n * (n - 1) / 2 else n * (n - 1) := by
  cases shouldBeDag with
  | true => exact ArcCount.card_ascending.trans (by rw [Fintype.card_fin]; rfl)
  | false => exact ArcCount.card_loopFree.trans (by rw [Fintype.card_fin]; rfl)

/-- Equally many throws make each admissible edge. -/
theorem card_throwSlots {c : Fin n × Fin n} (member : c ∈ admissible n shouldBeDag) :
    (Finset.univ.filter fun p => throwSlots shouldBeDag p = c).card = if shouldBeDag then 2 else 1 := by
  cases shouldBeDag with
  | true => exact card_ascend (ArcCount.mem_ascending.mp member)
  | false => simp [throwSlots, Finset.filter_eq']

/-- The indices of two slots. -/
def slotIndices (c : Fin n × Fin n) : ℤ × ℤ := ((c.1 : ℤ), (c.2 : ℤ))

/-- The edge between the nodes at two slots. -/
def slotEdge (alloc : ℕ ↪ Ptr) (c : Fin n × Fin n) : Edge Ptr := (alloc c.1, alloc c.2)

/-- The variables of the loop of `generate_graph` after these edges. -/
def afterEdges (alloc : ℕ ↪ Ptr) (heap : Heap Ptr) (found : List (Fin n × Fin n)) :
    Finset (ℤ × ℤ) × Heap Ptr :=
  ((found.map slotIndices).toFinset, (found.map (slotEdge alloc)).foldl Heap.addEdge heap)

theorem edgeIndices_throw (p : Fin n × Fin n) :
    edgeIndices shouldBeDag (p.1 : ℤ) (p.2 : ℤ) = slotIndices (throwSlots shouldBeDag p) := by
  cases shouldBeDag with
  | true => simp [edgeIndices, slotIndices, throwSlots, ascend]
  | false => rfl

theorem slotIndices_injective : Function.Injective (slotIndices : Fin n × Fin n → ℤ × ℤ) := by
  intro c d same
  obtain ⟨first, second⟩ := Prod.mk.inj same
  exact Prod.ext (Fin.ext (Int.natCast_inj.mp first)) (Fin.ext (Int.natCast_inj.mp second))

theorem throwSlots_admissible (p : Fin n × Fin n) : throwSlots shouldBeDag p ∈ admissible n shouldBeDag ↔
    (slotIndices (throwSlots shouldBeDag p)).1 ≠ (slotIndices (throwSlots shouldBeDag p)).2 := by
  have ordered : (ascend p).1 ≤ (ascend p).2 := min_le_max
  rw [mem_admissible]
  cases shouldBeDag with
  | true =>
    simp only [throwSlots, slotIndices, ↓reduceIte]
    omega
  | false =>
    simp only [throwSlots, slotIndices, Bool.false_eq_true, ↓reduceIte]
    omega

theorem edgeRejected_throw (p : Fin n × Fin n) :
    edgeRejected (afterEdges alloc heap found) (slotIndices (throwSlots shouldBeDag p)) = false ↔
      throwSlots shouldBeDag p ∈ admissible n shouldBeDag ∧ throwSlots shouldBeDag p ∉ found := by
  rw [throwSlots_admissible]
  simp only [edgeRejected, afterEdges, Bool.or_eq_false_iff, decide_eq_false_iff_not, List.mem_toFinset,
    List.mem_map_of_injective slotIndices_injective]

theorem recordEdge_throw (p : Fin n × Fin n) :
    recordEdge ((List.range n).map alloc) (afterEdges alloc heap found) (slotIndices (throwSlots shouldBeDag p)) =
      .ok (afterEdges alloc heap (found ++ [throwSlots shouldBeDag p])) := by
  have reads : ∀ i : Fin n, read ((List.range n).map alloc) (i : ℤ) = .ok (alloc i) := by
    intro i
    have bound : (i : ℕ) < ((List.range n).map alloc).length := by simp
    rw [show read ((List.range n).map alloc) (i : ℤ) = _ from readAt_natCast bound]
    simp
  simp only [recordEdge, slotIndices, reads, afterEdges]
  simp [slotEdge]
  rfl

/-- A call of `generate_graph` that its checks accept is a run of sampling. -/
theorem generateGraph_eq_sample
    (accepted : ∀ what, generateGraph alloc heap [] n m shouldBeDag ≠ .error (.invalidArgument what))
    (throws : List (Fin n × Fin n)) :
    generateGraph alloc heap (nodeDraws throws) n m shouldBeDag =
      match sample (throwSlots shouldBeDag) (admissible n shouldBeDag) m [] throws with
      | none => .error .outOfDraws
      | some (found, rest) => .ok (⟨(afterEdges alloc (newNodes alloc heap n) found).2,
          ⟨(List.range n).map alloc, m⟩⟩, nodeDraws rest) := by
  have run : fill Fault.outOfDraws (fun a b => .ok (edgeIndices shouldBeDag a b)) edgeRejected
      (recordEdge ((List.range n).map alloc)) m (afterEdges alloc (newNodes alloc heap n) [])
        (nodeDraws throws) = _ :=
    fill_eq_sample (afterEdges alloc (newNodes alloc heap n)) (fun p => congrArg _ (edgeIndices_throw p))
      (fun p found _ => edgeRejected_throw p) (fun p found => recordEdge_throw p) ⟨.nil, by simp⟩ throws
  have call := generateGraph_of_reaches accepted .start (nodeDraws throws)
  have loop := generateEdges_eq_fill shouldBeDag ((List.range n).map alloc) m
    (afterEdges alloc (newNodes alloc heap n) ([] : List (Fin n × Fin n))) (nodeDraws throws)
  rw [run] at loop
  rw [List.nil_append] at call
  refine call.trans ((congrArg _ loop).trans ?_)
  cases sample (throwSlots shouldBeDag) (admissible n shouldBeDag) m [] throws with
  | none => rfl
  | some last => rfl

/-- The edges of the graph made from slots. -/
theorem afterEdges_adj (count : ℤ) (i j : Fin n) :
    Adj ⟨(afterEdges alloc (newNodes alloc heap n) found).2, ⟨(List.range n).map alloc, count⟩⟩ (alloc i)
      (alloc j) ↔ (i, j) ∈ found := by
  have injective : Function.Injective (slotEdge alloc : Fin n × Fin n → Edge Ptr) := by
    intro c d same
    obtain ⟨first, second⟩ := Prod.mk.inj same
    exact Prod.ext (Fin.ext (alloc.injective first)) (Fin.ext (alloc.injective second))
  have member : alloc i ∈ (List.range n).map alloc := List.mem_map_of_mem (List.mem_range.mpr i.isLt)
  simp only [Adj, afterEdges, addEdges_outgoing, newNodes_alloc alloc heap i.isLt, List.nil_append, mem_headsFrom,
    member, true_and]
  rw [show (alloc i, alloc j) = slotEdge alloc (i, j) from rfl, List.mem_map_of_injective injective]

/-- The call returns a graph with exactly these edges if it finds them in some order. -/
theorem generateGraph_arcs_iff
    (accepted : ∀ what, generateGraph alloc heap [] n m shouldBeDag ≠ .error (.invalidArgument what))
    (arcs : Finset (Fin n × Fin n)) (throws : List (Fin n × Fin n)) :
    (∃ s rest, generateGraph alloc heap (nodeDraws throws) n m shouldBeDag = .ok (s, rest) ∧
      ∀ i j : Fin n, s.Adj (alloc i) (alloc j) ↔ (i, j) ∈ arcs) ↔
      ∃ found ∈ arcs.toList.permutations.toFinset,
        Finds (throwSlots shouldBeDag) (admissible n shouldBeDag) m [] found throws := by
  simp only [generateGraph_eq_sample accepted, List.mem_toFinset, List.mem_permutations]
  constructor
  · rintro ⟨s, rest, returned, same⟩
    cases outcome : sample (throwSlots shouldBeDag) (admissible n shouldBeDag) m [] throws with
    | none => simp [outcome] at returned
    | some last =>
      rw [outcome] at returned
      obtain rfl := congrArg Prod.fst (Except.ok.inj returned)
      have unique := (sample_chosen outcome ⟨.nil, by simp⟩).unique
      refine ⟨last.1, (List.perm_ext_iff_of_nodup unique arcs.nodup_toList).mpr fun c => ?_, last.2, outcome⟩
      rw [Finset.mem_toList, ← same, afterEdges_adj]
  · rintro ⟨found, perm, rest, outcome⟩
    refine ⟨_, _, by rw [outcome], fun i j => ?_⟩
    rw [afterEdges_adj, perm.mem_iff, Finset.mem_toList]

/-- A call finds each set of admissible edges with the same probability. -/
theorem tendsto_share_arcs
    (accepted : ∀ what, generateGraph alloc heap [] n m shouldBeDag ≠ .error (.invalidArgument what))
    {arcs : Finset (Fin n × Fin n)} (size : arcs.card = m) (inside : arcs ⊆ admissible n shouldBeDag) :
    Tendsto (share fun throws : List (Fin n × Fin n) =>
      ∃ s rest, generateGraph alloc heap (nodeDraws throws) n m shouldBeDag = .ok (s, rest) ∧
        ∀ i j : Fin n, s.Adj (alloc i) (alloc j) ↔ (i, j) ∈ arcs) atTop
      (𝓝 (1 / (admissible n shouldBeDag).card.choose m)) := by
  obtain ⟨enough, _, _⟩ := room_of_accepted accepted
  have : Nonempty (Fin n × Fin n) := ⟨⟨0, by omega⟩, ⟨0, by omega⟩⟩
  have positive : 0 < if shouldBeDag then 2 else 1 := by split_ifs <;> omega
  rw [share_congr (generateGraph_arcs_iff accepted arcs), ← size]
  exact tendsto_share_finds_set (fun c member => card_throwSlots member) positive inside

end Generation

namespace Store

variable {alloc : ℕ ↪ Ptr} {heap : Heap Ptr} {n m : ℕ} {shouldBeDag : Bool}

/-- All graphs with the requested edges are equally likely to be generated, and the call returns with
probability one. -/
theorem generateGraph_uniform
    (accepted : ∀ what, generateGraph alloc heap [] n m shouldBeDag ≠ .error (.invalidArgument what)) :
    Tendsto (share fun throws : List (Fin n × Fin n) =>
        ∃ s rest, generateGraph alloc heap (nodeDraws throws) n m shouldBeDag = .ok (s, rest)) atTop (𝓝 1) ∧
      ∀ arcs : Finset (Fin n × Fin n), arcs.card = m →
        (∀ e ∈ arcs, if shouldBeDag then e.1 < e.2 else e.1 ≠ e.2) →
        Tendsto (share fun throws : List (Fin n × Fin n) =>
          ∃ s rest, generateGraph alloc heap (nodeDraws throws) n m shouldBeDag = .ok (s, rest) ∧
            ∀ i j : Fin n, s.Adj (alloc i) (alloc j) ↔ (i, j) ∈ arcs) atTop
          (𝓝 (1 / (if shouldBeDag then n * (n - 1) / 2 else n * (n - 1) : ℕ).choose m)) := by
  obtain ⟨enough, _, room⟩ := room_of_accepted accepted
  simp only [Int.toNat_natCast] at room
  rw [← card_admissible] at room ⊢
  have : Nonempty (Fin n × Fin n) := ⟨⟨0, by omega⟩, ⟨0, by omega⟩⟩
  have fibers : ∀ c ∈ admissible n shouldBeDag, (Finset.univ.filter fun p => throwSlots shouldBeDag p = c).card =
      if shouldBeDag then 2 else 1 := fun c member => card_throwSlots member
  have positive : 0 < if shouldBeDag then 2 else 1 := by split_ifs <;> omega
  constructor
  · have returns : ∀ throws : List (Fin n × Fin n), (∃ s rest, generateGraph alloc heap (nodeDraws throws) n m
        shouldBeDag = .ok (s, rest)) ↔
          ∃ found, Finds (throwSlots shouldBeDag) (admissible n shouldBeDag) m [] found throws := by
      intro throws
      simp only [generateGraph_eq_sample accepted, Finds]
      cases sample (throwSlots shouldBeDag) (admissible n shouldBeDag) m [] throws with
      | none => simp
      | some last => exact ⟨fun _ => ⟨last.1, last.2, rfl⟩, fun _ => ⟨_, _, rfl⟩⟩
    rw [share_congr returns]
    exact tendsto_share_returns fibers positive ⟨.nil, by simp⟩ (by simpa using room)
  · exact fun arcs size inside => tendsto_share_arcs accepted size fun e member =>
      mem_admissible.mpr (inside e member)

/-- One edge between three nodes, in ascending order. -/
theorem generateGraph_uniform_third :
    Tendsto (share fun throws : List (Fin 3 × Fin 3) => ∃ s rest,
      generateGraph (.refl ℕ) (fun _ => ⟨[], [], 0⟩) (nodeDraws throws) (3 : ℕ) (1 : ℕ) true =
          .ok (s, rest) ∧
        ∀ i j : Fin 3, s.Adj i j ↔ (i, j) ∈ ({(0, 2)} : Finset (Fin 3 × Fin 3))) atTop (𝓝 (1 / 3)) := by
  have accepted : ∀ what, generateGraph (.refl ℕ) (fun _ => ⟨[], [], 0⟩) [] (3 : ℕ) (1 : ℕ) true ≠
      .error (.invalidArgument what) := by
    intro what refused
    rw [show generateGraph (.refl ℕ) (fun _ => ⟨[], [], 0⟩) [] (3 : ℕ) (1 : ℕ) true = .error .outOfDraws from
      rfl] at refused
    simp at refused
  have law := (generateGraph_uniform accepted).2 {(0, 2)} rfl (by decide)
  rw [show (if true = true then 3 * (3 - 1) / 2 else 3 * (3 - 1) : ℕ).choose 1 = 3 by decide] at law
  exact_mod_cast law

end Store

end DynamicDag
