import DynamicDag.General.ArcCount
import DynamicDag.Proofs.Rejection

/-! # Generated graphs

The generator allocates nodes without edges and then adds the edges it accepts, one by one. So a
generated graph is the edgeless graph with a list of distinct, loop-free edges appended; in the mode for
dags they ascend. The argument check compares the number of edges with a product that is one half too
small when the number of nodes is odd.
-/

namespace DynamicDag

open CheckedAccess Relation Numbering

variable {Ptr : Type} [DecidableEq Ptr] {alloc : ℕ ↪ Ptr} {heap : Heap Ptr}

theorem newNodes_alloc (alloc : ℕ ↪ Ptr) (heap : Heap Ptr) {i n : ℕ} (early : i < n) :
    newNodes alloc heap n (alloc i) = ⟨[], [], i⟩ := by
  induction n with
  | zero => omega
  | succ n ih =>
    rw [newNodes, Function.update_apply]
    obtain rfl | last := eq_or_ne i n
    · rw [if_pos rfl]
    · rw [if_neg fun same => last (alloc.injective same), ih (by omega)]

namespace Store

/-- The nodes of a generated graph before its first edge. -/
def allocated (alloc : ℕ ↪ Ptr) (heap : Heap Ptr) (n : ℕ) : Store Ptr where
  heap := newNodes alloc heap n
  dag := ⟨(List.range n).map alloc, 0⟩

theorem allocated_node {n : ℕ} {v : Ptr} (member : v ∈ (allocated alloc heap n).dag.nodes) :
    ((allocated alloc heap n).heap v).outgoingEdges = [] ∧
      ((allocated alloc heap n).heap v).incomingEdges = [] := by
  obtain ⟨i, inRange, rfl⟩ := List.mem_map.mp member
  have fresh : (allocated alloc heap n).heap (alloc i) = ⟨[], [], i⟩ :=
    newNodes_alloc alloc heap (List.mem_range.mp inRange)
  rw [fresh]
  exact ⟨rfl, rfl⟩

theorem allocated_numbered (alloc : ℕ ↪ Ptr) (heap : Heap Ptr) (n : ℕ) :
    Numbered (allocated alloc heap n).heap.index (allocated alloc heap n).dag.nodes := by
  intro i bound
  have inRange : i < n := by simpa [allocated] using bound
  have fresh : (allocated alloc heap n).heap (alloc i) = ⟨[], [], i⟩ := newNodes_alloc alloc heap inRange
  have same : (allocated alloc heap n).dag.nodes[i] = alloc i := by simp [allocated]
  rw [same, Heap.index, fresh]

theorem allocated_wired (alloc : ℕ ↪ Ptr) (heap : Heap Ptr) (n : ℕ) : (allocated alloc heap n).Wired where
  nodup := (allocated_numbered alloc heap n).nodup
  outgoing u member v edge := by simp [(allocated_node member).1] at edge
  incoming v member u edge := by simp [(allocated_node member).2] at edge
  mirrored u left v right := by rw [(allocated_node left).1, (allocated_node right).2]; rfl

theorem allocated_counted (alloc : ℕ ↪ Ptr) (heap : Heap Ptr) (n : ℕ) : (allocated alloc heap n).Counted := by
  have none : ((allocated alloc heap n).dag.nodes.map fun u =>
      ((allocated alloc heap n).heap u).outgoingEdges.length).sum = 0 := by
    apply List.sum_eq_zero_iff_forall_eq_nat.mpr
    intro k member
    obtain ⟨u, inNodes, rfl⟩ := List.mem_map.mp member
    rw [(allocated_node inNodes).1]
    rfl
  rw [Counted, none]
  rfl

end Store

/-- What the loop adds: distinct new edges without loops, which ascend in the mode for dags. -/
structure NewEdges (index : Ptr → ℤ) (nodes : List Ptr) (shouldBeDag : Bool) (generated : Finset (ℤ × ℤ))
    (edges : List (Edge Ptr)) : Prop where
  nodup : edges.Nodup
  members : ∀ e ∈ edges, e.1 ∈ nodes ∧ e.2 ∈ nodes
  loopFree : ∀ e ∈ edges, e.1 ≠ e.2
  ascends : shouldBeDag = true → ∀ e ∈ edges, index e.1 < index e.2
  fresh : ∀ e ∈ edges, (index e.1, index e.2) ∉ generated

section Loop

variable {index : Ptr → ℤ} {nodes : List Ptr} {shouldBeDag : Bool} {generated : Finset (ℤ × ℤ)}
  {draws rest : List ℤ} {rounds : ℕ}

omit [DecidableEq Ptr] in
/-- Both indices made from two draws are one of the draws. -/
theorem edgeIndices_draws (shouldBeDag : Bool) (a b : ℤ) :
    ((edgeIndices shouldBeDag a b).1 = a ∨ (edgeIndices shouldBeDag a b).1 = b) ∧
      ((edgeIndices shouldBeDag a b).2 = a ∨ (edgeIndices shouldBeDag a b).2 = b) := by
  cases shouldBeDag
  · exact ⟨.inl rfl, .inr rfl⟩
  · exact ⟨min_choice a b, max_choice a b⟩

omit [DecidableEq Ptr] in
/-- Reading a slot yields the node with this index. -/
theorem exists_read (numbered : Numbered index nodes) {i : ℤ} (bounds : 0 ≤ i ∧ i < nodes.length) :
    ∃ v ∈ nodes, read nodes i = .ok v ∧ index v = i := by
  obtain ⟨slot, rfl⟩ := Int.eq_ofNat_of_zero_le bounds.1
  have bound : slot < nodes.length := by omega
  exact ⟨nodes[slot], List.getElem_mem bound, CheckedAccess.readAt_natCast bound, numbered slot bound⟩

omit [DecidableEq Ptr] in
/-- One accepted edge and the rounds after it. -/
theorem NewEdges.cons {e : Edge Ptr} {edges : List (Edge Ptr)} (left : e.1 ∈ nodes) (right : e.2 ∈ nodes)
    (different : e.1 ≠ e.2) (up : shouldBeDag = true → index e.1 < index e.2)
    (fresh : (index e.1, index e.2) ∉ generated)
    (later : NewEdges index nodes shouldBeDag (insert (index e.1, index e.2) generated) edges) :
    NewEdges index nodes shouldBeDag generated (e :: edges) := by
  have apart : ∀ f ∈ edges, (index f.1, index f.2) ≠ (index e.1, index e.2) ∧
      (index f.1, index f.2) ∉ generated := fun f member => by
    have := later.fresh f member
    rwa [Finset.mem_insert, not_or] at this
  refine ⟨List.nodup_cons.mpr ⟨fun again => (apart e again).1 rfl, later.nodup⟩, ?_, ?_, ?_, ?_⟩
  · exact List.forall_mem_cons.mpr ⟨⟨left, right⟩, later.members⟩
  · exact List.forall_mem_cons.mpr ⟨different, later.loopFree⟩
  · exact fun dag => List.forall_mem_cons.mpr ⟨up dag, later.ascends dag⟩
  · exact List.forall_mem_cons.mpr ⟨fresh, fun f member => (apart f member).2⟩

/-- The loop returns with new edges appended. -/
theorem generateEdges_ok (numbered : Numbered heap.index nodes)
    (inRange : ∀ d ∈ draws, 0 ≤ d ∧ d < nodes.length) {after : Heap Ptr}
    (returned : generateEdges shouldBeDag nodes rounds generated heap draws = .ok (after, rest)) :
    ∃ edges : List (Edge Ptr), after = edges.foldl Heap.addEdge heap ∧ edges.length = rounds ∧
      NewEdges heap.index nodes shouldBeDag generated edges ∧ rest ⊆ draws := by
  induction rounds generalizing generated heap draws with
  | zero =>
    cases returned
    exact ⟨[], rfl, rfl, ⟨.nil, by simp, by simp, by simp, by simp⟩, fun d member => member⟩
  | succ rounds ih =>
    obtain ⟨⟨pair, later⟩, outcome, returned⟩ := bind_eq_ok.mp returned
    obtain ⟨⟨a, left, b, right, made⟩, accepted, fewer⟩ := RejectionSampling.draw_ok outcome
    simp only [Bool.or_eq_false_iff, decide_eq_false_iff_not] at accepted
    obtain rfl : edgeIndices shouldBeDag a b = pair := Except.ok.inj made
    have bounds {i : ℤ} (isDraw : i = a ∨ i = b) : 0 ≤ i ∧ i < nodes.length :=
      isDraw.elim (fun same => same ▸ inRange a left) fun same => same ▸ inRange b right
    obtain ⟨first, second⟩ := edgeIndices_draws shouldBeDag a b
    obtain ⟨u, uMember, readU, atU⟩ := exists_read numbered (bounds first)
    obtain ⟨v, vMember, readV, atV⟩ := exists_read numbered (bounds second)
    obtain ⟨_, atFirst, returned⟩ := bind_eq_ok.mp returned
    obtain rfl := Except.ok.inj (readU.symm.trans atFirst)
    obtain ⟨_, atSecond, returned⟩ := bind_eq_ok.mp returned
    obtain rfl := Except.ok.inj (readV.symm.trans atSecond)
    have same := addEdge_index heap (u, v)
    obtain ⟨edges, added, length, new, sub⟩ :=
      ih (by rw [same]; exact numbered) (fun d member => inRange d (fewer member)) returned
    have pair : (heap.index u, heap.index v) = edgeIndices shouldBeDag a b := by rw [atU, atV]
    rw [same, ← pair] at new
    rw [← pair] at accepted
    refine ⟨(u, v) :: edges, added, by rw [List.length_cons, length], ?_, fun d member => fewer (sub member)⟩
    refine new.cons uMember vMember (fun equal => accepted.1 (congrArg heap.index equal)) ?_ accepted.2
    rintro rfl
    have different : heap.index u ≠ heap.index v := accepted.1
    change heap.index u < heap.index v
    rw [atU, atV] at different ⊢
    simp only [edgeIndices, ↓reduceIte] at different ⊢
    omega

/-- The loop fails for lack of draws or on a draw that is no slot. -/
theorem generateEdges_error {e : Fault}
    (failed : generateEdges shouldBeDag nodes rounds generated heap draws = .error e) :
    e = .outOfDraws ∨ e = .outOfBounds ∧ ∃ d ∈ draws, d < 0 ∨ (nodes.length : ℤ) ≤ d := by
  induction rounds generalizing generated heap draws with
  | zero => contradiction
  | succ rounds ih =>
    obtain outcome | ⟨⟨pair, later⟩, outcome, failed⟩ := bind_eq_error.mp failed
    · exact .inl (RejectionSampling.draw_error (fun a _ b _ => ⟨_, rfl⟩) outcome)
    · obtain ⟨⟨a, left, b, right, made⟩, _, fewer⟩ := RejectionSampling.draw_ok outcome
      obtain rfl : edgeIndices shouldBeDag a b = pair := Except.ok.inj made
      have wrong {i : ℤ} (isDraw : i = a ∨ i = b) (bad : i < 0 ∨ (nodes.length : ℤ) ≤ i) :
          ∃ d ∈ draws, d < 0 ∨ (nodes.length : ℤ) ≤ d :=
        isDraw.elim (fun same => ⟨a, left, same ▸ bad⟩) fun same => ⟨b, right, same ▸ bad⟩
      obtain ⟨first, second⟩ := edgeIndices_draws shouldBeDag a b
      obtain outside | ⟨u, _, failed⟩ := bind_eq_error.mp failed
      · obtain ⟨rfl, bad⟩ := readAt_error outside
        exact .inr ⟨rfl, wrong first bad⟩
      · obtain outside | ⟨v, _, failed⟩ := bind_eq_error.mp failed
        · obtain ⟨rfl, bad⟩ := readAt_error outside
          exact .inr ⟨rfl, wrong second bad⟩
        · obtain short | ⟨outside, d, member, bad⟩ := ih failed
          · exact .inl short
          · exact .inr ⟨outside, d, fewer member, bad⟩

end Loop

/-- In an edge list without repetition each node has each neighbour once. -/
theorem headsFrom_nodup {edges : List (Edge Ptr)} (unique : edges.Nodup) (u : Ptr) :
    (headsFrom edges u).Nodup := by
  apply List.Nodup.map_on _ (unique.filter _)
  intro e left f right same
  simp only [List.mem_filter, decide_eq_true_eq] at left right
  exact Prod.ext (left.2.trans right.2.symm) same

theorem tailsTo_nodup {edges : List (Edge Ptr)} (unique : edges.Nodup) (v : Ptr) :
    (tailsTo edges v).Nodup := by
  apply List.Nodup.map_on _ (unique.filter _)
  intro e left f right same
  simp only [List.mem_filter, decide_eq_true_eq] at left right
  exact Prod.ext same (left.2.trans right.2.symm)

namespace Store

variable {s : Store Ptr} {draws rest : List ℤ} {shouldBeDag : Bool}

theorem allocated_length (alloc : ℕ ↪ Ptr) (heap : Heap Ptr) (n : ℕ) :
    (allocated alloc heap n).dag.nodes.length = n := by
  simp [allocated]

/-- A returned graph is the allocated one with new edges. -/
theorem generateGraph_ok {n m : ℤ} (inRange : ∀ d ∈ draws, 0 ≤ d ∧ d ≤ n - 1)
    (returned : generateGraph alloc heap draws n m shouldBeDag = .ok (s, rest)) :
    ∃ edges, s = appendAll edges (allocated alloc heap n.toNat) ∧ 2 ≤ n ∧ (edges.length : ℤ) = m ∧
      NewEdges (allocated alloc heap n.toNat).heap.index (allocated alloc heap n.toNat).dag.nodes
        shouldBeDag ∅ edges ∧ rest ⊆ draws := by
  unfold generateGraph at returned
  split_ifs at returned with few negative many
  have numbered := allocated_numbered alloc heap n.toNat
  have bounds : ∀ d ∈ draws, 0 ≤ d ∧ d < (allocated alloc heap n.toNat).dag.nodes.length := by
    intro d member
    have := inRange d member
    rw [allocated_length]
    omega
  obtain ⟨⟨after, left⟩, outcome, returned⟩ := bind_eq_ok.mp returned
  obtain ⟨edges, added, length, new, sub⟩ := generateEdges_ok numbered bounds outcome
  cases returned
  refine ⟨edges, ?_, by omega, by omega, new, sub⟩
  have count : m = 0 + (edges.length : ℤ) := by omega
  rw [added, count]
  rfl

/-- With draws in range a call fails by its argument checks or for lack of draws. -/
theorem generateGraph_error {n m : ℤ} (inRange : ∀ d ∈ draws, 0 ≤ d ∧ d ≤ n - 1) {e : Fault}
    (failed : generateGraph alloc heap draws n m shouldBeDag = .error e) :
    (∃ what, e = .invalidArgument what) ∨ e = .outOfDraws := by
  unfold generateGraph at failed
  split_ifs at failed with few negative many
  · exact .inl ⟨_, (Except.error.inj failed).symm⟩
  · exact .inl ⟨_, (Except.error.inj failed).symm⟩
  · exact .inl ⟨_, (Except.error.inj failed).symm⟩
  · obtain outcome | ⟨_, _, returned⟩ := bind_eq_error.mp failed
    · obtain short | ⟨_, d, member, bad⟩ := generateEdges_error outcome
      · exact .inr short
      · have := inRange d member
        rw [List.length_map, List.length_range] at bad
        omega
    · contradiction

section Generated

variable {n : ℕ} {edges : List (Edge Ptr)}
  (new : NewEdges (allocated alloc heap n).heap.index (allocated alloc heap n).dag.nodes shouldBeDag ∅ edges)

include new

theorem generated_wired : (appendAll edges (allocated alloc heap n)).Wired :=
  (allocated_wired alloc heap n).appendAll new.members

theorem generated_counted : (appendAll edges (allocated alloc heap n)).Counted :=
  (allocated_counted alloc heap n).appendAll (allocated_wired alloc heap n) new.members

omit new in
theorem generated_numbered (edges : List (Edge Ptr)) :
    Numbered (appendAll edges (allocated alloc heap n)).heap.index
      (appendAll edges (allocated alloc heap n)).dag.nodes := by
  rw [appendAll_index]
  exact allocated_numbered alloc heap n

theorem generated_adj (u v : Ptr) : (u, v) ∈ edges ↔ (appendAll edges (allocated alloc heap n)).Adj u v := by
  rw [appendAll_adj new.members, AdjWith]
  apply (or_iff_right _).symm
  intro old
  have none := old.2
  rw [(allocated_node old.1).1] at none
  simp at none

theorem generated_simple {v : Ptr} (member : v ∈ (allocated alloc heap n).dag.nodes) :
    ((appendAll edges (allocated alloc heap n)).heap v).outgoingEdges.Nodup ∧
      ((appendAll edges (allocated alloc heap n)).heap v).incomingEdges.Nodup := by
  rw [appendAll_outgoing, appendAll_incoming, (allocated_node member).1, (allocated_node member).2]
  exact ⟨headsFrom_nodup new.nodup v, tailsTo_nodup new.nodup v⟩

/-- In the mode for dags the generated graph stands in topological order. -/
theorem generated_sorted (dag : shouldBeDag = true) : (appendAll edges (allocated alloc heap n)).Sorted := by
  have wired := generated_wired new
  refine ⟨wired.inOrder (generated_numbered edges) fun u member v edge => ?_, wired⟩
  rw [appendAll_index]
  exact new.ascends dag _ ((generated_adj new u v).mpr ⟨member, edge⟩)

end Generated

/-- A call that its argument checks accept and that has enough draws returns a graph of the requested
size, with distinct edges without loops and mirrored lists; in the mode for dags it stands in topological
order. -/
theorem generateGraph_wellFormed {n m : ℤ} (inRange : ∀ d ∈ draws, 0 ≤ d ∧ d ≤ n - 1)
    (accepted : ∀ what, generateGraph alloc heap draws n m shouldBeDag ≠ .error (.invalidArgument what))
    (longEnough : generateGraph alloc heap draws n m shouldBeDag ≠ .error .outOfDraws) :
    ∃ s rest, generateGraph alloc heap draws n m shouldBeDag = .ok (s, rest) ∧
      (s.dag.nodes.length : ℤ) = n ∧ s.dag.nodes.Nodup ∧ s.Indexed ∧ s.dag.numberOfEdges = m ∧
      (∃ edges : List (Edge Ptr), edges.Nodup ∧ (edges.length : ℤ) = m ∧
        (∀ u v, (u, v) ∈ edges ↔ s.Adj u v) ∧
        ∀ e ∈ edges, e.1 ∈ s.dag.nodes ∧ e.2 ∈ s.dag.nodes ∧ e.1 ≠ e.2) ∧
      (∀ u ∈ s.dag.nodes, ∀ v ∈ s.dag.nodes,
        v ∈ (s.heap u).outgoingEdges ↔ u ∈ (s.heap v).incomingEdges) ∧
      (∀ v ∈ s.dag.nodes, (s.heap v).outgoingEdges.Nodup ∧ (s.heap v).incomingEdges.Nodup) ∧
      s.Wired ∧ s.Counted ∧
      (shouldBeDag = true → (∀ u v, s.Adj u v → s.heap.index u < s.heap.index v) ∧
        graphIsInTopologicalOrder s.heap s.dag = true ∧ ∀ v, ¬ TransGen s.Adj v v) := by
  cases generated : generateGraph alloc heap draws n m shouldBeDag with
  | error e =>
    obtain ⟨what, rfl⟩ | rfl := generateGraph_error inRange generated
    · exact absurd generated (accepted what)
    · exact absurd generated longEnough
  | ok result =>
    obtain ⟨s, rest⟩ := result
    obtain ⟨edges, rfl, enough, length, new, _⟩ := generateGraph_ok inRange generated
    have wired := generated_wired new
    have total : (appendAll edges (allocated alloc heap n.toNat)).dag.numberOfEdges = 0 + (edges.length : ℤ) := rfl
    refine ⟨_, rest, rfl, ?_, wired.nodup, generated_numbered edges, ?_,
      ⟨edges, new.nodup, length, generated_adj new, ?_⟩, fun u left v right => ?_,
      fun v member => generated_simple new member, wired, generated_counted new, fun dag => ?_⟩
    · rw [appendAll_nodes, allocated_length]
      omega
    · rw [total]
      omega
    · exact fun e member => ⟨(new.members e member).1, (new.members e member).2, new.loopFree e member⟩
    · rw [← List.count_pos_iff, wired.mirrored u left v right, List.count_pos_iff]
    · have sorted := generated_sorted new dag
      exact ⟨fun u v edge => sorted.ascends edge.1 edge.2, sorted.inOrder, acyclic_of_inOrder sorted.inOrder⟩

/-- Four draws make one edge of a dag on three nodes: the first pair is a loop, the second descends. -/
theorem generateGraph_wellFormed_three : ∃ s rest,
    generateGraph (.refl ℕ) (fun _ => ⟨[], [], 0⟩) [1, 1, 2, 0] 3 1 true = .ok (s, rest) ∧
      graphIsInTopologicalOrder s.heap s.dag = true := by
  obtain ⟨result, outcome⟩ : ∃ result,
      generateGraph (.refl ℕ) (fun _ => ⟨[], [], 0⟩) [1, 1, 2, 0] 3 1 true = .ok result := ⟨_, rfl⟩
  have accepted (what : String) : generateGraph (.refl ℕ) (fun _ => ⟨[], [], 0⟩) [1, 1, 2, 0] 3 1 true ≠
      .error (.invalidArgument what) := fun refused => by rw [outcome] at refused; contradiction
  obtain ⟨s, rest, returned, _, _, _, _, _, _, _, _, _, sorted⟩ :=
    generateGraph_wellFormed (by decide) accepted fun short => by rw [outcome] at short; contradiction
  exact ⟨s, rest, returned, (sorted rfl).2.1⟩

/-- The argument checks, and nothing else, refuse a request. -/
theorem generateGraph_refused_iff {n m : ℤ} (draws : List ℤ) (shouldBeDag : Bool) :
    (∃ what, generateGraph alloc heap draws n m shouldBeDag = .error (.invalidArgument what)) ↔
      n < 2 ∨ m < 0 ∨ (shouldBeDag = true ∧ n / 2 * (n - 1) < m) ∨
        ¬ shouldBeDag = true ∧ n * (n - 1) < m := by
  unfold generateGraph
  split_ifs with few negative many
  · exact iff_of_true ⟨_, rfl⟩ (.inl few)
  · exact iff_of_true ⟨_, rfl⟩ (.inr (.inl negative))
  · exact iff_of_true ⟨_, rfl⟩ (.inr (.inr many))
  · refine iff_of_false ?_ (fun refused => ?_)
    · rintro ⟨what, failed⟩
      obtain outcome | ⟨_, _, returned⟩ := bind_eq_error.mp failed
      · obtain short | ⟨outside, _⟩ := generateEdges_error outcome <;> contradiction
      · contradiction
    · exact refused.elim few fun rest => rest.elim negative many

/-- The product of the argument check falls short of the number of pairs at most for odd `n`. -/
theorem truncated_le (n : ℕ) : n / 2 * (n - 1) ≤ n * (n - 1) / 2 := by
  rw [Nat.le_div_iff_mul_le Nat.two_pos, Nat.mul_right_comm]
  exact Nat.mul_le_mul_right _ (Nat.div_mul_le_self n 2)

theorem truncated_eq {n : ℕ} (even : n % 2 = 0) : n / 2 * (n - 1) = n * (n - 1) / 2 := by
  obtain ⟨half, rfl⟩ := Nat.dvd_of_mod_eq_zero even
  rw [Nat.mul_div_cancel_left _ Nat.two_pos, Nat.mul_assoc, Nat.mul_div_cancel_left _ Nat.two_pos]

/-- Without `should_be_dag` the generator refuses exactly the impossible requests. -/
theorem generateGraph_refuses_general (draws : List ℤ) {n : ℕ} (enough : 2 ≤ n) (m : ℕ) :
    (∃ what, generateGraph alloc heap draws n m false = .error (.invalidArgument what)) ↔
      ¬ ∃ arcs : Finset (Fin n × Fin n), arcs.card = m ∧ ∀ e ∈ arcs, e.1 ≠ e.2 := by
  have full : (n : ℤ) * ((n : ℤ) - 1) = ((n * (n - 1) : ℕ) : ℤ) := by
    rw [show (n : ℤ) - 1 = ((n - 1 : ℕ) : ℤ) by omega, Int.natCast_mul]
  rw [generateGraph_refused_iff, ArcCount.exists_loopFree_iff, Fintype.card_fin, full]
  simp only [Bool.false_eq_true, false_and, false_or, not_false_eq_true, true_and]
  omega

/-- The generator refuses exactly the impossible requests, provided the number of nodes is even or the
number of edges does not fall between the truncated and the true number of pairs. -/
theorem generateGraph_refuses_impossible_iff (draws : List ℤ) {n : ℕ} (enough : 2 ≤ n) (m : ℕ) :
    (((∃ what, generateGraph alloc heap draws n m true = .error (.invalidArgument what)) ↔
        ¬ ∃ arcs : Finset (Fin n × Fin n), arcs.card = m ∧ (∀ e ∈ arcs, e.1 ≠ e.2) ∧
          Acyclic fun a b => (a, b) ∈ arcs) ∧
      ((∃ what, generateGraph alloc heap draws n m false = .error (.invalidArgument what)) ↔
        ¬ ∃ arcs : Finset (Fin n × Fin n), arcs.card = m ∧ ∀ e ∈ arcs, e.1 ≠ e.2)) ↔
      n % 2 = 0 ∨ m ≤ n / 2 * (n - 1) ∨ n * (n - 1) / 2 < m := by
  have loopFree : (∃ arcs : Finset (Fin n × Fin n), arcs.card = m ∧ (∀ e ∈ arcs, e.1 ≠ e.2) ∧
      Acyclic fun a b => (a, b) ∈ arcs) ↔
      ∃ arcs : Finset (Fin n × Fin n), arcs.card = m ∧ Acyclic fun a b => (a, b) ∈ arcs :=
    exists_congr fun arcs => and_congr_right fun _ =>
      and_iff_right_of_imp fun acyclic _ => ArcCount.ne_of_acyclic acyclic
  have less : (n : ℤ) - 1 = ((n - 1 : ℕ) : ℤ) := by omega
  have half : (n : ℤ) / 2 * ((n : ℤ) - 1) = ((n / 2 * (n - 1) : ℕ) : ℤ) := by
    rw [less, Int.natCast_mul, Int.natCast_ediv]
    rfl
  rw [and_iff_left (generateGraph_refuses_general draws enough m), generateGraph_refused_iff, loopFree,
    ArcCount.exists_acyclic_iff, Fintype.card_fin, half]
  have below := truncated_le n
  have equal := @truncated_eq n
  simp only [true_and, not_true_eq_false, false_and, or_false]
  omega

/-- For an even number of nodes the condition holds. -/
theorem generateGraph_refuses_impossible_iff_four :
    (∃ what, generateGraph (.refl ℕ) (fun _ => ⟨[], [], 0⟩) [] ((4 : ℕ) : ℤ) ((7 : ℕ) : ℤ) true =
        .error (.invalidArgument what)) ↔
      ¬ ∃ arcs : Finset (Fin 4 × Fin 4), arcs.card = 7 ∧ (∀ e ∈ arcs, e.1 ≠ e.2) ∧
        Acyclic fun a b => (a, b) ∈ arcs :=
  ((generateGraph_refuses_impossible_iff [] (show 2 ≤ 4 by decide) 7).mpr (.inl rfl)).1

/-- Five nodes have room for ten edges in a dag; a request for nine is refused. -/
theorem generateGraph_refuses_nine :
    (∃ what, generateGraph (.refl ℕ) (fun _ => ⟨[], [], 0⟩) [] 5 9 true = .error (.invalidArgument what)) ∧
      ∃ arcs : Finset (Fin 5 × Fin 5), arcs.card = 9 ∧ (∀ e ∈ arcs, e.1 ≠ e.2) ∧
        Acyclic fun a b => (a, b) ∈ arcs := by
  refine ⟨⟨_, rfl⟩, ?_⟩
  obtain ⟨arcs, size, acyclic⟩ := (ArcCount.exists_acyclic_iff (α := Fin 5) 9).mpr (by decide)
  exact ⟨arcs, size, fun _ => ArcCount.ne_of_acyclic acyclic, acyclic⟩

end Store

end DynamicDag
