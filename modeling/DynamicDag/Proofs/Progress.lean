import DynamicDag.Proofs.ExtraEdges

/-! # Whether the generators can go on

Both generation loops draw pairs until one is accepted, so they return on some continuation of the
random draws exactly if an acceptable pair is left in every round. For `generate_graph` the argument
check leaves one: there are more pairs than edges generated so far. The generator of additional edges
has no such check. It can go on exactly if the graph lacks as many ascending edges as requested.
-/

namespace DynamicDag

open CheckedAccess Numbering RejectionSampling

variable {Ptr : Type} [DecidableEq Ptr]

/-- The edge and its indices are recorded. -/
def recordEdge (nodes : List Ptr) (t : Finset (ℤ × ℤ) × Heap Ptr) (edge : ℤ × ℤ) :
    Except Fault (Finset (ℤ × ℤ) × Heap Ptr) := do
  let fromNode ← read nodes edge.1
  let toNode ← read nodes edge.2
  return (insert edge t.1, t.2.addEdge (fromNode, toNode))

/-- An index pair that `generate_graph` draws again. -/
def edgeRejected (t : Finset (ℤ × ℤ) × Heap Ptr) (edge : ℤ × ℤ) : Bool :=
  decide (edge.1 = edge.2) || decide (edge ∈ t.1)

/-- The generation loop of `generate_graph` is a run that records edges. -/
theorem generateEdges_eq_fill (shouldBeDag : Bool) (nodes : List Ptr) (rounds : ℕ)
    (t : Finset (ℤ × ℤ) × Heap Ptr) (draws : List ℤ) :
    generateEdges shouldBeDag nodes rounds t.1 t.2 draws =
      (fill .outOfDraws (fun a b => .ok (edgeIndices shouldBeDag a b)) edgeRejected (recordEdge nodes)
        rounds t draws).map fun last => (last.1.2, last.2) := by
  induction rounds generalizing t draws with
  | zero => rfl
  | succ rounds ih =>
    simp only [generateEdges, fill, bind, Except.bind]
    rw [show (fun edge => decide (edge.1 = edge.2) || decide (edge ∈ t.1)) = edgeRejected t from rfl]
    cases draw Fault.outOfDraws (fun a b => .ok (edgeIndices shouldBeDag a b)) (edgeRejected t) draws with
    | error e => rfl
    | ok drawn =>
      dsimp only [recordEdge, bind, Except.bind]
      cases read nodes drawn.1.1 with
      | error e => rfl
      | ok u =>
        cases read nodes drawn.1.2 with
        | error e => rfl
        | ok v => exact ih (insert drawn.1 t.1, t.2.addEdge (u, v)) drawn.2

section Generation

variable {alloc : ℕ ↪ Ptr} {heap : Heap Ptr} {n m : ℤ} {shouldBeDag : Bool} {draws : List ℤ} {left : ℕ}
  {t : Finset (ℤ × ℤ) × Heap Ptr}

/-- After these draws a call of `generate_graph` has `left` edges to generate, with the generated ones
and the nodes in `t`. -/
def GenerationReaches (alloc : ℕ ↪ Ptr) (heap : Heap Ptr) (n m : ℤ) (shouldBeDag : Bool) :
    List ℤ → ℕ → Finset (ℤ × ℤ) × Heap Ptr → Prop :=
  Reaches (fun a b => .ok (edgeIndices shouldBeDag a b)) edgeRejected
    (recordEdge ((List.range n.toNat).map alloc)) m.toNat (∅, newNodes alloc heap n.toNat)

theorem recordEdge_ok {nodes : List Ptr} {edge : ℤ × ℤ} {u : Finset (ℤ × ℤ) × Heap Ptr}
    (recorded : recordEdge nodes t edge = .ok u) : u.1 = insert edge t.1 := by
  obtain ⟨v, _, recorded⟩ := bind_eq_ok.mp recorded
  obtain ⟨w, _, recorded⟩ := bind_eq_ok.mp recorded
  exact congrArg Prod.fst (Except.ok.inj recorded).symm

/-- Every edge is generated once. -/
theorem generated_card (inRange : ∀ d ∈ draws, 0 ≤ d ∧ d ≤ n - 1)
    (reached : GenerationReaches alloc heap n m shouldBeDag draws left t) :
    t.1.card + left = m.toNat := by
  refine Reaches.invariant (fun left t => t.1.card + left = m.toNat) ?_ (by simp) inRange reached
  intro left t a b c u before _ _ _ accepted recorded
  have fresh : c ∉ t.1 := by
    simp only [edgeRejected, Bool.or_eq_false_iff, decide_eq_false_iff_not] at accepted
    exact accepted.2
  rw [recordEdge_ok recorded, Finset.card_insert_of_notMem fresh]
  omega

omit [DecidableEq Ptr] in
/-- Fewer generated edges than pairs leave a pair. -/
theorem exists_unused_pair {n : ℕ} {generated : Finset (ℤ × ℤ)}
    (fewer : generated.card < if shouldBeDag then n * (n - 1) / 2 else n * (n - 1)) :
    ∃ i j : Fin n, (edgeIndices shouldBeDag i j).1 ≠ (edgeIndices shouldBeDag i j).2 ∧
      edgeIndices shouldBeDag i j ∉ generated := by
  let name : Fin n × Fin n ↪ ℤ × ℤ := ⟨fun e => (e.1, e.2), fun e f same => by
    simp only [Prod.mk.injEq] at same
    exact Prod.ext (by omega) (by omega)⟩
  cases shouldBeDag with
  | true =>
    have room : generated.card < (ArcCount.ascending (Fin n)).card := by
      rw [ArcCount.card_ascending, Fintype.card_fin]
      exact fewer
    obtain ⟨⟨i, j⟩, member, unused⟩ := ArcCount.exists_unused name room
    have before : i < j := ArcCount.mem_ascending.mp member
    have same : edgeIndices true i j = ((i : ℤ), (j : ℤ)) := by
      simp only [edgeIndices, ↓reduceIte, Prod.mk.injEq]
      omega
    refine ⟨i, j, ?_, ?_⟩
    · rw [same]
      dsimp only
      omega
    · rw [same]
      exact unused
  | false =>
    have room : generated.card < (Finset.univ : Finset (Fin n)).offDiag.card := by
      rw [ArcCount.card_loopFree, Fintype.card_fin]
      exact fewer
    obtain ⟨⟨i, j⟩, member, unused⟩ := ArcCount.exists_unused name room
    have different : i ≠ j := (Finset.mem_offDiag.mp member).2.2
    refine ⟨i, j, ?_, unused⟩
    change (i : ℤ) ≠ j
    omega

/-- What an accepted call has passed. -/
theorem checks_of_accepted
    (accepted : ∀ what, generateGraph alloc heap draws n m shouldBeDag ≠ .error (.invalidArgument what)) :
    ¬ n < 2 ∧ ¬ m < 0 ∧ ¬ (shouldBeDag = true ∧ n / 2 * (n - 1) < m) ∧
      ¬ (¬ shouldBeDag = true ∧ n * (n - 1) < m) := by
  have checks := mt (Store.generateGraph_refused_iff draws shouldBeDag).mpr (not_exists.mpr accepted)
  rwa [not_or, not_or, not_or] at checks

/-- The argument check leaves room for the requested edges. -/
theorem room_of_accepted
    (accepted : ∀ what, generateGraph alloc heap draws n m shouldBeDag ≠ .error (.invalidArgument what)) :
    2 ≤ n ∧ 0 ≤ m ∧
      m.toNat ≤ if shouldBeDag then n.toNat * (n.toNat - 1) / 2 else n.toNat * (n.toNat - 1) := by
  have checks := checks_of_accepted accepted
  simp only [not_lt, not_and] at checks
  obtain ⟨enough, nonneg, dag, any⟩ := checks
  refine ⟨enough, nonneg, ?_⟩
  obtain ⟨k, rfl⟩ := Int.eq_ofNat_of_zero_le (by omega : 0 ≤ n)
  have less : (k : ℤ) - 1 = ((k - 1 : ℕ) : ℤ) := by omega
  rw [Int.toNat_natCast]
  cases shouldBeDag with
  | true =>
    have bound := dag rfl
    rw [less, show (k : ℤ) / 2 = ((k / 2 : ℕ) : ℤ) from rfl, ← Int.natCast_mul] at bound
    have := Store.truncated_le k
    simp only [↓reduceIte]
    omega
  | false =>
    have bound := any (by simp)
    rw [less, ← Int.natCast_mul] at bound
    simp only [Bool.false_eq_true, ↓reduceIte]
    omega

/-- The states reached are those of the call: on more draws it goes on from there. -/
theorem generateGraph_of_reaches
    (accepted : ∀ what, generateGraph alloc heap [] n m shouldBeDag ≠ .error (.invalidArgument what))
    (reached : GenerationReaches alloc heap n m shouldBeDag draws left t) (more : List ℤ) :
    generateGraph alloc heap (draws ++ more) n m shouldBeDag =
      (generateEdges shouldBeDag ((List.range n.toNat).map alloc) left t.1 t.2 more).map fun last =>
        (⟨last.1, ⟨(List.range n.toNat).map alloc, m⟩⟩, last.2) := by
  obtain ⟨few, negative, many⟩ := checks_of_accepted accepted
  rw [generateGraph, if_neg few, if_neg negative, if_neg (not_or.mpr many)]
  have start := generateEdges_eq_fill shouldBeDag ((List.range n.toNat).map alloc) m.toNat
    (∅, newNodes alloc heap n.toNat) (draws ++ more)
  rw [fill_of_reaches reached, ← generateEdges_eq_fill] at start
  simp only [start, bind, Except.bind]
  cases generateEdges shouldBeDag ((List.range n.toNat).map alloc) left t.1 t.2 more with
  | error e => rfl
  | ok last => rfl

/-- Two draws in range name two slots. -/
theorem recordEdge_exists (alloc : ℕ ↪ Ptr) (t : Finset (ℤ × ℤ) × Heap Ptr) {a b : ℤ}
    (left : 0 ≤ a ∧ a ≤ n - 1) (right : 0 ≤ b ∧ b ≤ n - 1) :
    ∃ u, recordEdge ((List.range n.toNat).map alloc) t (edgeIndices shouldBeDag a b) = .ok u := by
  let heap : Heap Ptr := fun _ => ⟨[], [], 0⟩
  have numbered := Store.allocated_numbered alloc heap n.toNat
  have length := Store.allocated_length alloc heap n.toNat
  obtain ⟨first, second⟩ := edgeIndices_draws shouldBeDag a b
  obtain ⟨v, _, readV, _⟩ := exists_read numbered (i := (edgeIndices shouldBeDag a b).1) (by omega)
  obtain ⟨w, _, readW, _⟩ := exists_read numbered (i := (edgeIndices shouldBeDag a b).2) (by omega)
  refine ⟨(insert (edgeIndices shouldBeDag a b) t.1, t.2.addEdge (v, w)), ?_⟩
  simp only [Store.allocated] at readV readW
  simp only [recordEdge, readV, readW, bind, Except.bind, pure, Except.pure]

/-- Inside the loop some pair of draws is accepted. -/
theorem generation_progress
    (accepted : ∀ what, generateGraph alloc heap [] n m shouldBeDag ≠ .error (.invalidArgument what))
    (inRange : ∀ d ∈ draws, 0 ≤ d ∧ d ≤ n - 1)
    (reached : GenerationReaches alloc heap n m shouldBeDag draws (left + 1) t) :
    ∃ a b, (0 ≤ a ∧ a ≤ n - 1) ∧ (0 ≤ b ∧ b ≤ n - 1) ∧
      edgeRejected t (edgeIndices shouldBeDag a b) = false := by
  obtain ⟨enough, nonneg, room⟩ := room_of_accepted accepted
  have count := generated_card inRange reached
  have fewer : t.1.card < m.toNat := by omega
  obtain ⟨i, j, different, unused⟩ := exists_unused_pair (fewer.trans_le room)
  refine ⟨i, j, by omega, by omega, ?_⟩
  simp only [edgeRejected, Bool.or_eq_false_iff, decide_eq_false_iff_not]
  exact ⟨different, unused⟩

end Generation

namespace Store

/-- A call that its argument checks accept never gets stuck: whenever it draws, some pair of draws in range
is accepted, and from every state some continuation of the draws lets it return all edges. -/
theorem generateGraph_never_stuck {alloc : ℕ ↪ Ptr} {heap : Heap Ptr} {n m : ℤ} {shouldBeDag : Bool}
    (accepted : ∀ what, generateGraph alloc heap [] n m shouldBeDag ≠ .error (.invalidArgument what))
    {draws : List ℤ} (inRange : ∀ d ∈ draws, 0 ≤ d ∧ d ≤ n - 1) {left : ℕ}
    {t : Finset (ℤ × ℤ) × Heap Ptr}
    (reached : GenerationReaches alloc heap n m shouldBeDag draws (left + 1) t) :
    (∃ a b, (0 ≤ a ∧ a ≤ n - 1) ∧ (0 ≤ b ∧ b ≤ n - 1) ∧
      edgeRejected t (edgeIndices shouldBeDag a b) = false) ∧
    ∃ more, (∀ d ∈ more, 0 ≤ d ∧ d ≤ n - 1) ∧ ∃ s,
      generateGraph alloc heap (draws ++ more) n m shouldBeDag = .ok (s, []) ∧
      s.dag.numberOfEdges = m ∧ s.Counted := by
  refine ⟨generation_progress accepted inRange reached, ?_⟩
  have progress : ∀ draws left t, (∀ d ∈ draws, 0 ≤ d ∧ d ≤ n - 1) →
      GenerationReaches alloc heap n m shouldBeDag draws (left + 1) t →
      ∃ a b c u, (0 ≤ a ∧ a ≤ n - 1) ∧ (0 ≤ b ∧ b ≤ n - 1) ∧
        (.ok (edgeIndices shouldBeDag a b) : Except Fault (ℤ × ℤ)) = .ok c ∧ edgeRejected t c = false ∧
        recordEdge ((List.range n.toNat).map alloc) t c = .ok u := by
    intro draws left t inRange reached
    obtain ⟨a, b, left, right, free⟩ := generation_progress accepted inRange reached
    obtain ⟨u, recorded⟩ := recordEdge_exists alloc t left right
    exact ⟨a, b, _, u, left, right, rfl, free, recorded⟩
  obtain ⟨more, moreRange, u, finished⟩ := exists_finish progress inRange reached
  have returned := generateGraph_of_reaches accepted finished []
  rw [List.append_nil] at returned
  obtain ⟨edges, same, _, length, new, _⟩ :=
    generateGraph_ok (List.forall_mem_append.mpr ⟨inRange, moreRange⟩) returned
  refine ⟨more, moreRange, _, returned, rfl, ?_⟩
  rw [same]
  exact generated_counted new

/-- A loop was drawn for the only edge of a dag on three nodes. -/
theorem generateGraph_never_stuck_three : ∃ more s,
    generateGraph (.refl ℕ) (fun _ => ⟨[], [], 0⟩) ([1, 1] ++ more) 3 1 true = .ok (s, []) ∧
      s.dag.numberOfEdges = 1 := by
  have accepted (what : String) : generateGraph (.refl ℕ) (fun _ => ⟨[], [], 0⟩) [] 3 1 true ≠
      .error (.invalidArgument what) := by
    intro refused
    rw [show generateGraph (.refl ℕ) (fun _ => ⟨[], [], 0⟩) [] 3 1 true = .error .outOfDraws from rfl] at refused
    simp at refused
  have reached : GenerationReaches (.refl ℕ) (fun _ => ⟨[], [], 0⟩) 3 1 true [1, 1] 1
      (∅, newNodes (.refl ℕ) (fun _ => ⟨[], [], 0⟩) 3) := Reaches.start.again rfl rfl
  obtain ⟨_, more, _, s, returned, count, _⟩ := generateGraph_never_stuck accepted (by decide) reached
  exact ⟨more, s, returned, count⟩

end Store

section Extra

variable {s : Store Ptr} {k : ℤ} {draws : List ℤ} {left : ℕ} {t : Finset (ℤ × ℤ) × List (Edge Ptr)}

/-- The indices of an edge. -/
def indexPair (heap : Heap Ptr) (e : Edge Ptr) : ℤ × ℤ := ((heap e.1).index, (heap e.2).index)

/-- A node pair that `generate_extra_edges` draws again. -/
def extraRejected (s : Store Ptr) (t : Finset (ℤ × ℤ) × List (Edge Ptr)) (e : Edge Ptr) : Bool :=
  decide (e.1 = e.2) || decide (indexPair s.heap e ∈ t.1)

/-- The edge and its indices are recorded. -/
def recordExtra (s : Store Ptr) (t : Finset (ℤ × ℤ) × List (Edge Ptr)) (e : Edge Ptr) :
    Except Fault (Finset (ℤ × ℤ) × List (Edge Ptr)) :=
  .ok (insert (indexPair s.heap e) t.1, t.2 ++ [e])

/-- The generation loop of `generate_extra_edges` is a run that records edges. -/
theorem generateExtra_eq_fill (s : Store Ptr) (rounds : ℕ) (t : Finset (ℤ × ℤ) × List (Edge Ptr))
    (draws : List ℤ) : generateExtra s rounds t.1 t.2 draws =
      (fill .outOfDraws (extraEdge s.dag) (extraRejected s) (recordExtra s) rounds t draws).map
        fun last => (last.1.2, last.2) := by
  induction rounds generalizing t draws with
  | zero => rfl
  | succ rounds ih =>
    simp only [generateExtra, fill, bind, Except.bind]
    rw [show (fun e : Edge Ptr => decide (e.1 = e.2) ||
      decide (((s.heap e.1).index, (s.heap e.2).index) ∈ t.1)) = extraRejected s t from rfl]
    cases draw Fault.outOfDraws (extraEdge s.dag) (extraRejected s t) draws with
    | error e => rfl
    | ok drawn => exact ih (insert (indexPair s.heap drawn.1) t.1, t.2 ++ [drawn.1]) drawn.2

/-- After these draws a call of `generate_extra_edges` has `left` edges to generate, with the taken index
pairs and the generated edges in `t`. -/
def ExtraReaches (s : Store Ptr) (k : ℤ) : List ℤ → ℕ → Finset (ℤ × ℤ) × List (Edge Ptr) → Prop :=
  Reaches (extraEdge s.dag) (extraRejected s) (recordExtra s) k.toNat (existingEdges s, [])

/-- The states reached are those of the call: on more draws it goes on from there. -/
theorem generateExtraEdges_of_reaches (reached : ExtraReaches s k draws left t) (more : List ℤ) :
    generateExtraEdges s (draws ++ more) k = generateExtra s left t.1 t.2 more := by
  rw [generateExtraEdges, generateExtra_eq_fill s k.toNat (existingEdges s, []), fill_of_reaches reached,
    ← generateExtra_eq_fill]

namespace Store

/-- The ascending edges that the graph lacks. -/
def freeEdges (s : Store Ptr) : Finset (Edge Ptr) :=
  {e ∈ s.dag.nodes.toFinset ×ˢ s.dag.nodes.toFinset |
    s.heap.index e.1 < s.heap.index e.2 ∧ e.2 ∉ (s.heap e.1).outgoingEdges}

/-- Whenever the call draws, some pair of draws in range is accepted. -/
def AlwaysAccepts (s : Store Ptr) (k : ℤ) : Prop :=
  ∀ (draws : List ℤ) left t, (∀ d ∈ draws, 0 ≤ d ∧ d < s.dag.nodes.length) →
    ExtraReaches s k draws (left + 1) t →
    ∃ a b : ℤ, (0 ≤ a ∧ a < s.dag.nodes.length) ∧ (0 ≤ b ∧ b < s.dag.nodes.length) ∧
      ∃ e, extraEdge s.dag a b = .ok e ∧ extraRejected s t e = false

/-- From every state of the call some continuation of the draws lets it return. -/
def AlwaysFinishes (s : Store Ptr) (k : ℤ) : Prop :=
  ∀ (draws : List ℤ) left t, (∀ d ∈ draws, 0 ≤ d ∧ d < s.dag.nodes.length) →
    ExtraReaches s k draws left t →
    ∃ more : List ℤ, (∀ d ∈ more, 0 ≤ d ∧ d < s.dag.nodes.length) ∧
      ∃ edges, generateExtraEdges s (draws ++ more) k = .ok (edges, [])

theorem AlwaysAccepts.finishes (accepts : s.AlwaysAccepts k) : s.AlwaysFinishes k := by
  have progress : ∀ draws left t, (∀ d ∈ draws, 0 ≤ d ∧ d < (s.dag.nodes.length : ℤ)) →
      ExtraReaches s k draws (left + 1) t →
      ∃ a b e u, (0 ≤ a ∧ a < (s.dag.nodes.length : ℤ)) ∧ (0 ≤ b ∧ b < (s.dag.nodes.length : ℤ)) ∧
        extraEdge s.dag a b = .ok e ∧ extraRejected s t e = false ∧ recordExtra s t e = .ok u := by
    intro draws left t inRange reached
    obtain ⟨a, b, leftRange, rightRange, e, made, accepted⟩ := accepts draws left t inRange reached
    exact ⟨a, b, e, _, leftRange, rightRange, made, accepted, rfl⟩
  intro draws left t inRange reached
  obtain ⟨more, moreRange, u, finished⟩ := exists_finish progress inRange reached
  have returned := generateExtraEdges_of_reaches finished []
  rw [List.append_nil] at returned
  exact ⟨more, moreRange, u.2, returned⟩

/-- What the loop has recorded. -/
structure ExtraState (s : Store Ptr) (k : ℤ) (left : ℕ) (t : Finset (ℤ × ℤ) × List (Edge Ptr)) : Prop where
  taken : ∀ p ∈ t.1, p ∈ existingEdges s ∨ ∃ e ∈ t.2, indexPair s.heap e = p
  members : ∀ e ∈ t.2, e.1 ∈ s.dag.nodes ∧ e.2 ∈ s.dag.nodes
  count : t.2.length + left = k.toNat

theorem extraState (numbered : Numbered s.heap.index s.dag.nodes)
    (inRange : ∀ d ∈ draws, 0 ≤ d ∧ d < s.dag.nodes.length) (reached : ExtraReaches s k draws left t) :
    ExtraState s k left t := by
  refine Reaches.invariant (ExtraState s k) ?_ ⟨by simp, by simp, by simp⟩ inRange reached
  intro left t a b e u before leftRange rightRange made _ recorded
  obtain ⟨f, same, tail, head, _⟩ := extraEdge_ok numbered leftRange rightRange
  obtain rfl : f = e := Except.ok.inj (same.symm.trans made)
  obtain rfl := Except.ok.inj recorded
  constructor
  case taken =>
    intro p member
    rcases Finset.mem_insert.mp member with rfl | old
    · exact .inr ⟨f, by simp, rfl⟩
    · obtain existing | ⟨g, inAcc, pair⟩ := before.taken p old
      · exact .inl existing
      · exact .inr ⟨g, List.mem_append_left _ inAcc, pair⟩
  case members => exact List.forall_mem_append.mpr ⟨before.members, by simp [tail, head]⟩
  case count =>
    have := before.count
    rw [List.length_append, List.length_singleton]
    omega

omit [DecidableEq Ptr] in
theorem indexPair_inj (numbered : Numbered s.heap.index s.dag.nodes) {e f : Edge Ptr}
    (left : e.1 ∈ s.dag.nodes ∧ e.2 ∈ s.dag.nodes) (right : f.1 ∈ s.dag.nodes ∧ f.2 ∈ s.dag.nodes)
    (same : indexPair s.heap e = indexPair s.heap f) : e = f := by
  obtain ⟨tails, heads⟩ := Prod.mk.inj same
  exact Prod.ext (numbered.injOn left.1 right.1 tails) (numbered.injOn left.2 right.2 heads)

theorem mem_freeEdges {e : Edge Ptr} : e ∈ s.freeEdges ↔ (e.1 ∈ s.dag.nodes ∧ e.2 ∈ s.dag.nodes) ∧
    s.heap.index e.1 < s.heap.index e.2 ∧ e.2 ∉ (s.heap e.1).outgoingEdges := by
  simp only [freeEdges, Finset.mem_filter, Finset.mem_product, List.mem_toFinset]

/-- A free edge that has not been generated is accepted. -/
theorem accepts_free (numbered : Numbered s.heap.index s.dag.nodes)
    (closed : ∀ v ∈ s.dag.nodes, ∀ w ∈ s.heap.succ v, w ∈ s.dag.nodes) (state : ExtraState s k left t)
    {e : Edge Ptr} (free : e ∈ s.freeEdges) (fresh : e ∉ t.2) :
    extraEdge s.dag (s.heap.index e.1) (s.heap.index e.2) = .ok e ∧ extraRejected s t e = false := by
  obtain ⟨inside, ascends, absent⟩ := mem_freeEdges.mp free
  constructor
  · simp only [extraEdge, min_eq_left ascends.le, max_eq_right ascends.le, bind, Except.bind]
    rw [show read s.dag.nodes (s.heap.index e.1) = .ok e.1 from numbered.read inside.1,
      show read s.dag.nodes (s.heap.index e.2) = .ok e.2 from numbered.read inside.2]
    rfl
  · simp only [extraRejected, Bool.or_eq_false_iff, decide_eq_false_iff_not]
    refine ⟨fun same => lt_irrefl _ (same ▸ ascends), fun taken => ?_⟩
    obtain existing | ⟨f, generated, same⟩ := state.taken _ taken
    · obtain ⟨u, member, listed⟩ := List.mem_flatMap.mp (List.mem_toFinset.mp existing)
      obtain ⟨v, edge, same⟩ := List.mem_map.mp listed
      obtain rfl := indexPair_inj (e := (u, v)) numbered ⟨member, closed u member v edge⟩ inside same
      exact absent edge
    · exact fresh (indexPair_inj numbered (state.members f generated) inside same ▸ generated)

/-- As long as fewer edges were generated than are free, one is left. -/
theorem alwaysAccepts_of_room (numbered : Numbered s.heap.index s.dag.nodes)
    (closed : ∀ v ∈ s.dag.nodes, ∀ w ∈ s.heap.succ v, w ∈ s.dag.nodes) (room : k ≤ s.freeEdges.card) :
    s.AlwaysAccepts k := by
  intro draws left t inRange reached
  have state := extraState numbered inRange reached
  have fewer : t.2.toFinset.card < s.freeEdges.card := by
    have := state.count
    have := List.toFinset_card_le t.2
    omega
  obtain ⟨e, free, fresh⟩ := Finset.exists_mem_notMem_of_card_lt_card fewer
  obtain ⟨inside, _⟩ := mem_freeEdges.mp free
  refine ⟨_, _, numbered.bounds inside.1, numbered.bounds inside.2, e, ?_⟩
  exact accepts_free numbered closed state free fun generated => fresh (List.mem_toFinset.mpr generated)

/-- A returned list of additional edges consists of distinct free edges. -/
theorem returned_le_free (numbered : Numbered s.heap.index s.dag.nodes)
    (inRange : ∀ d ∈ draws, 0 ≤ d ∧ d < s.dag.nodes.length) {edges : List (Edge Ptr)} {rest : List ℤ}
    (returned : generateExtraEdges s draws k = .ok (edges, rest)) : k ≤ s.freeEdges.card := by
  obtain ⟨added, whole, length, new, _⟩ := generateExtra_ok numbered inRange returned
  have inside : added.toFinset ⊆ s.freeEdges := by
    intro e member
    have listed := List.mem_toFinset.mp member
    exact mem_freeEdges.mpr ⟨new.members e listed, new.ascends rfl e listed, new.notMem listed⟩
  have fits := Finset.card_le_card inside
  rw [List.toFinset_card_of_nodup new.nodup] at fits
  omega

theorem room_of_alwaysFinishes (numbered : Numbered s.heap.index s.dag.nodes)
    (finishes : s.AlwaysFinishes k) : k ≤ s.freeEdges.card := by
  obtain ⟨more, moreRange, edges, returned⟩ := finishes [] _ _ (by simp) .start
  exact returned_le_free numbered (by simpa using moreRange) returned

/-- The generator of additional edges can always go on, and always return, exactly if the graph lacks at
least as many ascending edges as are requested. -/
theorem generateExtraEdges_never_stuck_iff (inOrder : graphIsInTopologicalOrder s.heap s.dag = true)
    (closed : ∀ v ∈ s.dag.nodes, ∀ w ∈ (s.heap v).outgoingEdges, w ∈ s.dag.nodes) (k : ℤ) :
    (s.AlwaysAccepts k ↔ k ≤ s.freeEdges.card) ∧ (s.AlwaysFinishes k ↔ k ≤ s.freeEdges.card) := by
  have numbered := ((graphIsInTopologicalOrder_iff _ _).mp inOrder).1
  have accepts : k ≤ s.freeEdges.card → s.AlwaysAccepts k := alwaysAccepts_of_room numbered closed
  have room : s.AlwaysFinishes k → k ≤ s.freeEdges.card := room_of_alwaysFinishes numbered
  exact ⟨⟨fun accepted => room accepted.finishes, accepts⟩, ⟨room, fun fits => (accepts fits).finishes⟩⟩

/-- A path of three nodes lacks one edge. -/
theorem generateExtraEdges_never_stuck_iff_path :
    (appendAll [(0, 1), (1, 2)] (edgeless 3)).AlwaysAccepts 1 :=
  (generateExtraEdges_never_stuck_iff (by decide) (by decide) 1).1.mpr (by decide)

/-- Two nodes joined by an edge lack none. A request for one more draws forever: no pair of draws is ever
accepted, and no draws let the call return. -/
theorem generateExtraEdges_stuck_two :
    let full := appendAll [(0, 1)] (edgeless 2)
    graphIsInTopologicalOrder full.heap full.dag = true ∧ full.Wired ∧ full.dag.nodes.length = 2 ∧
      ¬ full.AlwaysAccepts 1 ∧
      (∀ a b : ℤ, 0 ≤ a ∧ a < 2 → 0 ≤ b ∧ b < 2 →
        (extraEdge full.dag a b).map (extraRejected full (existingEdges full, [])) = .ok true) ∧
      ∀ draws : List ℤ, (∀ d ∈ draws, 0 ≤ d ∧ d < 2) →
        generateExtraEdges full draws 1 = .error .outOfDraws := by
  intro full
  have inOrder : graphIsInTopologicalOrder full.heap full.dag = true := by decide
  have numbered := ((graphIsInTopologicalOrder_iff _ _).mp inOrder).1
  have none : ¬ (1 : ℤ) ≤ full.freeEdges.card := by decide
  refine ⟨inOrder, (edgeless_wired 2).appendAll (by decide), rfl,
    fun accepts => none (room_of_alwaysFinishes numbered accepts.finishes), fun a b left right => ?_,
    fun draws inRange => ?_⟩
  · obtain rfl | rfl : a = 0 ∨ a = 1 := by omega
    · obtain rfl | rfl : b = 0 ∨ b = 1 := by omega
      · decide
      · decide
    · obtain rfl | rfl : b = 0 ∨ b = 1 := by omega
      · decide
      · decide
  · cases returned : generateExtraEdges full draws 1 with
    | error e => rw [generateExtra_error numbered inRange returned]
    | ok result => exact absurd (returned_le_free numbered inRange returned) none

end Store

end Extra

end DynamicDag
