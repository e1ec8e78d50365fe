import DynamicDag.General.AcyclicArcs
import DynamicDag.Proofs.Uniform

/-! # Graphs that are generated to have a cycle

Without `should_be_dag` the generated graph "will most likely not be a dag, but it is not guaranteed". Up to
one edge it always is a dag, and beyond half of the possible edges it never is. In between both outcomes
happen, and every further edge at least halves the bound on the probability of a dag.
-/

namespace DynamicDag

open ArcCount Filter Numbering Topology RejectionSampling Store UniformSampling

variable {Ptr : Type} [DecidableEq Ptr] {alloc : ℕ ↪ Ptr} {heap : Heap Ptr} {n m : ℕ} {shouldBeDag : Bool}
  {throws : List (Fin n × Fin n)} {s : Store Ptr} {rest : List ℤ}

theorem nodeDraws_inRange {d : ℤ} (drawn : d ∈ nodeDraws throws) : 0 ≤ d ∧ d ≤ (n : ℤ) - 1 := by
  obtain ⟨p, _, here⟩ := List.mem_flatMap.mp drawn
  simp only [List.mem_cons, List.not_mem_nil, or_false] at here
  omega

section Returned

variable (returned : generateGraph alloc heap (nodeDraws throws) n m shouldBeDag = .ok (s, rest))

include returned

/-- A generated graph has its new nodes in the order of their indices, and mirrored lists. -/
theorem generated_shape : s.dag.nodes = (List.range n).map alloc ∧ Numbered s.heap.index s.dag.nodes ∧
    s.Wired ∧ s.Counted := by
  obtain ⟨edges, rfl, _, _, new, _⟩ := generateGraph_ok (fun d => nodeDraws_inRange) returned
  rw [Int.toNat_natCast] at new ⊢
  exact ⟨appendAll_nodes, generated_numbered edges, generated_wired new, generated_counted new⟩

theorem generated_index (i : Fin n) : s.heap.index (alloc i) = i := by
  obtain ⟨nodes, numbered, _⟩ := generated_shape returned
  rw [nodes] at numbered
  have own := numbered i (by simp)
  rwa [List.getElem_map, List.getElem_range] at own

variable {arcs : Finset (Fin n × Fin n)} (same : ∀ i j : Fin n, s.Adj (alloc i) (alloc j) ↔ (i, j) ∈ arcs)

include same

theorem generated_acyclic_iff : Acyclic s.Adj ↔ Acyclic fun i j => (i, j) ∈ arcs := by
  obtain ⟨nodes, _, wired, _⟩ := generated_shape returned
  have slot : ∀ v ∈ s.dag.nodes, v ∈ Set.range fun i : Fin n => alloc i := by
    intro v member
    rw [nodes] at member
    obtain ⟨i, early, rfl⟩ := List.mem_map.mp member
    exact ⟨⟨i, List.mem_range.mp early⟩, rfl⟩
  rw [← Acyclic.comap_iff (alloc.injective.comp Fin.val_injective) fun u v edge =>
    ⟨slot u edge.1, slot v (wired.outgoing u edge.1 v edge.2)⟩]
  simp only [Function.comp, same]

theorem generated_inOrder_iff : graphIsInTopologicalOrder s.heap s.dag = true ↔ arcs ⊆ ascending (Fin n) := by
  obtain ⟨nodes, numbered, wired, _⟩ := generated_shape returned
  have index := generated_index returned
  constructor
  · intro inOrder e member
    have edge := (same e.1 e.2).mpr member
    have up := Sorted.ascends ⟨inOrder, wired⟩ edge.1 edge.2
    rw [index, index] at up
    exact mem_ascending.mpr (by omega)
  · intro ascends
    refine wired.inOrder numbered fun u member v edge => ?_
    have inside := wired.outgoing u member v edge
    rw [nodes] at inside
    have edge : s.Adj u v := ⟨member, edge⟩
    rw [nodes] at member
    obtain ⟨i, early, rfl⟩ := List.mem_map.mp member
    obtain ⟨j, late, rfl⟩ := List.mem_map.mp inside
    have up := mem_ascending.mp
      (ascends ((same ⟨i, List.mem_range.mp early⟩ ⟨j, List.mem_range.mp late⟩).mp edge))
    rw [index ⟨i, List.mem_range.mp early⟩, index ⟨j, List.mem_range.mp late⟩]
    exact_mod_cast up

/-- The sort tells whether the edges are acyclic. -/
theorem generated_sort {fuel : ℕ} (enough : n < fuel) :
    ((Acyclic fun i j => (i, j) ∈ arcs) ∧ ∃ t, setToTopologicalOrder fuel s = .ok () t) ∨
      ¬ (Acyclic fun i j => (i, j) ∈ arcs) ∧ ∃ t, setToTopologicalOrder fuel s = .error notADag t := by
  obtain ⟨nodes, _, wired, counted⟩ := generated_shape returned
  have length : s.dag.nodes.length < fuel := by rwa [nodes, List.length_map, List.length_range]
  rw [← generated_acyclic_iff returned same]
  obtain ⟨acyclic, t, outcome, _⟩ | refused := setToTopologicalOrder_cases wired counted length
  · exact .inl ⟨acyclic, t, outcome⟩
  · exact .inr refused

theorem generated_sorts_iff {fuel : ℕ} (enough : n < fuel) :
    (∃ t, setToTopologicalOrder fuel s = .ok () t) ↔ Acyclic fun i j => (i, j) ∈ arcs := by
  obtain ⟨acyclic, t, outcome⟩ | ⟨cyclic, t, outcome⟩ := generated_sort returned same enough
  · exact iff_of_true ⟨t, outcome⟩ acyclic
  · refine iff_of_false ?_ cyclic
    rintro ⟨_, sorted⟩
    rw [outcome] at sorted
    cases sorted

end Returned

section Accepted

variable (accepted : ∀ what, generateGraph alloc heap [] n m shouldBeDag ≠ .error (.invalidArgument what))

include accepted

/-- A generated graph has as many admissible edges as requested. -/
theorem exists_arcs (returned : generateGraph alloc heap (nodeDraws throws) n m shouldBeDag = .ok (s, rest)) :
    ∃ arcs : Finset (Fin n × Fin n), arcs.card = m ∧ arcs ⊆ admissible n shouldBeDag ∧
      ∀ i j : Fin n, s.Adj (alloc i) (alloc j) ↔ (i, j) ∈ arcs := by
  rw [generateGraph_eq_sample accepted] at returned
  cases outcome : sample (throwSlots shouldBeDag) (admissible n shouldBeDag) m [] throws with
  | none => simp [outcome] at returned
  | some last =>
    rw [outcome] at returned
    obtain rfl := congrArg Prod.fst (Except.ok.inj returned)
    have chosen := sample_chosen outcome ⟨.nil, by simp⟩
    refine ⟨last.1.toFinset, ?_, fun e member => chosen.inside e (List.mem_toFinset.mp member), fun i j => ?_⟩
    · rw [List.toFinset_card_of_nodup chosen.unique, sample_length outcome, List.length_nil, zero_add]
    · rw [afterEdges_adj, List.mem_toFinset]

/-- What the edges of the generated graph decide is as likely as there are sets of edges for it. -/
theorem tendsto_share_decided (family : Finset (Finset (Fin n × Fin n))) (event : Store Ptr → Prop)
    (inside : ∀ arcs ∈ family, arcs.card = m ∧ arcs ⊆ admissible n shouldBeDag)
    (decides : ∀ throws : List (Fin n × Fin n), ∀ s rest,
      generateGraph alloc heap (nodeDraws throws) n m shouldBeDag = .ok (s, rest) →
        ∀ arcs : Finset (Fin n × Fin n), arcs.card = m → arcs ⊆ admissible n shouldBeDag →
          (∀ i j : Fin n, s.Adj (alloc i) (alloc j) ↔ (i, j) ∈ arcs) → (event s ↔ arcs ∈ family)) :
    Tendsto (share fun throws : List (Fin n × Fin n) =>
      ∃ s rest, generateGraph alloc heap (nodeDraws throws) n m shouldBeDag = .ok (s, rest) ∧ event s) atTop
      (𝓝 (family.card / (admissible n shouldBeDag).card.choose m)) := by
  have split : ∀ throws : List (Fin n × Fin n),
      (∃ s rest, generateGraph alloc heap (nodeDraws throws) n m shouldBeDag = .ok (s, rest) ∧ event s) ↔
        ∃ arcs ∈ family, ∃ s rest, generateGraph alloc heap (nodeDraws throws) n m shouldBeDag = .ok (s, rest) ∧
          ∀ i j : Fin n, s.Adj (alloc i) (alloc j) ↔ (i, j) ∈ arcs := by
    intro throws
    constructor
    · rintro ⟨s, rest, returned, happens⟩
      obtain ⟨arcs, size, admitted, same⟩ := exists_arcs accepted returned
      exact ⟨arcs, (decides throws s rest returned arcs size admitted same).mp happens, s, rest, returned, same⟩
    · rintro ⟨arcs, member, s, rest, returned, same⟩
      obtain ⟨size, admitted⟩ := inside arcs member
      exact ⟨s, rest, returned, (decides throws s rest returned arcs size admitted same).mpr member⟩
  rw [share_congr split, funext (share_exists family _ ?_), div_eq_mul_one_div, ← nsmul_eq_mul, ← Finset.sum_const]
  · exact tendsto_finsetSum _ fun arcs member =>
      tendsto_share_arcs accepted (inside arcs member).1 (inside arcs member).2
  · -- the graph shows which edges were found
    rintro first _ second _ throws ⟨s, rest, returned, same⟩ ⟨t, left, returnedToo, sameToo⟩
    obtain ⟨rfl, -⟩ := Prod.mk.inj (Except.ok.inj (returned.symm.trans returnedToo))
    ext ⟨i, j⟩
    rw [← same, sameToo]

end Accepted

section NonDag

variable {fuel : ℕ} (enough : n < fuel)
  (accepted : ∀ what, generateGraph alloc heap [] n m false ≠ .error (.invalidArgument what))

include accepted

theorem tendsto_share_inOrder : Tendsto (share fun throws : List (Fin n × Fin n) => ∃ s rest,
    generateGraph alloc heap (nodeDraws throws) n m false = .ok (s, rest) ∧
      graphIsInTopologicalOrder s.heap s.dag = true) atTop
    (𝓝 ((n * (n - 1) / 2).choose m / (n * (n - 1)).choose m)) := by
  have law := tendsto_share_decided accepted ((ascending (Fin n)).powersetCard m)
    (fun s => graphIsInTopologicalOrder s.heap s.dag = true) (fun arcs member => ?_)
    fun throws s rest returned arcs size inside same => ?_
  · rwa [Finset.card_powersetCard, card_ascending, Fintype.card_fin, card_admissible,
      if_neg Bool.false_ne_true] at law
  · obtain ⟨inside, size⟩ := Finset.mem_powersetCard.mp member
    exact ⟨size, fun e ascends => mem_admissible.mpr (mem_ascending.mp (inside ascends)).ne⟩
  · rw [generated_inOrder_iff returned same, Finset.mem_powersetCard, and_iff_left size]

include enough

theorem tendsto_share_sorts : Tendsto (share fun throws : List (Fin n × Fin n) => ∃ s rest,
    generateGraph alloc heap (nodeDraws throws) n m false = .ok (s, rest) ∧
      ∃ t, setToTopologicalOrder fuel s = .ok () t) atTop (𝓝 (acyclicShare (Fin n) m)) := by
  have law := tendsto_share_decided accepted (acyclicArcs (Fin n) m)
    (fun s => ∃ t, setToTopologicalOrder fuel s = .ok () t) (fun arcs member => ?_)
    fun throws s rest returned arcs size inside same => ?_
  · rwa [card_admissible, if_neg Bool.false_ne_true, ← acyclicShare_fin] at law
  · obtain ⟨size, acyclic⟩ := mem_acyclicArcs.mp member
    exact ⟨size, fun e inArcs => mem_admissible.mpr (ne_of_acyclic acyclic inArcs)⟩
  · rw [generated_sorts_iff returned same enough, mem_acyclicArcs, and_iff_right size]

end NonDag

namespace Store

/-- Whether a graph that is generated without `should_be_dag` can be sorted: always up to one edge, never beyond
half of all edges, and else with a probability other than zero and one, at most `n! / 2 ^ m`. That it
already is in topological order has at most the probability `1 / 2 ^ m`. -/
theorem generateGraph_nonDag {fuel : ℕ} (enough : n < fuel)
    (accepted : ∀ what, generateGraph alloc heap [] n m false ≠ .error (.invalidArgument what)) :
    (∀ throws : List (Fin n × Fin n), ∀ s rest,
      generateGraph alloc heap (nodeDraws throws) n m false = .ok (s, rest) →
        (m ≤ 1 → ∃ t, setToTopologicalOrder fuel s = .ok () t) ∧
        (n * (n - 1) / 2 < m → ∃ t, setToTopologicalOrder fuel s = .error notADag t)) ∧
      Tendsto (share fun throws : List (Fin n × Fin n) => ∃ s rest,
        generateGraph alloc heap (nodeDraws throws) n m false = .ok (s, rest) ∧
          ∃ t, setToTopologicalOrder fuel s = .ok () t) atTop (𝓝 (acyclicShare (Fin n) m)) ∧
      (acyclicShare (Fin n) m = 1 ↔ m ≤ 1) ∧ (acyclicShare (Fin n) m = 0 ↔ n * (n - 1) / 2 < m) ∧
      acyclicShare (Fin n) m ≤ n.factorial / 2 ^ m ∧
      Tendsto (share fun throws : List (Fin n × Fin n) => ∃ s rest,
        generateGraph alloc heap (nodeDraws throws) n m false = .ok (s, rest) ∧
          graphIsInTopologicalOrder s.heap s.dag = true) atTop
        (𝓝 ((n * (n - 1) / 2).choose m / (n * (n - 1)).choose m)) ∧
      ((n * (n - 1) / 2).choose m : ℝ) / (n * (n - 1)).choose m ≤ 1 / 2 ^ m := by
  obtain ⟨two, _, fits⟩ := room_of_accepted accepted
  rw [Int.toNat_natCast, Int.toNat_natCast, if_neg Bool.false_ne_true] at fits
  replace two : 2 ≤ n := by omega
  rw [← Fintype.card_fin n] at two fits
  have half := choose_half_div_le (n * (n - 1) / 2) m
  have double := two_mul_half (α := Fin n)
  rw [Fintype.card_fin] at double
  rw [double] at half
  refine ⟨fun throws s rest returned => ?_, tendsto_share_sorts enough accepted,
    acyclicShare_eq_one_iff two fits, ?_,
    ?_, tendsto_share_inOrder accepted, half⟩
  · obtain ⟨arcs, size, inside, same⟩ := exists_arcs accepted returned
    obtain ⟨acyclic, sorts⟩ | ⟨cyclic, refused⟩ := generated_sort returned same enough
    · refine ⟨fun _ => sorts, fun many => absurd (card_le_ascending acyclic) (not_le.mpr ?_)⟩
      rwa [card_ascending, Fintype.card_fin, size]
    · refine ⟨fun few => absurd ?_ cyclic, fun _ => refused⟩
      have member := Finset.mem_powersetCard.mpr ⟨inside, size⟩
      exact (mem_acyclicArcs.mp ((acyclicArcs_eq_iff two fits).mpr few ▸ member)).2
  · rw [acyclicShare_eq_zero_iff fits, Fintype.card_fin]
  · have bound := acyclicShare_le (α := Fin n) m
    rwa [Fintype.card_fin] at bound

/-- Two edges between three nodes both ascend in one of five graphs, and more of these graphs are dags. -/
theorem generateGraph_nonDag_fifth :
    Tendsto (share fun throws : List (Fin 3 × Fin 3) => ∃ s rest,
        generateGraph (.refl ℕ) (fun _ => ⟨[], [], 0⟩) (nodeDraws throws) (3 : ℕ) (2 : ℕ) false =
            .ok (s, rest) ∧
          graphIsInTopologicalOrder s.heap s.dag = true) atTop (𝓝 (1 / 5)) ∧
      acyclicShare (Fin 3) 2 ≠ 0 ∧ acyclicShare (Fin 3) 2 ≠ 1 := by
  have accepted : ∀ what, generateGraph (.refl ℕ) (fun _ => ⟨[], [], 0⟩) [] (3 : ℕ) (2 : ℕ) false ≠
      .error (.invalidArgument what) := by
    intro what refused
    rw [show generateGraph (.refl ℕ) (fun _ => ⟨[], [], 0⟩) [] (3 : ℕ) (2 : ℕ) false = .error .outOfDraws from
      rfl] at refused
    simp at refused
  obtain ⟨_, _, one, zero, _, law, _⟩ := generateGraph_nonDag (by decide : 3 < 4) accepted
  refine ⟨?_, mt zero.mp (by decide), mt one.mp (by decide)⟩
  have share : (((3 * (3 - 1) / 2).choose 2 : ℕ) : ℝ) / ((3 * (3 - 1)).choose 2 : ℕ) = 1 / 5 := by
    rw [show (3 * (3 - 1) / 2 : ℕ).choose 2 = 3 from rfl, show (3 * (3 - 1) : ℕ).choose 2 = 15 from rfl]
    norm_num
  rwa [share] at law

end Store

end DynamicDag
