import DynamicDag.Abstract.Frontier

/-! # Carrying out the moves of a frontier

The frontier of all edges that do not ascend repairs the order: once its moves are carried out, no
edge of an acyclic graph goes backward. Nodes outside the intervals of the edges stay where they are,
so that edges with disjoint intervals can be treated one group after the other; `collect_local` is the
corresponding fact about the searches.
-/

namespace DynamicDag

open Relation Numbering Reinsertion

variable {α ε : Type*}

/-- Some edge with tail `x` asks that `v` be moved. -/
def Displaces (succ : α → List α) (index : α → ℤ) (edges : List (α × α)) (x v : α) : Prop :=
  ∃ y, (x, y) ∈ edges ∧ ReachBelow succ index x y v

/-- No edge leads from `bound` or above to below `bound`. -/
def Floor (succ : α → List α) (index : α → ℤ) (nodes : List α) (bound : ℤ) : Prop :=
  ∀ v ∈ nodes, ∀ w ∈ succ v, bound ≤ index v → bound ≤ index w

variable {succ : α → List α} {index : α → ℤ} {nodes : List α} {edges found : List (α × α)}

theorem ReachBelow.floor {bound : ℤ} (floor : Floor succ index nodes bound)
    (closed : ∀ v ∈ nodes, ∀ w ∈ succ v, w ∈ nodes) {x y v : α} (member : y ∈ nodes)
    (above : bound ≤ index y) (reach : ReachBelow succ index x y v) : bound ≤ index v := by
  have both : v ∈ nodes ∧ bound ≤ index v := by
    induction reach with
    | refl => exact ⟨member, above⟩
    | tail _ last ih => exact ⟨closed _ ih.1 _ last.1, floor _ ih.1 _ last.1 ih.2⟩
  exact both.2

/-- A search that starts above a slot outside all intervals stays above it. -/
theorem ReachBelow.stays_above {slot : ℤ} (closed : ∀ v ∈ nodes, ∀ w ∈ succ v, w ∈ nodes)
    (ascends : ∀ v ∈ nodes, ∀ w ∈ succ v, index v < index w ∨ (v, w) ∈ edges)
    (outside : ∀ e ∈ edges, ¬ (index e.2 ≤ slot ∧ slot ≤ index e.1)) {x y v : α}
    (member : y ∈ nodes) (above : slot < index y) (reach : ReachBelow succ index x y v) :
    slot < index v := by
  have floor : Floor succ index nodes (slot + 1) := by
    intro v inside w edge high
    cases ascends v inside w edge with
    | inl up => omega
    | inr listed =>
      have := outside _ listed
      dsimp only at this
      omega
  exact ReachBelow.floor floor closed member above reach

/-- What a search reaches, it reaches inside the graph. -/
theorem Listed.reach_path (listed : Listed succ index nodes edges)
    (closed : ∀ v ∈ nodes, ∀ w ∈ succ v, w ∈ nodes) {e : α × α} (member : e ∈ edges) {v : α}
    (reach : ReachBelow succ index e.1 e.2 v) :
    ReflTransGen (fun v w => v ∈ nodes ∧ w ∈ succ v) e.2 v := by
  induction reach with
  | refl => exact .refl
  | tail before last ih => exact ih.tail ⟨listed.reach_mem closed member before, last.1⟩

namespace Frontier

theorem movable (frontier : Frontier succ index edges found) (listed : Listed succ index nodes edges)
    (closed : ∀ v ∈ nodes, ∀ w ∈ succ v, w ∈ nodes) : Movable found nodes where
  nodup := frontier.nodup
  source m member := by
    obtain ⟨y, edge, reach⟩ := frontier.source m member
    exact listed.reach_mem closed edge reach
  target m member := by
    obtain ⟨y, edge, _⟩ := frontier.source m member
    exact (listed.members _ edge).1
  fixed := frontier.fixed

/-- The pairs are the displaced nodes with the highest tail that displaces them. -/
theorem pair_iff (frontier : Frontier succ index edges found) (numbered : Numbered index nodes)
    (listed : Listed succ index nodes edges) {v x : α} : (v, x) ∈ found ↔
      Displaces succ index edges x v ∧ ∀ z, Displaces succ index edges z v → index z ≤ index x := by
  constructor
  · intro member
    refine ⟨frontier.source _ member, fun z ⟨y, edge, reach⟩ => ?_⟩
    obtain ⟨⟨w, x'⟩, other, rfl, high⟩ := frontier.reached _ edge v reach
    rw [target_unique frontier.nodup member other]
    exact high
  · rintro ⟨⟨y, edge, reach⟩, highest⟩
    obtain ⟨⟨w, x'⟩, member, rfl, high⟩ := frontier.reached _ edge v reach
    obtain ⟨y', edge', reach'⟩ := frontier.source _ member
    have same : x = x' := numbered.injOn (listed.members _ edge).1 (listed.members _ edge').1
      (le_antisymm high (highest x' ⟨y', edge', reach'⟩))
    exact same ▸ member

theorem moved_iff (frontier : Frontier succ index edges found) {v : α} :
    v ∈ found.map Prod.fst ↔ ∃ x, Displaces succ index edges x v := by
  constructor
  · intro moved
    obtain ⟨m, member, rfl⟩ := List.mem_map.mp moved
    exact ⟨m.2, frontier.source m member⟩
  · rintro ⟨x, y, edge, reach⟩
    obtain ⟨m, member, rfl, _⟩ := frontier.reached _ edge v reach
    exact List.mem_map_of_mem member

/-- With heads above a floor, everything found is above it. -/
theorem floor_le (frontier : Frontier succ index edges found) (listed : Listed succ index nodes edges)
    (closed : ∀ v ∈ nodes, ∀ w ∈ succ v, w ∈ nodes) {bound : ℤ}
    (floor : Floor succ index nodes bound) (heads : ∀ e ∈ edges, bound ≤ index e.2) :
    ∀ m ∈ found, bound ≤ index m.1 := by
  intro m member
  obtain ⟨y, edge, reach⟩ := frontier.source m member
  exact reach.floor floor closed (listed.members _ edge).2 (heads _ edge)

/-- A successor below the tail of its pair has no lower tail. -/
theorem tail_le_of_succ (frontier : Frontier succ index edges found) {m n : α × α}
    (left : m ∈ found) (right : n ∈ found) (edge : n.1 ∈ succ m.1) (below : index n.1 < index m.2) :
    index m.2 ≤ index n.2 := by
  obtain ⟨y, listed, reach⟩ := frontier.source m left
  obtain ⟨k, other, same, high⟩ := frontier.reached _ listed n.1 (reach.tail ⟨edge, below⟩)
  have equal : k = n := List.inj_on_of_nodup_map frontier.nodup other right same
  exact equal ▸ high

/-- No earlier pair is a successor of a later one below its tail. -/
theorem settled_pairwise (settled : SettledBelow succ index found)
    (unique : (found.map Prod.fst).Nodup) :
    found.Pairwise (fun m n => m.1 ∈ succ n.1 → index n.2 ≤ index m.1) := by
  induction found with
  | nil => exact .nil
  | cons first rest ih =>
    obtain ⟨fresh, uniqueRest⟩ := List.nodup_cons.mp unique
    refine List.pairwise_cons.mpr ⟨fun n later edge => ?_, ih settled.2 uniqueRest⟩
    by_contra below
    exact fresh (settled.2.mem later edge (not_le.mp below))

section Order

variable [DecidableEq α]

/-- Within the block of one tail the nodes are in topological order. -/
theorem block_pairwise (frontier : Frontier succ index edges found) (u : α) :
    (block found u).Pairwise (fun a b => a ∉ succ b) := by
  refine List.pairwise_map.mpr (((settled_pairwise frontier.settled frontier.nodup).filter _).imp_of_mem ?_)
  intro m n left right order edge
  simp only [List.mem_filter, decide_eq_true_eq] at left right
  have := frontier.below m left.1
  have := order edge
  rw [right.2, ← left.2] at this
  omega

/-- After the moves no edge goes backward, provided the graph has no cycle. -/
theorem no_back_edge (frontier : Frontier succ index edges found) (numbered : Numbered index nodes)
    (closed : ∀ v ∈ nodes, ∀ w ∈ succ v, w ∈ nodes) (listed : Listed succ index nodes edges)
    (ascends : ∀ v ∈ nodes, ∀ w ∈ succ v, index v < index w ∨ (v, w) ∈ edges)
    (acyclic : Acyclic (fun v w => v ∈ nodes ∧ w ∈ succ v)) :
    (reinsert found nodes).Pairwise (fun a b => a ∉ succ b) := by
  have movable := frontier.movable listed closed
  refine List.pairwise_flatMap.mpr ⟨fun u stays => ?_, ?_⟩
  · refine List.pairwise_cons.mpr ⟨fun b inBlock edge => ?_, frontier.block_pairwise u⟩
    -- an edge back to the tail closes a cycle through the edge that displaced `b`
    have pair := mem_block.mp inBlock
    obtain ⟨y, tailEdge, reach⟩ := frontier.source _ pair
    have path := listed.reach_path closed tailEdge reach
    have first := TransGen.head' ⟨(listed.members _ tailEdge).1, listed.present _ tailEdge⟩ path
    exact acyclic u (first.tail ⟨movable.source _ pair, edge⟩)
  · apply (numbered.pairwise_lt.filter _).imp_of_mem
    intro u u' stays stays' before a inLeft b inRight edge
    have fixed := (mem_kept.mp stays).2
    rcases List.mem_cons.mp inRight with rfl | rightBlock
    · cases ascends b (mem_kept.mp stays').1 a edge with
      | inl up =>
        rcases List.mem_cons.mp inLeft with rfl | leftBlock
        · omega
        · have := frontier.below _ (mem_block.mp leftBlock)
          dsimp only at this
          omega
      | inr invalid =>
        obtain ⟨m, member, rfl, high⟩ := frontier.reached _ invalid a .refl
        rcases List.mem_cons.mp inLeft with rfl | leftBlock
        · exact fixed (List.mem_map_of_mem member)
        · rw [← target_unique frontier.nodup (mem_block.mp leftBlock) member] at high
          dsimp only at high
          omega
    · have pair := mem_block.mp rightBlock
      rcases List.mem_cons.mp inLeft with rfl | leftBlock
      · exact fixed (frontier.settled.mem pair edge before)
      · have other := mem_block.mp leftBlock
        have := frontier.below _ other
        have := frontier.tail_le_of_succ pair other edge (by dsimp only at this ⊢; omega)
        dsimp only at this
        omega

/-- A node outside the intervals of all edges that do not ascend keeps its slot, also when only
some of these edges have been treated. -/
theorem renumber_outside (frontier : Frontier succ index edges found) (numbered : Numbered index nodes)
    (closed : ∀ v ∈ nodes, ∀ w ∈ succ v, w ∈ nodes) (listed : Listed succ index nodes edges)
    {all : List (α × α)} (treated : edges ⊆ all)
    (ascends : ∀ v ∈ nodes, ∀ w ∈ succ v, index v < index w ∨ (v, w) ∈ all) {v : α}
    (member : v ∈ nodes) (outside : ∀ e ∈ all, ¬ (index e.2 ≤ index v ∧ index v ≤ index e.1)) :
    renumber index (reinsert found nodes) v = index v := by
  have movable := frontier.movable listed closed
  have sided : ∀ m ∈ found, index m.1 < index v ∧ index m.2 < index v ∨
      index v < index m.1 ∧ index v < index m.2 := by
    intro m inFound
    obtain ⟨y, edge, reach⟩ := frontier.source m inFound
    have apart := outside _ (treated edge)
    have := frontier.below m inFound
    obtain before | behind := lt_or_ge (index m.2) (index v)
    · exact .inl (by omega)
    · have above := ReachBelow.stays_above closed ascends outside (listed.members _ edge).2
        (by dsimp only at apart ⊢; omega) reach
      exact .inr (by omega)
  obtain ⟨slot, bound, rfl, atSlot⟩ := numbered.exists_slot member
  have stays : nodes[slot] ∉ found.map Prod.fst := by
    intro moved
    obtain ⟨m, inFound, same⟩ := List.mem_map.mp moved
    have := sided m inFound
    rw [same] at this
    omega
  have early : nodes[slot] ∉ nodes.take slot := by
    rw [numbered.mem_take_iff member]
    omega
  have length : (reinsert found (nodes.take slot)).length = slot := by
    rw [length_reinsert_eq frontier.nodup frontier.fixed (numbered.nodup.sublist (List.take_sublist _ _))]
    · rw [List.length_take]
      omega
    · intro m inFound
      rw [numbered.mem_take_iff (movable.target m inFound), numbered.mem_take_iff (movable.source m inFound)]
      have := sided m inFound
      omega
  have absent : nodes[slot] ∉ reinsert found (nodes.take slot) := by
    rw [mem_reinsert]
    rintro (kept | ⟨u, _, moved⟩)
    · exact early (mem_kept.mp kept).1
    · exact stays (List.mem_map_of_mem (f := Prod.fst) moved)
  have split : reinsert found nodes = reinsert found (nodes.take slot) ++
      (nodes[slot] :: block found nodes[slot] ++ reinsert found (nodes.drop (slot + 1))) := by
    conv_lhs => rw [← List.take_append_drop slot nodes, List.drop_eq_getElem_cons bound,
      ← List.singleton_append, reinsert_append, reinsert_append, reinsert_singleton_kept stays]
  rw [renumber, if_pos (movable.mem_iff.mpr member), split, List.idxOf_append_of_notMem absent, length,
    List.cons_append, List.idxOf_cons_self, atSlot]
  omega

/-- Moves above a slot leave the nodes before it alone. -/
theorem reinsert_above (numbered : Numbered index nodes) {k : ℕ}
    (high : ∀ m ∈ found, (k : ℤ) ≤ index m.1 ∧ (k : ℤ) ≤ index m.2) :
    reinsert found nodes = nodes.take k ++ reinsert found (nodes.drop k) := by
  conv_lhs => rw [← List.take_append_drop k nodes, reinsert_append]
  congr 1
  have late {v : α} (above : (k : ℤ) ≤ index v) : v ∉ nodes.take k := by
    intro early
    have := (numbered.mem_take_iff (List.mem_of_mem_take early) k).mp early
    omega
  exact reinsert_eq_self fun m inFound => ⟨late (high m inFound).1, late (high m inFound).2⟩

/-- Moves above a slot keep the numbers below it and give none below it to a node from above. -/
theorem renumber_above (movable : Movable found nodes) (numbered : Numbered index nodes) {k : ℕ}
    (high : ∀ m ∈ found, (k : ℤ) ≤ index m.1 ∧ (k : ℤ) ≤ index m.2) {v : α} (member : v ∈ nodes) :
    (index v < k → renumber index (reinsert found nodes) v = index v) ∧
      (k ≤ index v → k ≤ renumber index (reinsert found nodes) v) := by
  have present := movable.mem_iff.mpr member
  have split := reinsert_above numbered high
  have taken := numbered.mem_take_iff member k
  obtain ⟨slot, bound, same, atSlot⟩ := numbered.exists_slot member
  rw [renumber, if_pos present, split]
  constructor
  · intro low
    rw [List.idxOf_append_of_mem (taken.mpr low)]
    have inside : slot < (nodes.take k).length := by rw [List.length_take]; omega
    have unique := numbered.nodup.sublist (List.take_sublist k nodes)
    have := unique.idxOf_getElem slot inside
    rw [List.getElem_take, same] at this
    omega
  · intro above
    rw [List.idxOf_append_of_notMem (fun early => absurd (taken.mp early) (by omega)), List.length_take]
    have := (numbered.bounds member).2
    omega

/-- Pairs found above the tails of the remaining edges do not influence the remaining searches, nor
does a numbering that agrees below these tails. -/
theorem collect_local (cycle exhausted : ε) (fuel : ℕ) {other : α → ℤ} {old : List (α × α)}
    (rest : List (α × α)) (found : List (α × α))
    (agree : ∀ e ∈ rest, ∀ w, other w < other e.1 ↔ index w < index e.1)
    (apart : ∀ e ∈ rest, ∀ m ∈ old, index e.1 ≤ index m.1)
    (heads : ∀ e ∈ rest, e.2 ∉ old.map Prod.fst) :
    collect cycle exhausted succ index fuel (found ++ old) rest =
      (collect cycle exhausted succ other fuel found rest).map (fun new => new ++ old) := by
  induction rest generalizing found with
  | nil => rfl
  | cons e rest ih =>
    have sameFree : free index (found ++ old) e.1 = free other found e.1 := by
      funext w
      rw [Bool.eq_iff_iff, free_iff, free_iff, List.map_append, List.mem_append, not_or,
        agree e List.mem_cons_self w]
      constructor
      · exact fun usable => ⟨usable.1.1, usable.2⟩
      · refine fun usable => ⟨⟨usable.1, fun again => ?_⟩, usable.2⟩
        obtain ⟨m, member, rfl⟩ := List.mem_map.mp again
        have := apart e List.mem_cons_self m member
        omega
    have sameHead : e.2 ∈ (found ++ old).map Prod.fst ↔ e.2 ∈ found.map Prod.fst := by
      rw [List.map_append, List.mem_append]
      exact or_iff_left (heads e List.mem_cons_self)
    have sameStep : collectStep cycle exhausted succ index fuel (found ++ old) e =
        (collectStep cycle exhausted succ other fuel found e).map (fun new => new ++ old) := by
      unfold collectStep
      rw [sameFree]
      by_cases head : e.2 ∈ found.map Prod.fst
      · rw [if_pos head, if_pos (sameHead.mpr head)]
        rfl
      · rw [if_neg head, if_neg (fun again => head (sameHead.mp again))]
        cases DepthFirst.search cycle exhausted succ (free other found e.1) fuel e.2 with
        | error err => rfl
        | ok new => exact congrArg Except.ok (List.append_assoc _ _ _).symm
    simp only [collect, sameStep]
    cases collectStep cycle exhausted succ other fuel found e with
    | error err => rfl
    | ok next =>
      exact ih next (fun f member => agree f (List.mem_cons_of_mem _ member))
        (fun f member => apart f (List.mem_cons_of_mem _ member))
        (fun f member => heads f (List.mem_cons_of_mem _ member))

end Order

end Frontier

end DynamicDag
