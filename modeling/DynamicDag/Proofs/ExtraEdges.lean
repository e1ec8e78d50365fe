import DynamicDag.Proofs.Generator

/-! # Additional edges

The generator of additional edges works on a graph whose nodes stand at their indices. It accepts index
pairs that ascend and that neither the graph nor an earlier round has, so that what it returns can be
added to the graph without a loop, a parallel edge or an edge against the order.
-/

namespace DynamicDag

open CheckedAccess Numbering

variable {Ptr : Type} [DecidableEq Ptr] {s : Store Ptr} {draws rest : List ℤ} {rounds : ℕ}
  {existing : Finset (ℤ × ℤ)} {acc edges : List (Edge Ptr)}

omit [DecidableEq Ptr] in
/-- Two draws in range name two nodes, the lower index first. -/
theorem extraEdge_ok (numbered : Numbered s.heap.index s.dag.nodes) {a b : ℤ}
    (left : 0 ≤ a ∧ a < s.dag.nodes.length) (right : 0 ≤ b ∧ b < s.dag.nodes.length) :
    ∃ e, extraEdge s.dag a b = .ok e ∧ e.1 ∈ s.dag.nodes ∧ e.2 ∈ s.dag.nodes ∧
      s.heap.index e.1 = min a b ∧ s.heap.index e.2 = max a b := by
  obtain ⟨u, uMember, readU, atU⟩ := exists_read numbered (i := min a b) (by omega)
  obtain ⟨v, vMember, readV, atV⟩ := exists_read numbered (i := max a b) (by omega)
  refine ⟨(u, v), ?_, uMember, vMember, atU, atV⟩
  simp only [extraEdge, readU, readV, bind, Except.bind, pure, Except.pure]

/-- The loop returns with new ascending edges after those it had. -/
theorem generateExtra_ok (numbered : Numbered s.heap.index s.dag.nodes)
    (inRange : ∀ d ∈ draws, 0 ≤ d ∧ d < s.dag.nodes.length)
    (returned : generateExtra s rounds existing acc draws = .ok (edges, rest)) :
    ∃ added, edges = acc ++ added ∧ added.length = rounds ∧
      NewEdges s.heap.index s.dag.nodes true existing added ∧ rest ⊆ draws := by
  induction rounds generalizing existing acc draws with
  | zero =>
    cases returned
    exact ⟨[], by simp, rfl, ⟨.nil, by simp, by simp, by simp, by simp⟩, fun d member => member⟩
  | succ rounds ih =>
    obtain ⟨⟨e, later⟩, outcome, returned⟩ := bind_eq_ok.mp returned
    obtain ⟨⟨a, left, b, right, made⟩, accepted, fewer⟩ := RejectionSampling.draw_ok outcome
    simp only [Bool.or_eq_false_iff, decide_eq_false_iff_not] at accepted
    obtain ⟨f, same, tail, head, atTail, atHead⟩ :=
      extraEdge_ok numbered (inRange a left) (inRange b right)
    obtain rfl : f = e := Except.ok.inj (same.symm.trans made)
    obtain ⟨added, whole, length, new, sub⟩ := ih (fun d member => inRange d (fewer member)) returned
    refine ⟨f :: added, by rw [whole, List.append_assoc]; rfl, by rw [List.length_cons, length],
      new.cons tail head accepted.1 (fun _ => ?_) accepted.2, fun d member => fewer (sub member)⟩
    have apart : s.heap.index f.1 ≠ s.heap.index f.2 := fun equal =>
      accepted.1 (numbered.injOn tail head equal)
    omega

/-- With draws in range the loop fails only for lack of draws. -/
theorem generateExtra_error (numbered : Numbered s.heap.index s.dag.nodes)
    (inRange : ∀ d ∈ draws, 0 ≤ d ∧ d < s.dag.nodes.length) {e : Fault}
    (failed : generateExtra s rounds existing acc draws = .error e) : e = .outOfDraws := by
  induction rounds generalizing existing acc draws with
  | zero => contradiction
  | succ rounds ih =>
    obtain outcome | ⟨drawn, outcome, failed⟩ := bind_eq_error.mp failed
    · apply RejectionSampling.draw_error _ outcome
      intro a left b right
      obtain ⟨f, made, _⟩ := extraEdge_ok numbered (inRange a left) (inRange b right)
      exact ⟨f, made⟩
    · obtain ⟨_, _, fewer⟩ := RejectionSampling.draw_ok outcome
      exact ih (fun d member => inRange d (fewer member)) failed

omit [DecidableEq Ptr] in
/-- Additional edges are new to the adjacency lists. -/
theorem NewEdges.notMem (new : NewEdges s.heap.index s.dag.nodes true (existingEdges s) edges) {u v : Ptr}
    (listed : (u, v) ∈ edges) : v ∉ (s.heap u).outgoingEdges := by
  intro old
  refine new.fresh _ listed (List.mem_toFinset.mpr (List.mem_flatMap.mpr ⟨u, (new.members _ listed).1, ?_⟩))
  exact List.mem_map_of_mem (f := fun m => ((s.heap u).index, (s.heap m).index)) old

namespace Store

/-- No edge is present twice. -/
def Simple (s : Store Ptr) : Prop :=
  ∀ v ∈ s.dag.nodes, (s.heap v).outgoingEdges.Nodup ∧ (s.heap v).incomingEdges.Nodup

/-- Any of the new edges can be appended, in any order, without leaving the order of the nodes. -/
theorem Sorted.appendAll_new (sorted : s.Sorted)
    (new : NewEdges s.heap.index s.dag.nodes true (existingEdges s) edges) {chosen : List (Edge Ptr)}
    (subset : chosen ⊆ edges) : (appendAll chosen s).Sorted := by
  have spans : s.Spans chosen := fun e member => new.members e (subset member)
  have wired := sorted.wired.appendAll spans
  refine ⟨wired.inOrder (by rw [appendAll_index]; exact sorted.numbered) fun u member v edge => ?_, wired⟩
  rw [appendAll_index]
  cases (appendAll_adj spans u v).mp ⟨member, edge⟩ with
  | inl old => exact sorted.ascends member old.2
  | inr added => exact new.ascends rfl _ (subset added)

/-- Nor do the new edges repeat an edge. -/
theorem Simple.appendAll_new (simple : s.Simple) (wired : s.Wired)
    (new : NewEdges s.heap.index s.dag.nodes true (existingEdges s) edges) {chosen : List (Edge Ptr)}
    (subset : chosen ⊆ edges) (unique : chosen.Nodup) : (appendAll chosen s).Simple := by
  intro v member
  obtain ⟨outgoing, incoming⟩ := simple v member
  rw [appendAll_outgoing, appendAll_incoming]
  refine ⟨outgoing.append (headsFrom_nodup unique v) fun w old added => ?_,
    incoming.append (tailsTo_nodup unique v) fun u old added => ?_⟩
  · exact new.notMem (subset (mem_headsFrom.mp added)) old
  · have listed := subset (mem_tailsTo.mp added)
    apply new.notMem listed
    rw [← List.count_pos_iff, wired.mirrored u (new.members _ listed).1 v member, List.count_pos_iff]
    exact old

/-- A call with enough draws returns the requested number of new edges. They follow the order, and any
selection of them can be appended in any order. The call only reads the graph. -/
theorem generateExtraEdges_new (sorted : s.Sorted) {k : ℤ} (nonneg : 0 ≤ k)
    (inRange : ∀ d ∈ draws, 0 ≤ d ∧ d < s.dag.nodes.length)
    (longEnough : generateExtraEdges s draws k ≠ .error .outOfDraws) :
    ∃ edges rest, generateExtraEdges s draws k = .ok (edges, rest) ∧ (edges.length : ℤ) = k ∧ edges.Nodup ∧
      (∀ e ∈ edges, e.1 ∈ s.dag.nodes ∧ e.2 ∈ s.dag.nodes ∧ e.1 ≠ e.2 ∧
        e.2 ∉ (s.heap e.1).outgoingEdges ∧ s.heap.index e.1 < s.heap.index e.2) ∧
      ∀ chosen : List (Edge Ptr), chosen.Subperm edges →
        graphIsInTopologicalOrder (appendAll chosen s).heap (appendAll chosen s).dag = true ∧
          (s.Simple → (appendAll chosen s).Simple) := by
  cases returned : generateExtraEdges s draws k with
  | error e =>
    obtain rfl := generateExtra_error sorted.numbered inRange returned
    exact absurd returned longEnough
  | ok result =>
    obtain ⟨edges, rest⟩ := result
    obtain ⟨added, whole, length, new, _⟩ := generateExtra_ok sorted.numbered inRange returned
    obtain rfl : edges = added := whole
    refine ⟨edges, rest, rfl, by omega, new.nodup, fun e member => ?_, fun chosen selected => ?_⟩
    · exact ⟨(new.members e member).1, (new.members e member).2, new.loopFree e member,
        new.notMem member, new.ascends rfl e member⟩
    · have unique : chosen.Nodup := by
        obtain ⟨arranged, perm, inside⟩ := selected
        exact perm.nodup_iff.mp (new.nodup.sublist inside)
      exact ⟨(sorted.appendAll_new new selected.subset).inOrder,
        fun simple => simple.appendAll_new sorted.wired new selected.subset unique⟩

/-- On a path of three nodes the one missing edge is found after a loop and an edge of the path. -/
theorem generateExtraEdges_new_path :
    let path := appendAll [(0, 1), (1, 2)] (edgeless 3)
    ∃ edges rest, generateExtraEdges path [1, 1, 1, 0, 2, 0] 1 = .ok (edges, rest) ∧
      graphIsInTopologicalOrder (appendAll edges path).heap (appendAll edges path).dag = true := by
  intro path
  have spans : (edgeless 3).Spans [(0, 1), (1, 2)] := by decide
  have sorted : path.Sorted := ⟨by decide, (edgeless_wired 3).appendAll spans⟩
  obtain ⟨edges, rest, returned, _, _, _, appended⟩ := generateExtraEdges_new sorted
    (show (0 : ℤ) ≤ 1 by decide) (by decide) (show generateExtraEdges path [1, 1, 1, 0, 2, 0] 1 ≠ _ by decide)
  exact ⟨edges, rest, returned, (appended edges (.refl _)).1⟩

end Store

end DynamicDag
