import DynamicDag.Proofs.Insertion

/-! # Insertion without regions

The plain insertion searches once from all invalidating edges and shifts once. With a stable sort both
insertions search from the same edges in the same order. The regions only limit how far a shift reaches
and how long a flag stays set; neither can be seen in the result.
-/

namespace DynamicDag

open Numbering Procedures Reinsertion

variable {Ptr : Type} [DecidableEq Ptr]

/-- Insert a batch with one search from all invalidating edges and one shift from the lowest of their
heads. -/
def insertEdgesPlain (sort : StdSort (Edge Ptr)) (edges : List (Edge Ptr)) :
    EStateM Fault (Store Ptr) Unit := do
  let s ← get
  let vacant := List.replicate s.dag.nodes.length false
  let (heap, invalidatingEdges) := appendEdges s.heap edges
  set { heap, dag := { s.dag with numberOfEdges := s.dag.numberOfEdges + edges.length } : Store Ptr }
  if invalidatingEdges.isEmpty then return ()
  let startingIndex := invalidatingEdges.foldl (fun lowest e => min lowest (heap e.2).index) s.dag.nodes.length
  let _ ← processRegion sort invalidatingEdges startingIndex vacant

namespace Store

variable {s : Store Ptr} {edges : List (Edge Ptr)} {sort : StdSort (Edge Ptr)}

omit [DecidableEq Ptr] in
/-- The lowest head is a slot, and no head lies below it. -/
theorem exists_lowest (heap : Heap Ptr) (edges : List (Edge Ptr)) (bound : ℕ)
    (slots : ∀ e ∈ edges, 0 ≤ heap.index e.2) :
    ∃ lower : ℕ, edges.foldl (fun lowest e => min lowest (heap e.2).index) (bound : ℤ) = lower ∧
      lower ≤ bound ∧ ∀ e ∈ edges, (lower : ℤ) ≤ heap.index e.2 := by
  induction edges generalizing bound with
  | nil => exact ⟨bound, rfl, le_rfl, by simp⟩
  | cons e rest ih =>
    obtain ⟨slot, same⟩ := Int.eq_ofNat_of_zero_le (slots e List.mem_cons_self)
    have next : min (bound : ℤ) (heap e.2).index = ((min bound slot : ℕ) : ℤ) := by
      rw [show (heap e.2).index = slot from same]
      omega
    obtain ⟨lower, folded, least, heads⟩ :=
      ih (min bound slot) fun f member => slots f (List.mem_cons_of_mem _ member)
    refine ⟨lower, by rw [List.foldl_cons, next, folded], by omega, fun f member => ?_⟩
    rcases List.mem_cons.mp member with rfl | later
    · omega
    · exact heads f later

/-- A stable sort leaves a sorted region as it is, so sorting before the search changes nothing. -/
theorem processRegion_sorted (stable : sort.Stable) (region : List (Edge Ptr)) (lower : ℤ)
    (vacant : List Bool) (t : Store Ptr) :
    processRegion sort region lower vacant t =
      processRegion sort (sort.sort (byTail t.heap) region) lower vacant t := by
  have order := byTail_strictWeakOrder t.heap
  have again : sort.sort (byTail t.heap) (sort.sort (byTail t.heap) region) =
      sort.sort (byTail t.heap) region := stable.sort_eq order (sort.arranged _ _ order)
  simp only [processRegion, discover, again]

/-- The plain call without its do-notation. -/
theorem insertEdgesPlain_eq (s : Store Ptr) (edges : List (Edge Ptr)) (sort : StdSort (Edge Ptr)) :
    insertEdgesPlain sort edges s =
      if (s.invalidating edges).isEmpty then .ok () (appendAll edges s)
      else
        match processRegion sort (s.invalidating edges)
          ((s.invalidating edges).foldl (fun lowest e => min lowest ((appendAll edges s).heap e.2).index)
            s.dag.nodes.length) (List.replicate s.dag.nodes.length false) (appendAll edges s) with
        | .error e t => .error e t
        | .ok _ t => .ok () t := by
  have appended : (appendEdges s.heap edges) = ((appendAll edges s).heap, s.invalidating edges) :=
    appendEdges_eq s.heap edges
  rw [insertEdgesPlain, get_bind]
  dsimp only
  rw [appended, set_bind]
  cases harmless : (s.invalidating edges).isEmpty with
  | true => rfl
  | false =>
    simp only [Bool.false_eq_true, ↓reduceIte]
    have same : (⟨(appendAll edges s).heap, ⟨s.dag.nodes, s.dag.numberOfEdges + edges.length⟩⟩ : Store Ptr) =
        appendAll edges s := rfl
    rw [same]
    cases treated : processRegion sort (s.invalidating edges) _ (List.replicate s.dag.nodes.length false)
      (appendAll edges s) with
    | error e t => rw [bind_error treated]
    | ok vacant t =>
      rw [bind_ok treated]
      rfl

/-- Both outcomes of the plain call are those of one search. -/
theorem insertEdgesPlain_cases (sorted : s.Sorted) (spans : s.Spans edges) (stable : sort.Stable) :
    (∃ moves, (appendAll edges s).search []
          (sort.sort (byTail (appendAll edges s).heap) (s.invalidating edges)) = .ok moves ∧
        insertEdgesPlain sort edges s = .ok () ((appendAll edges s).moved moves)) ∨
      (appendAll edges s).search []
          (sort.sort (byTail (appendAll edges s).heap) (s.invalidating edges)) = .error cycleDetected ∧
        insertEdgesPlain sort edges s = .error cycleDetected (appendAll edges s) := by
  have placed := sorted.appendAll_placed spans
  have lists := spans.lists sort
  have perm := sort.perm _ (s.invalidating edges) (byTail_strictWeakOrder (appendAll edges s).heap)
  rw [insertEdgesPlain_eq, processRegion_sorted stable]
  generalize sort.sort (byTail (appendAll edges s).heap) (s.invalidating edges) = inv at *
  by_cases harmless : (s.invalidating edges).isEmpty
  · rw [if_pos harmless]
    rw [List.isEmpty_iff.mp harmless, List.perm_nil] at perm
    subst perm
    exact .inl ⟨[], rfl, by rw [moved_nil placed]⟩
  · rw [if_neg harmless]
    obtain ⟨lower, lowest, inside, heads⟩ := exists_lowest (appendAll edges s).heap (s.invalidating edges)
      s.dag.nodes.length fun e member => (placed.numbered.bounds (spans e (mem_invalidating.mp member).1).2).1
    have ascends : (appendAll edges s).Ascends inv := by
      intro v member w edge
      rw [appendAll_index]
      exact (sorted.ascends_or member edge).imp_right perm.mem_iff.mpr
    have floor : Floor (appendAll edges s).heap.succ (appendAll edges s).heap.index s.dag.nodes lower :=
      floor_of_split (i := inv.length) ascends
        (fun e member => heads e (perm.mem_iff.mp (List.mem_of_mem_take member)))
        (fun e member => by simp at member)
    have low : ∀ e ∈ inv, (appendAll edges s).heap.index e.1 < s.dag.nodes.length :=
      fun e member => (placed.numbered.bounds (lists.members e member).1).2
    have only : (appendAll edges s).Lists ([] ++ (inv ++ [])) := by simpa using lists
    obtain ⟨arranged, _, same, _, ⟨moves, searched, _, _, processed⟩ | ⟨failed, processed⟩⟩ :=
      processRegion_cases placed (Frontier.nil _ _) only
        (fun m member => absurd member List.not_mem_nil) low floor
        (fun e member => heads e (perm.mem_iff.mp (by simpa using member))) inside sort
    · rw [same stable] at searched
      rw [moved_nil placed, appendAll_nodes, ← lowest] at processed
      exact .inl ⟨moves, searched, by rw [processed]⟩
    · rw [same stable] at failed
      rw [moved_nil placed, appendAll_nodes, ← lowest] at processed
      exact .inr ⟨failed, by rw [processed]⟩

/-- With a stable sort, the insertion region by region fails when the plain one does, and otherwise
ends in the same store. -/
theorem insertEdges_refines_plain (sorted : s.Sorted) (spans : s.Spans edges) (stable : sort.Stable) :
    ((∃ t, insertEdges sort edges s = .error cycleDetected t) ↔
        ∃ t, insertEdgesPlain sort edges s = .error cycleDetected t) ∧
      ∀ t, insertEdges sort edges s = .ok () t ↔ insertEdgesPlain sort edges s = .ok () t := by
  obtain ⟨arranged, moves, returned, accepted⟩ | ⟨first, second, moves, failed, rejected⟩ :=
    insertEdges_cases sorted spans sort
  · have searched := accepted.searched
    rw [accepted.stable stable] at searched
    obtain ⟨others, again, plain⟩ | ⟨again, _⟩ := insertEdgesPlain_cases sorted spans stable
    · obtain rfl : moves = others := Except.ok.inj (searched.symm.trans again)
      rw [returned, plain]
      exact ⟨.rfl, fun t => .rfl⟩
    · rw [searched] at again
      contradiction
  · have searched := rejected.searched
    have whole : (appendAll edges s).search []
        (sort.sort (byTail (appendAll edges s).heap) (s.invalidating edges)) = .error cycleDetected := by
      rw [← rejected.stable stable, search_append, searched]
      exact rejected.failed
    obtain ⟨others, again, _⟩ | ⟨_, plain⟩ := insertEdgesPlain_cases sorted spans stable
    · rw [whole] at again
      contradiction
    · rw [failed, plain]
      refine ⟨iff_of_true ⟨_, rfl⟩ ⟨_, rfl⟩, fun t => ?_⟩
      exact iff_of_false (by simp) (by simp)

/-- A batch of two regions. -/
theorem insertEdges_refines_plain_regions :
    ((∃ t, insertEdges (.insertion _) [(1, 0), (3, 2)] (edgeless 4) = .error cycleDetected t) ↔
        ∃ t, insertEdgesPlain (.insertion _) [(1, 0), (3, 2)] (edgeless 4) = .error cycleDetected t) ∧
      ∀ t, insertEdges (.insertion _) [(1, 0), (3, 2)] (edgeless 4) = .ok () t ↔
        insertEdgesPlain (.insertion _) [(1, 0), (3, 2)] (edgeless 4) = .ok () t :=
  insertEdges_refines_plain ⟨by decide, edgeless_wired 4⟩ (by decide) StdSort.insertion_stable

end Store

end DynamicDag
