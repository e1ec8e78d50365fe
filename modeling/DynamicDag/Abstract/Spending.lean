import DynamicDag.Abstract.Frontier
import DynamicDag.General.SearchWork

/-! # What the searches for frontier pairs spend

The searches of one batch share what they have found, so that no node is searched twice. If every search
charges no more than the weights of its nodes, all of them together charge no more than the weights of
the nodes that the batch reaches, also when the last one meets a cycle.
-/

namespace DynamicDag

open BoundedLoop

variable {α ε : Type*} [DecidableEq α]

/-- The charges of the searches from a list of edges. -/
def collectSpent (charge : (α → Bool) → DepthFirst.State α → ℕ) (cycle exhausted : ε) (succ : α → List α)
    (index : α → ℤ) (fuel : ℕ) : List (α × α) → List (α × α) → ℕ
  | _, [] => 0
  | found, e :: rest =>
    (if e.2 ∈ found.map Prod.fst then 0
      else spent (charge (free index found e.1)) (DepthFirst.step cycle succ (free index found e.1)) fuel
        ⟨[e.2], []⟩) +
    match collectStep cycle exhausted succ index fuel found e with
    | .error _ => 0
    | .ok next => collectSpent charge cycle exhausted succ index fuel next rest

variable {cycle exhausted : ε} {succ : α → List α} {index : α → ℤ}
  {charge : (α → Bool) → DepthFirst.State α → ℕ} {weight : α → ℕ}

/-- All searches together charge for the nodes they take, each once. -/
theorem collectSpent_le (affords : DepthFirst.Affords succ cycle exhausted charge weight) (index : α → ℤ)
    (fuel : ℕ) (edges found : List (α × α)) : ∃ part : List α, part.Nodup ∧
      (∀ v ∈ part, v ∉ found.map Prod.fst ∧ ∃ e ∈ edges, ReachBelow succ index e.1 e.2 v) ∧
      collectSpent charge cycle exhausted succ index fuel found edges ≤ (part.map weight).sum := by
  induction edges generalizing found with
  | nil => exact ⟨[], List.nodup_nil, by simp, le_rfl⟩
  | cons e rest ih =>
    by_cases old : e.2 ∈ found.map Prod.fst
    · obtain ⟨part, unique, taken, bound⟩ := ih found
      refine ⟨part, unique, fun v member => ?_, ?_⟩
      · obtain ⟨fresh, f, inRest, reach⟩ := taken v member
        exact ⟨fresh, f, List.mem_cons_of_mem _ inRest, reach⟩
      · simpa only [collectSpent, collectStep, if_pos old, Nat.zero_add] using bound
    · obtain ⟨first, unique, reached, bound, same⟩ := affords (free index found e.1) e.2 fuel
      have ofFirst : ∀ v ∈ first, ReachBelow succ index e.1 e.2 v ∧ v ∉ found.map Prod.fst := by
        intro v member
        refine ⟨Frontier.reachBelow_of_reach (reached v member), ?_⟩
        obtain rfl | usable := Frontier.free_of_reach (reached v member)
        · exact old
        · exact usable.1
      rcases outcome : DepthFirst.search cycle exhausted succ (free index found e.1) fuel e.2 with err | new
      · refine ⟨first, unique, fun v member => ?_, ?_⟩
        · exact ⟨(ofFirst v member).2, e, List.mem_cons_self, (ofFirst v member).1⟩
        · simpa only [collectSpent, collectStep, if_neg old, outcome, Except.map, Nat.add_zero] using bound
      · obtain rfl := same new outcome
        obtain ⟨second, uniqueSecond, taken, boundSecond⟩ := ih (first.map (fun v => (v, e.1)) ++ found)
        rw [fst_pairs] at taken
        refine ⟨first ++ second, List.nodup_append.mpr ⟨unique, uniqueSecond, ?_⟩, ?_, ?_⟩
        · intro v inFirst w inSecond equal
          exact (taken w inSecond).1 (List.mem_append_left _ (equal ▸ inFirst))
        · refine List.forall_mem_append.mpr ⟨fun v member => ?_, fun v member => ?_⟩
          · exact ⟨(ofFirst v member).2, e, List.mem_cons_self, (ofFirst v member).1⟩
          · obtain ⟨fresh, f, inRest, reach⟩ := taken v member
            exact ⟨fun inFound => fresh (List.mem_append_right _ inFound), f, List.mem_cons_of_mem _ inRest, reach⟩
        · simp only [collectSpent, collectStep, if_neg old, outcome, Except.map, List.map_append, List.sum_append]
          exact Nat.add_le_add bound boundSecond

end DynamicDag
