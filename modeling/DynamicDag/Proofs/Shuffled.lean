import DynamicDag.General.Arrangements
import DynamicDag.Proofs.SortAgain

/-! # Shuffling before the sort

A test set is shuffled and sorted to meet its new edges in another order. Kahn's algorithm keeps nothing of
the shuffle but the order of the nodes without incoming edges, so that a uniform shuffle makes a uniform
choice among as many orders as these nodes have arrangements, and none where there is only one such node.
-/

namespace DynamicDag

open Arrangements

variable {Ptr : Type} [DecidableEq Ptr]

namespace Store

variable {s : Store Ptr} {order other : List Ptr} {fuel : ℕ}

/-- The graph with its nodes in another order; their indices keep the old one. -/
def shuffled (s : Store Ptr) (order : List Ptr) : Store Ptr := { s with dag := { s.dag with nodes := order } }

omit [DecidableEq Ptr] in
theorem shuffleGraph_eq (shuffle : StdShuffle Ptr) :
    shuffleGraph shuffle s = s.shuffled (shuffle.shuffle s.dag.nodes) := rfl

/-- A node without incoming edges. -/
def isSource (s : Store Ptr) (v : Ptr) : Bool := (s.heap v).incomingEdges.isEmpty

section Shuffles

variable (wired : s.Wired) (counted : s.Counted) (acyclic : Acyclic s.Adj)

include wired counted acyclic

/-- A shuffled dag is sorted to an order that shows the order of the sources. -/
theorem sort_shuffled (perm : order.Perm s.dag.nodes) (enough : s.dag.nodes.length < fuel) :
    ∃ k, BoundedLoop.run Fault.outOfFuel (fun k => .ok (kahnRound k)) fuel (kahnStart (s.shuffled order)) = .ok k ∧
      setToTopologicalOrder fuel (s.shuffled order) = .ok () (s.arranged k.topologicalOrder) ∧
      k.topologicalOrder.filter s.isSource = (order.filter s.isSource).reverse := by
  obtain ⟨k, returned, sorted, _, turned⟩ := sort_turns (s := s.shuffled order)
    (wired.of_perm perm (fun _ => rfl) fun _ => rfl) (counted.of_perm wired.nodup perm (fun _ => rfl) rfl)
    (acyclic.mono fun u v edge => ⟨perm.mem_iff.mp edge.1, edge.2⟩) (perm.length_eq.trans_lt enough)
  exact ⟨k, returned, sorted, turned⟩

/-- Two shuffles of a dag are sorted alike if they put the sources in the same order, and only then. -/
theorem sort_shuffled_iff (perm : order.Perm s.dag.nodes) (permOther : other.Perm s.dag.nodes)
    (enough : s.dag.nodes.length < fuel) :
    setToTopologicalOrder fuel (s.shuffled other) = setToTopologicalOrder fuel (s.shuffled order) ↔
      other.filter s.isSource = order.filter s.isSource := by
  obtain ⟨k, returned, sorted, sources⟩ := sort_shuffled wired counted acyclic perm enough
  obtain ⟨l, returnedOther, sortedOther, sourcesOther⟩ := sort_shuffled wired counted acyclic permOther enough
  constructor
  · intro same
    rw [sorted, sortedOther] at same
    injection same with _ same
    have orders : l.topologicalOrder = k.topologicalOrder := congrArg (fun t : Store Ptr => t.dag.nodes) same
    rw [← List.reverse_inj, ← sources, ← sourcesOther, orders]
  · intro same
    have start : kahnStart (s.shuffled other) = kahnStart (s.shuffled order) := by
      change Kahn.mk s.heap [] (other.filter s.isSource).reverse _ _ =
        Kahn.mk s.heap [] (order.filter s.isSource).reverse _ _
      rw [same]
    rw [start, returned] at returnedOther
    rw [sorted, sortedOther, Except.ok.inj returnedOther]

open Classical in
/-- Whatever order `shuffle_graph` makes of a dag with `n` nodes, `k` of them without incoming edges, the sorted
graph that follows is the one of exactly `n! / k!` of the `n!` orders, and there are `k!` such graphs. -/
theorem setToTopologicalOrder_shuffled (enough : s.dag.nodes.length < fuel) :
    (∀ shuffle : StdShuffle Ptr, ∃ t, setToTopologicalOrder fuel (shuffleGraph shuffle s) = .ok () t ∧
      {order ∈ s.dag.nodes.permutations.toFinset | setToTopologicalOrder fuel (s.shuffled order) = .ok () t}.card *
        s.sources.length.factorial = s.dag.nodes.length.factorial) ∧
      (s.dag.nodes.permutations.toFinset.image fun order => setToTopologicalOrder fuel (s.shuffled order)).card =
        s.sources.length.factorial := by
  have listed {order : List Ptr} : order ∈ s.dag.nodes.permutations.toFinset ↔ order.Perm s.dag.nodes := by
    rw [List.mem_toFinset, List.mem_permutations]
  -- the orders that are sorted like a given one
  have alike : ∀ order, order.Perm s.dag.nodes →
      {other ∈ s.dag.nodes.permutations.toFinset | setToTopologicalOrder fuel (s.shuffled other) =
        setToTopologicalOrder fuel (s.shuffled order)}.card * s.sources.length.factorial =
          s.dag.nodes.length.factorial := by
    intro order perm
    rw [← card_ordered wired.nodup (perm.filter s.isSource)]
    congr 2
    ext other
    rw [Finset.mem_filter, mem_ordered, listed]
    exact and_congr_right fun permOther => sort_shuffled_iff wired counted acyclic perm permOther enough
  constructor
  · intro shuffle
    have perm := shuffle.perm s.dag.nodes
    obtain ⟨k, _, sorted, _⟩ := sort_shuffled wired counted acyclic perm enough
    rw [shuffleGraph_eq]
    refine ⟨_, sorted, ?_⟩
    rw [← sorted]
    exact alike _ perm
  · have share := alike s.dag.nodes (.refl _)
    have total := Finset.card_eq_sum_card_image (fun order => setToTopologicalOrder fuel (s.shuffled order))
      s.dag.nodes.permutations.toFinset
    have positive : 0 < s.sources.length.factorial := Nat.factorial_pos _
    rw [card_arrangements wired.nodup, Finset.sum_const_nat fun t member => ?same] at total
    case same =>
      obtain ⟨order, inside, rfl⟩ := Finset.mem_image.mp member
      exact Nat.eq_of_mul_eq_mul_right positive ((alike order (listed.mp inside)).trans share.symm)
    have some : 0 < s.dag.nodes.length.factorial := Nat.factorial_pos _
    rw [← share] at total some
    exact (Nat.eq_of_mul_eq_mul_left (Nat.pos_of_mul_pos_right some) (total.trans (Nat.mul_comm _ _))).symm

omit wired counted acyclic in
open Classical in
/-- Two of three nodes have no incoming edges: three of the six orders lead to the same sorted graph. -/
theorem setToTopologicalOrder_shuffled_two :
    (([0, 1, 2] : List ℕ).permutations.toFinset.image fun order =>
      setToTopologicalOrder 4 ((appendAll [(0, 2)] (edgeless 3)).shuffled order)).card = 2 := by
  have spans : (edgeless 3).Spans [(0, 2)] := by decide
  exact (setToTopologicalOrder_shuffled ((edgeless_wired 3).appendAll spans)
    ((edgeless_counted 3).appendAll (edgeless_wired 3) spans) acyclic_one_edge (by decide : 3 < 4)).2

end Shuffles

end Store

end DynamicDag
