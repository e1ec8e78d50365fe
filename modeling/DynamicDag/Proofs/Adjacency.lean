import DynamicDag.General.Numbering
import DynamicDag.Model.Evaluation
import Mathlib.Algebra.BigOperators.Group.Finset.Piecewise
import Mathlib.Algebra.GroupWithZero.Nat

/-! # Adjacency lists under added edges

A batch reaches the adjacency lists edge by edge; what every list gains is the part of the batch that
starts or ends at its node, in the order of the batch. Hence the lists stay mirrored, the counter stays
right, and no index changes. The check of the order is spelled out as a numbering that grows along
every edge.
-/

namespace DynamicDag

open Numbering

variable {Ptr : Type} [DecidableEq Ptr]

/-- The heads of the listed edges that leave `u`. -/
def headsFrom (edges : List (Edge Ptr)) (u : Ptr) : List Ptr :=
  (edges.filter fun e => decide (e.1 = u)).map Prod.snd

/-- The tails of the listed edges that enter `v`. -/
def tailsTo (edges : List (Edge Ptr)) (v : Ptr) : List Ptr :=
  (edges.filter fun e => decide (e.2 = v)).map Prod.fst

theorem mem_headsFrom {edges : List (Edge Ptr)} {u v : Ptr} : v ∈ headsFrom edges u ↔ (u, v) ∈ edges := by
  simp only [headsFrom, List.mem_map, List.mem_filter, decide_eq_true_eq, Prod.exists, and_comm,
    exists_eq_left]

theorem mem_tailsTo {edges : List (Edge Ptr)} {u v : Ptr} : u ∈ tailsTo edges v ↔ (u, v) ∈ edges := by
  simp only [tailsTo, List.mem_map, List.mem_filter, decide_eq_true_eq, Prod.exists, exists_and_right,
    exists_eq_right]

theorem headsFrom_cons (e : Edge Ptr) (edges : List (Edge Ptr)) (u : Ptr) :
    headsFrom (e :: edges) u = (if e.1 = u then [e.2] else []) ++ headsFrom edges u := by
  by_cases same : e.1 = u <;> simp [headsFrom, same]

theorem tailsTo_cons (e : Edge Ptr) (edges : List (Edge Ptr)) (v : Ptr) :
    tailsTo (e :: edges) v = (if e.2 = v then [e.1] else []) ++ tailsTo edges v := by
  by_cases same : e.2 = v <;> simp [tailsTo, same]

theorem headsFrom_append (first second : List (Edge Ptr)) (u : Ptr) :
    headsFrom (first ++ second) u = headsFrom first u ++ headsFrom second u := by
  simp only [headsFrom, List.filter_append, List.map_append]

theorem tailsTo_append (first second : List (Edge Ptr)) (v : Ptr) :
    tailsTo (first ++ second) v = tailsTo first v ++ tailsTo second v := by
  simp only [tailsTo, List.filter_append, List.map_append]

/-- Heads and tails count every edge alike. -/
theorem count_headsFrom (edges : List (Edge Ptr)) (u v : Ptr) :
    (headsFrom edges u).count v = (tailsTo edges v).count u := by
  induction edges with
  | nil => rfl
  | cons e rest ih =>
    rw [headsFrom_cons, tailsTo_cons, List.count_append, List.count_append, ih]
    congr 1
    by_cases tail : e.1 = u <;> by_cases head : e.2 = v <;> simp [tail, head]

/-- Every edge leaves one of its nodes. -/
theorem sum_headsFrom {nodes : List Ptr} (unique : nodes.Nodup) {edges : List (Edge Ptr)}
    (inside : ∀ e ∈ edges, e.1 ∈ nodes) :
    (nodes.map fun u => (headsFrom edges u).length).sum = edges.length := by
  induction edges with
  | nil => simp [headsFrom]
  | cons e rest ih =>
    have own : (nodes.map fun u => if e.1 = u then 1 else 0).sum = 1 := by
      rw [← List.sum_toFinset _ unique, Finset.sum_ite_eq,
        if_pos (List.mem_toFinset.mpr (inside e List.mem_cons_self))]
    have split : ∀ u, (headsFrom (e :: rest) u).length =
        (if e.1 = u then 1 else 0) + (headsFrom rest u).length := by
      intro u
      rw [headsFrom_cons, List.length_append]
      by_cases same : e.1 = u <;> simp [same]
    simp only [split]
    rw [List.sum_map_add, own, ih fun f member => inside f (List.mem_cons_of_mem _ member),
      List.length_cons]
    omega

theorem addEdge_index (heap : Heap Ptr) (e : Edge Ptr) : (heap.addEdge e).index = heap.index := by
  funext v
  simp only [Heap.index, Heap.addEdge, Function.update_apply]
  split_ifs <;> simp_all

theorem addEdge_outgoing (heap : Heap Ptr) (e : Edge Ptr) (v : Ptr) :
    ((heap.addEdge e) v).outgoingEdges = (heap v).outgoingEdges ++ if e.1 = v then [e.2] else [] := by
  obtain ⟨x, y⟩ := e
  by_cases tail : x = v <;> by_cases head : y = v <;>
    simp [Heap.addEdge, Function.update_apply, Ne.symm, tail, head]

theorem addEdge_incoming (heap : Heap Ptr) (e : Edge Ptr) (v : Ptr) :
    ((heap.addEdge e) v).incomingEdges = (heap v).incomingEdges ++ if e.2 = v then [e.1] else [] := by
  simp only [Heap.addEdge, Function.update_apply]
  split_ifs <;> simp_all

section AddEdges

variable (edges : List (Edge Ptr)) (heap : Heap Ptr)

theorem addEdges_index : (edges.foldl Heap.addEdge heap).index = heap.index := by
  induction edges generalizing heap with
  | nil => rfl
  | cons e rest ih => rw [List.foldl_cons, ih, addEdge_index]

theorem addEdges_outgoing (v : Ptr) : ((edges.foldl Heap.addEdge heap) v).outgoingEdges =
    (heap v).outgoingEdges ++ headsFrom edges v := by
  induction edges generalizing heap with
  | nil => simp [headsFrom]
  | cons e rest ih => rw [List.foldl_cons, ih, addEdge_outgoing, headsFrom_cons, List.append_assoc]

theorem addEdges_incoming (v : Ptr) : ((edges.foldl Heap.addEdge heap) v).incomingEdges =
    (heap v).incomingEdges ++ tailsTo edges v := by
  induction edges generalizing heap with
  | nil => simp [tailsTo]
  | cons e rest ih => rw [List.foldl_cons, ih, addEdge_incoming, tailsTo_cons, List.append_assoc]

end AddEdges

omit [DecidableEq Ptr] in
/-- The check passes exactly for nodes that stand at their indices, between their neighbours. -/
theorem graphIsInTopologicalOrder_iff (heap : Heap Ptr) (graph : Graph Ptr) :
    graphIsInTopologicalOrder heap graph = true ↔ Numbered heap.index graph.nodes ∧
      ∀ v ∈ graph.nodes, (∀ u ∈ (heap v).incomingEdges, heap.index u < heap.index v) ∧
        ∀ w ∈ (heap v).outgoingEdges, heap.index v < heap.index w := by
  have atSlot : graphIsInTopologicalOrder heap graph = true ↔
      ∀ i (bound : i < graph.nodes.length), nodeIsInOrder heap graph.nodes[i] i = true := by
    rw [graphIsInTopologicalOrder, List.all_eq_true]
    constructor
    · exact fun all i bound => all (graph.nodes[i], i) (List.mk_mem_zipIdx_iff_getElem?.mpr (by simp))
    · rintro all ⟨v, i⟩ member
      obtain ⟨bound, rfl⟩ := List.getElem?_eq_some_iff.mp (List.mk_mem_zipIdx_iff_getElem?.mp member)
      exact all i bound
  rw [atSlot]
  simp only [nodeIsInOrder, Bool.and_eq_true, decide_eq_true_eq, List.all_eq_true, and_assoc]
  constructor
  · refine fun all => ⟨fun i bound => (all i bound).1, fun v member => ?_⟩
    obtain ⟨i, bound, rfl⟩ := List.getElem_of_mem member
    have own : heap.index graph.nodes[i] = i := (all i bound).1
    rw [own]
    exact (all i bound).2
  · rintro ⟨numbered, neighbours⟩ i bound
    have own : heap.index graph.nodes[i] = i := numbered i bound
    have near := neighbours graph.nodes[i] (List.getElem_mem bound)
    rw [own] at near
    exact ⟨own, near⟩

namespace Store

variable {s : Store Ptr} {edges : List (Edge Ptr)}

omit [DecidableEq Ptr] in
theorem Indexed.numbered (indexed : s.Indexed) : Numbered s.heap.index s.dag.nodes := indexed

/-- A graph that passes the check, with mirrored adjacency lists. -/
structure Sorted (s : Store Ptr) : Prop where
  inOrder : graphIsInTopologicalOrder s.heap s.dag = true
  wired : s.Wired

theorem Sorted.numbered (sorted : s.Sorted) : Numbered s.heap.index s.dag.nodes :=
  ((graphIsInTopologicalOrder_iff _ _).mp sorted.inOrder).1

theorem Sorted.ascends (sorted : s.Sorted) {v w : Ptr} (member : v ∈ s.dag.nodes)
    (edge : w ∈ s.heap.succ v) : s.heap.index v < s.heap.index w :=
  (((graphIsInTopologicalOrder_iff _ _).mp sorted.inOrder).2 v member).2 w edge

/-- Nodes at their indices and outgoing edges that ascend are enough for the check. -/
theorem Wired.inOrder (wired : s.Wired) (numbered : Numbered s.heap.index s.dag.nodes)
    (ascends : ∀ v ∈ s.dag.nodes, ∀ w ∈ s.heap.succ v, s.heap.index v < s.heap.index w) :
    graphIsInTopologicalOrder s.heap s.dag = true := by
  refine (graphIsInTopologicalOrder_iff _ _).mpr
    ⟨numbered, fun v member => ⟨fun u entering => ?_, ascends v member⟩⟩
  have inside := wired.incoming v member u entering
  refine ascends u inside v (List.count_pos_iff.mp ?_)
  rw [Heap.succ, wired.mirrored u inside v member]
  exact List.count_pos_iff.mpr entering

/-- The nodes in another order, each with the index of its slot. -/
def arranged (s : Store Ptr) (order : List Ptr) : Store Ptr where
  heap := s.heap.withIndex (renumber s.heap.index order)
  dag := { s.dag with nodes := order }

theorem arranged_numbered (s : Store Ptr) {order : List Ptr} (unique : order.Nodup) :
    Numbered (s.arranged order).heap.index (s.arranged order).dag.nodes :=
  renumber_numbered _ unique

/-- The order of the nodes and their indices do not matter to their adjacency lists. -/
theorem Wired.of_perm {t : Store Ptr} (wired : s.Wired) (perm : t.dag.nodes.Perm s.dag.nodes)
    (outgoing : ∀ v, (t.heap v).outgoingEdges = (s.heap v).outgoingEdges)
    (incoming : ∀ v, (t.heap v).incomingEdges = (s.heap v).incomingEdges) : t.Wired where
  nodup := perm.nodup_iff.mpr wired.nodup
  outgoing u member v edge :=
    perm.mem_iff.mpr (wired.outgoing u (perm.mem_iff.mp member) v (by rwa [← outgoing]))
  incoming v member u edge :=
    perm.mem_iff.mpr (wired.incoming v (perm.mem_iff.mp member) u (by rwa [← incoming]))
  mirrored u left v right := by
    rw [outgoing, incoming]
    exact wired.mirrored u (perm.mem_iff.mp left) v (perm.mem_iff.mp right)

theorem Wired.arranged (wired : s.Wired) {order : List Ptr} (perm : order.Perm s.dag.nodes) :
    (s.arranged order).Wired :=
  wired.of_perm perm (fun _ => rfl) fun _ => rfl

@[simp] theorem appendAll_index : (appendAll edges s).heap.index = s.heap.index :=
  addEdges_index edges s.heap

@[simp] theorem appendAll_nodes : (appendAll edges s).dag.nodes = s.dag.nodes := rfl

theorem appendAll_outgoing (v : Ptr) : ((appendAll edges s).heap v).outgoingEdges =
    (s.heap v).outgoingEdges ++ headsFrom edges v :=
  addEdges_outgoing edges s.heap v

theorem appendAll_incoming (v : Ptr) : ((appendAll edges s).heap v).incomingEdges =
    (s.heap v).incomingEdges ++ tailsTo edges v :=
  addEdges_incoming edges s.heap v

/-- The edges afterwards are the old ones and those of the batch. -/
theorem appendAll_adj (spans : s.Spans edges) (u v : Ptr) :
    (appendAll edges s).Adj u v ↔ s.AdjWith edges u v := by
  rw [Adj, AdjWith, Adj, appendAll_nodes, appendAll_outgoing, List.mem_append, mem_headsFrom, and_or_left]
  exact or_congr_right ⟨And.right, fun listed => ⟨(spans _ listed).1, listed⟩⟩

theorem Wired.appendAll (wired : s.Wired) (spans : s.Spans edges) : (appendAll edges s).Wired where
  nodup := wired.nodup
  outgoing u member v edge := by
    rw [appendAll_outgoing, List.mem_append, mem_headsFrom] at edge
    exact edge.elim (wired.outgoing u member v) fun listed => (spans _ listed).2
  incoming v member u edge := by
    rw [appendAll_incoming, List.mem_append, mem_tailsTo] at edge
    exact edge.elim (wired.incoming v member u) fun listed => (spans _ listed).1
  mirrored u left v right := by
    rw [appendAll_outgoing, appendAll_incoming, List.count_append, List.count_append,
      wired.mirrored u left v right, count_headsFrom]

/-- The counter stays right when a batch is added, wherever the nodes are moved. -/
theorem Counted.extend {t : Store Ptr} (counted : s.Counted) (unique : s.dag.nodes.Nodup)
    (spans : s.Spans edges) (perm : t.dag.nodes.Perm s.dag.nodes)
    (outgoing : ∀ v, (t.heap v).outgoingEdges = (s.heap v).outgoingEdges ++ headsFrom edges v)
    (count : t.dag.numberOfEdges = s.dag.numberOfEdges + edges.length) : t.Counted := by
  have total : (t.dag.nodes.map fun u => (t.heap u).outgoingEdges.length).sum =
      (s.dag.nodes.map fun u => (s.heap u).outgoingEdges.length).sum + edges.length := by
    rw [(perm.map _).sum_eq]
    simp only [outgoing, List.length_append]
    rw [List.sum_map_add, sum_headsFrom unique fun e member => (spans e member).1]
  rw [Counted] at counted ⊢
  rw [count, counted, total]
  push_cast
  rfl

theorem Counted.of_perm {t : Store Ptr} (counted : s.Counted) (unique : s.dag.nodes.Nodup)
    (perm : t.dag.nodes.Perm s.dag.nodes)
    (outgoing : ∀ v, (t.heap v).outgoingEdges = (s.heap v).outgoingEdges)
    (count : t.dag.numberOfEdges = s.dag.numberOfEdges) : t.Counted := by
  have none : s.Spans [] := fun _ member => absurd member List.not_mem_nil
  exact counted.extend unique none perm (fun v => (outgoing v).trans (List.append_nil _).symm)
    (count.trans (add_zero _).symm)

theorem Counted.appendAll (counted : s.Counted) (wired : s.Wired) (spans : s.Spans edges) :
    (appendAll edges s).Counted :=
  counted.extend wired.nodup spans (.refl _) appendAll_outgoing rfl

omit [DecidableEq Ptr] in
/-- A rank that grows along old and new edges excludes cycles. -/
theorem acyclic_of_rank (rank : Ptr → ℕ)
    (old : ∀ u ∈ s.dag.nodes, ∀ v ∈ (s.heap u).outgoingEdges, rank u < rank v)
    (new : ∀ e ∈ edges, rank e.1 < rank e.2) : Acyclic (s.AdjWith edges) :=
  .of_rank rank fun u v edge => edge.elim (fun listed => old u listed.1 v listed.2) (new (u, v))

/-- The graph on `0, ..., n - 1` without edges, from which concrete graphs are built. -/
def edgeless (n : ℕ) : Store ℕ where
  heap v := ⟨[], [], v⟩
  dag := ⟨List.range n, 0⟩

theorem edgeless_wired (n : ℕ) : (edgeless n).Wired :=
  ⟨List.nodup_range, by simp [edgeless], by simp [edgeless], fun _ _ _ _ => rfl⟩

theorem edgeless_counted (n : ℕ) : (edgeless n).Counted := by
  simp [Counted, edgeless]

end Store

end DynamicDag
