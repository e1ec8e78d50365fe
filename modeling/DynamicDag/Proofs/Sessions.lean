import DynamicDag.Model.Calls
import DynamicDag.Proofs.Rejection

/-! # Sessions

A caller changes a graph by one call after the other and goes on after exceptions. The one thing it has
to see to is that `insert_edges` meets a graph that passes `graph_is_in_topological_order`, which the two
ways of repairing an order, and a refused call of either, leave for the caller to find out. Whatever the
calls are, the graph stays well formed, holds exactly the edges it was given, and the check tells whether
they are acyclic.
-/

namespace DynamicDag

open Relation Procedures Numbering Reinsertion

variable {Ptr : Type} [DecidableEq Ptr]

/-- The same nodes in some order, under some numbering, with a list of edges appended. -/
structure Store.Gains (s : Store Ptr) (edges : List (Edge Ptr)) (t : Store Ptr) : Prop where
  nodes : t.dag.nodes.Perm s.dag.nodes
  outgoing : ∀ v, (t.heap v).outgoingEdges = (s.heap v).outgoingEdges ++ headsFrom edges v
  incoming : ∀ v, (t.heap v).incomingEdges = (s.heap v).incomingEdges ++ tailsTo edges v
  count : t.dag.numberOfEdges = s.dag.numberOfEdges + edges.length

namespace Store.Gains

variable {s t u : Store Ptr} {edges more : List (Edge Ptr)}

theorem nil (perm : t.dag.nodes.Perm s.dag.nodes) (count : t.dag.numberOfEdges = s.dag.numberOfEdges)
    (outgoing : ∀ v, (t.heap v).outgoingEdges = (s.heap v).outgoingEdges)
    (incoming : ∀ v, (t.heap v).incomingEdges = (s.heap v).incomingEdges) : s.Gains [] t where
  nodes := perm
  outgoing v := (outgoing v).trans (List.append_nil _).symm
  incoming v := (incoming v).trans (List.append_nil _).symm
  count := count.trans (Int.add_zero _).symm

theorem trans (first : s.Gains edges t) (second : t.Gains more u) : s.Gains (edges ++ more) u where
  nodes := second.nodes.trans first.nodes
  outgoing v := by rw [second.outgoing, first.outgoing, headsFrom_append, List.append_assoc]
  incoming v := by rw [second.incoming, first.incoming, tailsTo_append, List.append_assoc]
  count := by
    rw [second.count, first.count, List.length_append]
    omega

theorem appendAll (s : Store Ptr) (edges : List (Edge Ptr)) : s.Gains edges (appendAll edges s) where
  nodes := .refl _
  outgoing := Store.appendAll_outgoing
  incoming := Store.appendAll_incoming
  count := rfl

variable (gains : s.Gains edges t)

include gains

theorem spans_iff : t.Spans more ↔ s.Spans more := by
  simp only [Spans, gains.nodes.mem_iff]

theorem wired (wired : s.Wired) (spans : s.Spans edges) : t.Wired :=
  (wired.appendAll spans).of_perm gains.nodes (fun v => (gains.outgoing v).trans (appendAll_outgoing v).symm)
    fun v => (gains.incoming v).trans (appendAll_incoming v).symm

theorem counted (counted : s.Counted) (wired : s.Wired) (spans : s.Spans edges) : t.Counted :=
  counted.extend wired.nodup spans gains.nodes gains.outgoing gains.count

theorem adj (spans : s.Spans edges) (v w : Ptr) : t.Adj v w ↔ s.AdjWith edges v w := by
  rw [← appendAll_adj spans, Adj, Adj, gains.nodes.mem_iff, gains.outgoing, appendAll_outgoing, appendAll_nodes]

theorem adjWith (spans : s.Spans edges) (v w : Ptr) : t.AdjWith more v w ↔ s.AdjWith (edges ++ more) v w := by
  rw [AdjWith, gains.adj spans, AdjWith, AdjWith, List.mem_append, or_assoc]

end Store.Gains

namespace Store

variable {s : Store Ptr} {edges : List (Edge Ptr)} {sort : StdSort (Edge Ptr)}

theorem Sorted.moved_gains (sorted : s.Sorted) (spans : s.Spans edges) {moves : EdgeQueue Ptr}
    (movable : Movable moves s.dag.nodes) : s.Gains edges ((appendAll edges s).moved moves) where
  nodes := moved_perm (sorted.appendAll_placed spans) movable
  outgoing := appendAll_outgoing
  incoming := appendAll_incoming
  count := rfl

/-- Both ends of `insert_edges` leave the edges in the graph. -/
theorem insertEdges_gains (sorted : s.Sorted) (spans : s.Spans edges) (sort : StdSort (Edge Ptr)) :
    ∃ t, (insertEdges sort edges s = .ok () t ∨ insertEdges sort edges s = .error cycleDetected t) ∧
      s.Gains edges t := by
  have placed := sorted.appendAll_placed spans
  obtain ⟨_, moves, returned, accepted⟩ | ⟨_, _, moves, threw, rejected⟩ := insertEdges_cases sorted spans sort
  · exact ⟨_, .inl returned, sorted.moved_gains spans (accepted.movable placed)⟩
  · exact ⟨_, .inr threw, sorted.moved_gains spans (rejected.movable placed)⟩

/-- Both ends of Kahn's algorithm leave the edges as they are; a refusal leaves the nodes in place. -/
theorem setToTopologicalOrder_gains (wired : s.Wired) (counted : s.Counted) {fuel : ℕ}
    (enough : s.dag.nodes.length < fuel) :
    ∃ t, (setToTopologicalOrder fuel s = .ok () t ∨ setToTopologicalOrder fuel s = .error notADag t) ∧
      s.Gains [] t := by
  obtain ⟨_, t, returned, _, perm, count, same⟩ | ⟨_, t, threw⟩ :=
    setToTopologicalOrder_cases wired counted enough
  · exact ⟨t, .inl returned, .nil perm count (fun v => (same v).1) fun v => (same v).2⟩
  · refine ⟨t, .inr threw, ?_⟩
    obtain ⟨k, taken, rounds, taking, _⟩ := kahn_stops wired enough
    have heap := taking.visiting.heap
    simp only [setToTopologicalOrder, rounds] at threw
    split_ifs at threw with refused
    obtain ⟨_, rfl⟩ := EStateM.Result.error.inj threw
    exact .nil (.refl _) rfl (fun v => by rw [heap]; rfl) fun v => by rw [heap]; rfl

end Store

namespace Call

variable {s : Store Ptr} {sort : StdSort (Edge Ptr)} {call : Call Ptr}

/-- What the caller has to see to. -/
def Allowed (s : Store Ptr) : Call Ptr → Prop
  | .insertEdges edges => s.Spans edges ∧ graphIsInTopologicalOrder s.heap s.dag = true
  | .appendAll edges => s.Spans edges
  | .setToTopologicalOrder => True
  | .shuffleGraph _ => True

/-- The exceptions of a call. -/
def Throws (e : Fault) : Call Ptr → Prop
  | .insertEdges _ => e = cycleDetected
  | .setToTopologicalOrder => e = Store.notADag
  | .appendAll _ => False
  | .shuffleGraph _ => False

/-- The calls that repair the order. -/
def Repairs : Call Ptr → Prop
  | .insertEdges _ => True
  | .setToTopologicalOrder => True
  | .appendAll _ => False
  | .shuffleGraph _ => False

omit [DecidableEq Ptr] in
theorem Throws.ended {e : Fault} (throws : call.Throws e) : ended (.error e) = true := by
  cases call with
  | insertEdges edges => exact throws ▸ rfl
  | appendAll edges => exact throws.elim
  | setToTopologicalOrder => exact throws ▸ rfl
  | shuffleGraph shuffle => exact throws.elim

omit [DecidableEq Ptr] in
theorem Allowed.spans (allowed : call.Allowed s) : s.Spans call.edges := by
  cases call with
  | insertEdges edges => exact allowed.1
  | appendAll edges => exact allowed
  | setToTopologicalOrder => exact fun e member => absurd member List.not_mem_nil
  | shuffleGraph shuffle => exact fun e member => absurd member List.not_mem_nil

theorem gains_of_ends {e : Fault} (throws : call.Throws e) {t : Store Ptr}
    (ended : call.perform sort s = .ok () t ∨ call.perform sort s = .error e t) (gains : s.Gains call.edges t) :
    ((∃ t, call.perform sort s = .ok () t) ∨ ∃ e t, call.Throws e ∧ call.perform sort s = .error e t) ∧
      s.Gains call.edges (call.after sort s) := by
  rw [after]
  obtain returned | threw := ended
  · rw [returned]
    exact ⟨.inl ⟨t, rfl⟩, gains⟩
  · rw [threw]
    exact ⟨.inr ⟨e, t, throws, rfl⟩, gains⟩

/-- A call returns or throws its exception, and leaves its edges in the graph. -/
theorem perform_gains (wired : s.Wired) (counted : s.Counted) (allowed : call.Allowed s)
    (sort : StdSort (Edge Ptr)) :
    ((∃ t, call.perform sort s = .ok () t) ∨ ∃ e t, call.Throws e ∧ call.perform sort s = .error e t) ∧
      s.Gains call.edges (call.after sort s) := by
  cases call with
  | insertEdges edges =>
    obtain ⟨t, ended, gains⟩ := Store.insertEdges_gains ⟨allowed.2, wired⟩ allowed.1 sort
    exact gains_of_ends rfl ended gains
  | appendAll edges => exact ⟨.inl ⟨_, rfl⟩, .appendAll s edges⟩
  | setToTopologicalOrder =>
    obtain ⟨t, ended, gains⟩ :=
      Store.setToTopologicalOrder_gains wired counted (Nat.lt_succ_self s.dag.nodes.length)
    exact gains_of_ends rfl ended gains
  | shuffleGraph shuffle =>
    exact ⟨.inl ⟨_, rfl⟩, .nil (shuffle.perm s.dag.nodes) rfl (fun _ => rfl) fun _ => rfl⟩

/-- As long as the edges stay acyclic, calls return, and those that repair the order leave it sorted. -/
theorem perform_acyclic (wired : s.Wired) (counted : s.Counted) (allowed : call.Allowed s)
    (acyclic : Acyclic (s.AdjWith call.edges)) (sort : StdSort (Edge Ptr)) :
    ∃ t, call.perform sort s = .ok () t ∧ (call.Repairs → graphIsInTopologicalOrder t.heap t.dag = true) := by
  cases call with
  | insertEdges edges =>
    obtain ⟨t, returned, sorted, _⟩ := Store.insertEdges_of_acyclic ⟨allowed.2, wired⟩ allowed.1 acyclic sort
    exact ⟨t, returned, fun _ => sorted.inOrder⟩
  | appendAll edges => exact ⟨_, rfl, False.elim⟩
  | setToTopologicalOrder =>
    obtain ⟨_, t, returned, sorted, _⟩ | ⟨cyclic, _⟩ :=
      Store.setToTopologicalOrder_cases wired counted (Nat.lt_succ_self s.dag.nodes.length)
    · exact ⟨t, returned, fun _ => sorted.inOrder⟩
    · exact absurd (acyclic.mono fun u v edge => .inl edge) cyclic
  | shuffleGraph shuffle => exact ⟨_, rfl, False.elim⟩

end Call

/-- A caller's run from a graph: allowed calls, some of which may have thrown. -/
inductive Session (sort : StdSort (Edge Ptr)) (start : Store Ptr) : List (Call Ptr) → Store Ptr → Prop
  | start : Session sort start [] start
  | call {calls : List (Call Ptr)} {s : Store Ptr} {call : Call Ptr} :
    Session sort start calls s → call.Allowed s → Session sort start (calls ++ [call]) (call.after sort s)

/-- The edges of all calls, in the order of the calls. -/
abbrev allEdges (calls : List (Call Ptr)) : List (Edge Ptr) := calls.flatMap Call.edges

namespace Session

variable {sort : StdSort (Edge Ptr)} {start s : Store Ptr} {calls : List (Call Ptr)} {call : Call Ptr}

omit [DecidableEq Ptr] in
theorem allEdges_snoc (calls : List (Call Ptr)) (call : Call Ptr) :
    allEdges (calls ++ [call]) = allEdges calls ++ call.edges := by
  simp [allEdges]

/-- What every call keeps. -/
theorem gains (session : Session sort start calls s) (wired : start.Wired) (counted : start.Counted) :
    start.Spans (allEdges calls) ∧ start.Gains (allEdges calls) s := by
  induction session with
  | start => exact ⟨fun e member => absurd member List.not_mem_nil, .nil (.refl _) rfl (fun _ => rfl) fun _ => rfl⟩
  | @call calls s call _ allowed ih =>
    obtain ⟨spans, before⟩ := ih
    have step := call.perform_gains (before.wired wired spans) (before.counted counted wired spans) allowed sort
    rw [allEdges_snoc]
    refine ⟨fun e member => ?_, before.trans step.2⟩
    obtain old | new := List.mem_append.mp member
    · exact spans e old
    · exact before.spans_iff.mp allowed.spans e new

theorem adj_iff (session : Session sort start calls s) (wired : start.Wired) (counted : start.Counted)
    (more : List (Edge Ptr)) (v w : Ptr) : s.AdjWith more v w ↔ start.AdjWith (allEdges calls ++ more) v w := by
  obtain ⟨spans, gains⟩ := session.gains wired counted
  exact gains.adjWith spans v w

theorem acyclic_iff (session : Session sort start calls s) (wired : start.Wired) (counted : start.Counted) :
    Acyclic s.Adj ↔ Acyclic (start.AdjWith (allEdges calls)) := by
  obtain ⟨spans, gains⟩ := session.gains wired counted
  rw [Acyclic, Acyclic, show s.Adj = start.AdjWith (allEdges calls) from
    funext fun v => funext fun w => propext (gains.adj spans v w)]

theorem acyclic_of_check (session : Session sort start calls s) (wired : start.Wired) (counted : start.Counted)
    (check : graphIsInTopologicalOrder s.heap s.dag = true) : Acyclic (start.AdjWith (allEdges calls)) :=
  (session.acyclic_iff wired counted).mp (Store.acyclic_of_inOrder check)

/-- Kahn's algorithm, at any point of a session. -/
theorem sorts_iff (session : Session sort start calls s) (wired : start.Wired) (counted : start.Counted) :
    ((∃ t, Call.setToTopologicalOrder.perform sort s = .ok () t) ↔ Acyclic (start.AdjWith (allEdges calls))) ∧
      (¬ Acyclic (start.AdjWith (allEdges calls)) →
        ∃ t, Call.setToTopologicalOrder.perform sort s = .error Store.notADag t) := by
  obtain ⟨spans, gains⟩ := session.gains wired counted
  rw [← session.acyclic_iff wired counted]
  obtain ⟨acyclic, t, returned, _⟩ | ⟨cyclic, t, threw⟩ := Store.setToTopologicalOrder_cases
    (gains.wired wired spans) (gains.counted counted wired spans) (Nat.lt_succ_self s.dag.nodes.length)
  · exact ⟨⟨fun _ => acyclic, fun _ => ⟨t, returned⟩⟩, fun cyclic => absurd acyclic cyclic⟩
  · refine ⟨⟨fun sorted => ?_, fun acyclic => absurd acyclic cyclic⟩, fun _ => ⟨t, threw⟩⟩
    obtain ⟨u, returned⟩ := sorted
    cases threw.symm.trans returned

/-- The next call, as long as the edges are acyclic. -/
theorem next_acyclic (session : Session sort start calls s) (wired : start.Wired) (counted : start.Counted)
    (allowed : call.Allowed s) (acyclic : Acyclic (start.AdjWith (allEdges (calls ++ [call])))) :
    ∃ t, call.perform sort s = .ok () t ∧ (call.Repairs → graphIsInTopologicalOrder t.heap t.dag = true) := by
  obtain ⟨spans, gains⟩ := session.gains wired counted
  rw [allEdges_snoc] at acyclic
  exact call.perform_acyclic (gains.wired wired spans) (gains.counted counted wired spans) allowed
    (acyclic.mono fun v w => (session.adj_iff wired counted call.edges v w).mp) sort

/-- The check after a call that repairs the order. -/
theorem check_iff (session : Session sort start calls s) (wired : start.Wired) (counted : start.Counted)
    (allowed : call.Allowed s) (repairs : call.Repairs) :
    graphIsInTopologicalOrder (call.after sort s).heap (call.after sort s).dag = true ↔
      Acyclic (start.AdjWith (allEdges (calls ++ [call]))) := by
  constructor
  · intro check
    exact (session.call allowed).acyclic_of_check wired counted check
  · intro acyclic
    obtain ⟨t, returned, check⟩ := session.next_acyclic wired counted allowed acyclic
    rw [Call.after, returned]
    exact check repairs

theorem check_last (session : Session sort start calls s) (wired : start.Wired) (counted : start.Counted)
    (last : calls.getLast? = some call) (repairs : call.Repairs) :
    graphIsInTopologicalOrder s.heap s.dag = true ↔ Acyclic (start.AdjWith (allEdges calls)) := by
  cases session with
  | start => contradiction
  | call before allowed =>
    rw [List.getLast?_concat] at last
    obtain rfl := Option.some.inj last
    exact before.check_iff wired counted allowed repairs

/-- In every session the graph keeps its nodes, holds the edges of all calls behind its own, refused batches
included, stays well formed, and the next call returns or throws the one exception it documents. -/
theorem keeps_graph (session : Session sort start calls s) (wired : start.Wired) (counted : start.Counted) :
    s.dag.nodes.Perm start.dag.nodes ∧
      (∀ v, (s.heap v).outgoingEdges = (start.heap v).outgoingEdges ++ headsFrom (allEdges calls) v) ∧
      (∀ v, (s.heap v).incomingEdges = (start.heap v).incomingEdges ++ tailsTo (allEdges calls) v) ∧
      s.dag.numberOfEdges = start.dag.numberOfEdges + (allEdges calls).length ∧ s.Wired ∧ s.Counted ∧
      ∀ call : Call Ptr, call.Allowed s → (∃ t, call.perform sort s = .ok () t) ∨
        ∃ e t, call.Throws e ∧ call.perform sort s = .error e t := by
  obtain ⟨spans, gains⟩ := session.gains wired counted
  have wiredNow := gains.wired wired spans
  have countedNow := gains.counted counted wired spans
  exact ⟨gains.nodes, gains.outgoing, gains.incoming, gains.count, wiredNow, countedNow,
    fun call allowed => (call.perform_gains wiredNow countedNow allowed sort).1⟩

/-- A batch with a self-loop, refused, on three nodes. -/
theorem refused_session : Session (.insertion _) (Store.edgeless 3) ([] ++ [.insertEdges [(1, 1), (0, 2)]])
    ((Call.insertEdges [(1, 1), (0, 2)]).after (.insertion _) (Store.edgeless 3)) :=
  .call .start ⟨by decide, by decide⟩

theorem keeps_graph_refused :
    ((Call.insertEdges [(1, 1), (0, 2)]).after (.insertion _) (Store.edgeless 3)).dag.numberOfEdges = 2 ∧
      ((Call.insertEdges [(1, 1), (0, 2)]).after (.insertion _) (Store.edgeless 3)).Wired := by
  obtain ⟨_, _, _, count, wired, _⟩ :=
    refused_session.keeps_graph (Store.edgeless_wired 3) (Store.edgeless_counted 3)
  exact ⟨count, wired⟩

/-- At every point of a session: as long as all edges so far are acyclic, no call throws; after a call of
`insert_edges` or `set_to_topological_order`, returned or thrown, the check passes exactly if they are; and
`set_to_topological_order` returns exactly if they are. -/
theorem check_decides (session : Session sort start calls s) (wired : start.Wired) (counted : start.Counted)
    (allowed : call.Allowed s) :
    (Acyclic (start.AdjWith (allEdges (calls ++ [call]))) → ∃ t, call.perform sort s = .ok () t) ∧
      (call.Repairs → (graphIsInTopologicalOrder (call.after sort s).heap (call.after sort s).dag = true ↔
        Acyclic (start.AdjWith (allEdges (calls ++ [call]))))) ∧
      (call = .setToTopologicalOrder → ((∃ t, call.perform sort s = .ok () t) ↔
        Acyclic (start.AdjWith (allEdges (calls ++ [call]))))) := by
  refine ⟨fun acyclic => ?_, session.check_iff wired counted allowed, fun sorts => ?_⟩
  · obtain ⟨t, returned, _⟩ := session.next_acyclic wired counted allowed acyclic
    exact ⟨t, returned⟩
  · subst sorts
    rw [allEdges_snoc, Call.edges, List.append_nil]
    exact (session.sorts_iff wired counted).1

theorem check_decides_reversed :
    graphIsInTopologicalOrder ((Call.insertEdges [(2, 1), (1, 0)]).after (.insertion _) (Store.edgeless 3)).heap
      ((Call.insertEdges [(2, 1), (1, 0)]).after (.insertion _) (Store.edgeless 3)).dag = true := by
  have ranked : Acyclic ((Store.edgeless 3).AdjWith (allEdges ([] ++ [.insertEdges [(2, 1), (1, 0)]]))) :=
    Store.acyclic_of_rank (fun v => 2 - v) (by decide) (by decide)
  have decided := check_decides (.start : Session (.insertion _) (Store.edgeless 3) [] _)
    (Store.edgeless_wired 3) (Store.edgeless_counted 3)
    (show (Call.insertEdges [(2, 1), (1, 0)]).Allowed (Store.edgeless 3) from ⟨by decide, by decide⟩)
  exact (decided.2.1 trivial).mpr ranked

/-- A cycle stays: no call of a session removes it, `insert_edges` is never allowed again, and every call of
`set_to_topological_order` throws. -/
theorem cyclic_forever (session : Session sort start calls s) (wired : start.Wired) (counted : start.Counted)
    (cyclic : ¬ Acyclic start.Adj) :
    graphIsInTopologicalOrder s.heap s.dag = false ∧ (∀ edges, ¬ (Call.insertEdges edges).Allowed s) ∧
      ∃ t, Call.setToTopologicalOrder.perform sort s = .error Store.notADag t := by
  have still : ¬ Acyclic (start.AdjWith (allEdges calls)) := by
    intro acyclic
    exact cyclic (acyclic.mono fun v w edge => .inl edge)
  have fails : ¬ graphIsInTopologicalOrder s.heap s.dag = true := fun check =>
    still (session.acyclic_of_check wired counted check)
  exact ⟨Bool.not_eq_true _ ▸ fails, fun edges allowed => fails allowed.2,
    (session.sorts_iff wired counted).2 still⟩

theorem cyclic_forever_pair :
    ∃ t, Call.setToTopologicalOrder.perform (.insertion _)
      (shuffleGraph ⟨List.reverse, List.reverse_perm⟩ (appendAll [(0, 1), (1, 0)] (Store.edgeless 2))) =
        .error Store.notADag t := by
  have wired : (appendAll [(0, 1), (1, 0)] (Store.edgeless 2)).Wired :=
    (Store.edgeless_wired 2).appendAll (by decide)
  have counted : (appendAll [(0, 1), (1, 0)] (Store.edgeless 2)).Counted :=
    (Store.edgeless_counted 2).appendAll (Store.edgeless_wired 2) (by decide)
  have session : Session (.insertion _) (appendAll [(0, 1), (1, 0)] (Store.edgeless 2))
      ([] ++ [.shuffleGraph ⟨List.reverse, List.reverse_perm⟩])
      (shuffleGraph ⟨List.reverse, List.reverse_perm⟩ (appendAll [(0, 1), (1, 0)] (Store.edgeless 2))) :=
    .call .start trivial
  have round : TransGen (appendAll [(0, 1), (1, 0)] (Store.edgeless 2)).Adj 0 0 :=
    .tail (.single (show Store.Adj _ 0 1 from ⟨by decide, by decide⟩)) ⟨by decide, by decide⟩
  exact (session.cyclic_forever wired counted fun acyclic => acyclic 0 round).2.2

/-- Two sessions that add the same edges, in other batches, by other calls and in another order, lead to
graphs that differ in the order of the nodes and of the adjacency lists only: a sort from scratch returns
on both or on none, and if each session ends by repairing the order, both graphs pass the check or none. -/
theorem confluent {sort' : StdSort (Edge Ptr)} {t : Store Ptr} {calls' : List (Call Ptr)}
    (first : Session sort start calls s) (second : Session sort' start calls' t) (wired : start.Wired)
    (counted : start.Counted) (same : (allEdges calls).Perm (allEdges calls')) :
    t.dag.nodes.Perm s.dag.nodes ∧ t.dag.numberOfEdges = s.dag.numberOfEdges ∧
      (∀ v, (t.heap v).outgoingEdges.Perm (s.heap v).outgoingEdges ∧
        (t.heap v).incomingEdges.Perm (s.heap v).incomingEdges) ∧
      ((∃ u, Call.setToTopologicalOrder.perform sort s = .ok () u) ↔
        ∃ u, Call.setToTopologicalOrder.perform sort' t = .ok () u) ∧
      ∀ last last' : Call Ptr, calls.getLast? = some last → calls'.getLast? = some last' → last.Repairs →
        last'.Repairs → graphIsInTopologicalOrder t.heap t.dag = graphIsInTopologicalOrder s.heap s.dag := by
  obtain ⟨_, gains⟩ := first.gains wired counted
  obtain ⟨_, gains'⟩ := second.gains wired counted
  have edges : start.AdjWith (allEdges calls) = start.AdjWith (allEdges calls') := by
    funext v w
    rw [Store.AdjWith, Store.AdjWith, same.mem_iff]
  refine ⟨gains'.nodes.trans gains.nodes.symm, ?_, fun v => ⟨?_, ?_⟩, ?_, fun last last' ends ends' => ?_⟩
  · rw [gains.count, gains'.count, same.length_eq]
  · rw [gains.outgoing, gains'.outgoing]
    exact ((same.symm.filter _).map _).append_left _
  · rw [gains.incoming, gains'.incoming]
    exact ((same.symm.filter _).map _).append_left _
  · rw [(first.sorts_iff wired counted).1, (second.sorts_iff wired counted).1, edges]
  · intro repairs repairs'
    rw [Bool.eq_iff_iff, first.check_last wired counted ends repairs, second.check_last wired counted ends' repairs',
      edges]

theorem confluent_two :
    let bulk : List (Edge ℕ) := [(0, 2), (1, 1)]
    (appendAll bulk (Store.edgeless 3)).dag.nodes.Perm
      ((Call.insertEdges [(1, 1), (0, 2)]).after (.insertion _) (Store.edgeless 3)).dag.nodes := by
  intro bulk
  have second : Session (.insertion _) (Store.edgeless 3) ([] ++ [.appendAll bulk])
      (appendAll bulk (Store.edgeless 3)) := .call .start (show Store.Spans _ _ by decide)
  exact (refused_session.confluent second (Store.edgeless_wired 3) (Store.edgeless_counted 3) (by decide)).1

end Session

end DynamicDag
