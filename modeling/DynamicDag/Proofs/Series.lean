import DynamicDag.Proofs.Reproducible

/-! # The whole evaluation

Every run of the evaluation allocates its nodes behind those of the earlier runs and leaves all other
memory alone. So the graph of a run is at the end of the evaluation what its run made of it. What it is
made of depends on the parameters and the seed only, up to addresses and the order of the nodes: the two
series measure their algorithms on the same graphs and the same new edges.
-/

namespace DynamicDag

open CheckedAccess Procedures

variable {Ptr : Type} [DecidableEq Ptr]

section Agree

variable {s : Store Ptr} {heap : Heap Ptr} (agree : ∀ v ∈ s.dag.nodes, heap v = s.heap v)

include agree

theorem Store.Wired.of_agree (wired : s.Wired) : (⟨heap, s.dag⟩ : Store Ptr).Wired where
  nodup := wired.nodup
  outgoing u member v edge := wired.outgoing u member v (by rwa [← agree u member])
  incoming v member u edge := wired.incoming v member u (by rwa [← agree v member])
  mirrored u left v right := by
    simp only [agree u left, agree v right]
    exact wired.mirrored u left v right

/-- Being sorted only depends on the nodes of the graph. -/
theorem Store.Sorted.of_agree (sorted : s.Sorted) : (⟨heap, s.dag⟩ : Store Ptr).Sorted := by
  have wired : (⟨heap, s.dag⟩ : Store Ptr).Wired := sorted.wired.of_agree agree
  have index : ∀ v ∈ s.dag.nodes, heap.index v = s.heap.index v := by
    intro v member
    simp only [Heap.index, agree v member]
  refine ⟨wired.inOrder (fun i bound => ?_) fun v member w edge => ?_, wired⟩
  · exact (index _ (List.getElem_mem bound)).trans (sorted.numbered i bound)
  · have edge' : w ∈ s.heap.succ v := by
      simp only [Heap.succ, agree v member] at edge
      exact edge
    rw [index v member, index w (sorted.wired.outgoing v member w edge')]
    exact sorted.ascends member edge'

omit [DecidableEq Ptr] in
theorem Store.Counted.of_agree (counted : s.Counted) : (⟨heap, s.dag⟩ : Store Ptr).Counted := by
  refine counted.trans ?_
  congr 2
  exact List.map_congr_left fun u member => by simp only [agree u member]

theorem Store.Finished.of_agree {testSet : Store Ptr × List (Edge Ptr)} {nodes : List Ptr} {count : ℤ}
    (finished : s.Finished testSet nodes count) (sorted : s.Sorted) :
    (⟨heap, s.dag⟩ : Store Ptr).Finished testSet nodes count where
  nodes := finished.nodes
  inOrder := (sorted.of_agree agree).inOrder
  outgoing v member := by
    simp only [agree v member]
    exact finished.outgoing v member
  incoming v member := by
    simp only [agree v member]
    exact finished.incoming v member
  count := finished.count
  counted := finished.counted.of_agree agree
  loopFree v member := by
    simp only [agree v member]
    exact finished.loopFree v member
  simple v member := by
    simp only [agree v member]
    exact finished.simple v member

end Agree

section Lists

variable {P : Type} [DecidableEq P] (address : P ↪ Ptr) (edges : List (Edge P)) (v : P)

theorem headsFrom_copy : headsFrom (edges.map (copyEdge address)) (address v) = (headsFrom edges v).map address := by
  simp only [headsFrom, List.filter_map, List.map_map, Function.comp_def, copyEdge, address.injective.eq_iff]

theorem tailsTo_copy : tailsTo (edges.map (copyEdge address)) (address v) = (tailsTo edges v).map address := by
  simp only [tailsTo, List.filter_map, List.map_map, Function.comp_def, copyEdge, address.injective.eq_iff]

end Lists

/-- Two graphs in one memory that differ in the addresses and the order of their nodes only. -/
structure SameGraph (heap : Heap Ptr) (g h : Graph Ptr) (rename : Ptr → Ptr) : Prop where
  injective : Set.InjOn rename {v | v ∈ g.nodes}
  nodes : h.nodes.Perm (g.nodes.map rename)
  outgoing : ∀ v ∈ g.nodes, (heap (rename v)).outgoingEdges = (heap v).outgoingEdges.map rename
  incoming : ∀ v ∈ g.nodes, (heap (rename v)).incomingEdges = (heap v).incomingEdges.map rename
  count : h.numberOfEdges = g.numberOfEdges

/-- The parameters of a run and what its seed makes of the engine. -/
structure Run (Ptr : Type) where
  params : TestSetParams
  seeded : Seeded Ptr

namespace Run

/-- The parameters pass the checks of the generator, the engine stays in range, and its loops end. -/
structure Ready (alloc : ℕ ↪ Ptr) (heap : Heap Ptr) (run : Run Ptr) : Prop where
  atLeast : 2 ≤ run.params.numberOfNodes
  nonneg : 0 ≤ run.params.numberOfEdges
  room : run.params.numberOfEdges ≤ run.params.numberOfNodes / 2 * (run.params.numberOfNodes - 1)
  batch : 0 ≤ run.params.batchSize
  inRange : ∀ d ∈ run.seeded.draws, 0 ≤ d ∧ d ≤ run.params.numberOfNodes - 1
  positional : run.seeded.shuffle.Positional
  enough : generateTestSet alloc heap run.seeded.draws run.seeded.shuffle (run.params.numberOfNodes.toNat + 1)
    run.params.numberOfNodes run.params.numberOfEdges run.params.batchSize ≠ .error .outOfDraws

variable {run : Run Ptr} {alloc : ℕ ↪ Ptr} {heap : Heap Ptr} {sort : StdSort (Edge Ptr)}

/-- What `generate_test_set` makes of the seed, behind some of the allocations. -/
def Generates (alloc : ℕ ↪ Ptr) (run : Run Ptr) (testSet : Store Ptr × List (Edge Ptr)) : Prop :=
  ∃ (used : ℕ) (memory : Heap Ptr),
    generateTestSet (allocFrom alloc used) memory run.seeded.draws run.seeded.shuffle
      (run.params.numberOfNodes.toNat + 1) run.params.numberOfNodes run.params.numberOfEdges
      run.params.batchSize = .ok testSet

/-- Where the nodes of the run are. -/
abbrev address (run : Run Ptr) (alloc : ℕ ↪ Ptr) : Fin run.params.numberOfNodes.toNat ↪ Ptr :=
  addressOf alloc run.params.numberOfNodes.toNat

theorem Ready.accepted (ready : run.Ready alloc heap) (other : ℕ ↪ Ptr) (memory : Heap Ptr) (what : String) :
    generateGraph other memory run.seeded.draws run.params.numberOfNodes run.params.numberOfEdges true ≠
      .error (.invalidArgument what) := by
  intro refused
  have checks := (Store.generateGraph_refused_iff run.seeded.draws true).mp ⟨what, refused⟩
  have atLeast := ready.atLeast
  have nonneg := ready.nonneg
  have room := ready.room
  obtain few | negative | ⟨_, many⟩ | ⟨general, _⟩ := checks
  · omega
  · omega
  · omega
  · exact general rfl

/-- One test set over the numbers of the allocations stands behind all runs. -/
theorem Ready.testSet (ready : run.Ready alloc heap) :
    ∃ (s : Store (Fin run.params.numberOfNodes.toNat)) (extra : List (Edge (Fin run.params.numberOfNodes.toNat))),
      ∀ (other : ℕ ↪ Ptr) (memory : Heap Ptr),
        generateTestSet other memory run.seeded.draws run.seeded.shuffle (run.params.numberOfNodes.toNat + 1)
            run.params.numberOfNodes run.params.numberOfEdges run.params.batchSize =
          .ok (copyTestSet (run.address other) memory (s, extra)) ∧
        (s.copy (run.address other) memory).TestSet (extra.map (copyEdge (run.address other))) ∧
        (s.copy (run.address other) memory).dag.nodes.Perm
          ((List.range run.params.numberOfNodes.toNat).map other) ∧
        s.dag.numberOfEdges + extra.length = run.params.numberOfEdges + run.params.batchSize := by
  obtain ⟨outcome, copies⟩ := generateTestSet_copies ready.positional run.seeded.draws
    (run.params.numberOfNodes.toNat + 1) run.params.numberOfNodes run.params.numberOfEdges run.params.batchSize
  have fuel : run.params.numberOfNodes < (run.params.numberOfNodes.toNat + 1 : ℕ) := by omega
  have longEnough : ∀ (other : ℕ ↪ Ptr) (memory : Heap Ptr),
      generateTestSet other memory run.seeded.draws run.seeded.shuffle (run.params.numberOfNodes.toNat + 1)
        run.params.numberOfNodes run.params.numberOfEdges run.params.batchSize ≠ .error .outOfDraws := by
    intro other memory
    have enough := ready.enough
    rw [copies] at enough ⊢
    cases outcome with
    | ok testSet => simp [Except.map]
    | error e => exact enough
  have served := fun (other : ℕ ↪ Ptr) (memory : Heap Ptr) =>
    Store.generateTestSet_ok ready.inRange ready.batch (ready.accepted other memory)
      (longEnough other memory) fuel
  cases outcome with
  | error e =>
    obtain ⟨t, extra, returned, _⟩ := served alloc heap
    rw [copies] at returned
    cases returned
  | ok testSet =>
    refine ⟨testSet.1, testSet.2, fun other memory => ?_⟩
    obtain ⟨t, extra, returned, testable, perm, count, _⟩ := served other memory
    have same := (copies other memory).symm.trans returned
    obtain ⟨rfl, rfl⟩ := Prod.mk.inj (Except.ok.inj same)
    refine ⟨copies other memory, testable, perm, ?_⟩
    rwa [List.length_map] at count

/-- A run returns, with the sorted graph of its test set, whose adjacency lists depend on the seed alone, and
with all other memory as it was. -/
theorem Ready.returns (ready : run.Ready alloc heap) (comparing : sort.Comparing) :
    ∃ out inc : Fin run.params.numberOfNodes.toNat → List (Fin run.params.numberOfNodes.toNat),
      ∀ (other : ℕ ↪ Ptr) (memory : Heap Ptr) (pk2 : Bool), ∃ testSet t,
        generateTestSet other memory run.seeded.draws run.seeded.shuffle (run.params.numberOfNodes.toNat + 1)
          run.params.numberOfNodes run.params.numberOfEdges run.params.batchSize = .ok testSet ∧
        generateAndRun sort other memory run.seeded run.params pk2 = .ok t ∧ t.Sorted ∧
        t.dag.nodes.Perm ((List.range run.params.numberOfNodes.toNat).map other) ∧
        t.Finished testSet testSet.1.dag.nodes (run.params.numberOfEdges + run.params.batchSize) ∧
        (∀ v, (t.heap (run.address other v)).outgoingEdges = (out v).map (run.address other) ∧
          (t.heap (run.address other v)).incomingEdges = (inc v).map (run.address other)) ∧
        ∀ q, q ∉ Set.range (run.address other) → t.heap q = memory q := by
  obtain ⟨s, extra, testSets⟩ := ready.testSet
  refine ⟨fun v => (s.heap v).outgoingEdges ++ headsFrom extra v,
    fun v => (s.heap v).incomingEdges ++ tailsTo extra v, fun other memory pk2 => ?_⟩
  obtain ⟨generated, testSet, perm, count⟩ := testSets other memory
  obtain ⟨outcome, copies⟩ := generateAndRun_copies comparing ready.positional run.params pk2
  -- both algorithms end with the same adjacency lists
  have ran : ∃ t, generateAndRun sort other memory run.seeded run.params pk2 = .ok t ∧ t.Sorted ∧
      t.dag.nodes.Perm (s.copy (run.address other) memory).dag.nodes ∧
      (∀ v, (t.heap v).outgoingEdges = ((s.copy (run.address other) memory).heap v).outgoingEdges ++
        headsFrom (extra.map (copyEdge (run.address other))) v) ∧
      (∀ v, (t.heap v).incomingEdges = ((s.copy (run.address other) memory).heap v).incomingEdges ++
        tailsTo (extra.map (copyEdge (run.address other))) v) ∧
      t.dag.numberOfEdges = s.dag.numberOfEdges + (extra.map (copyEdge (run.address other))).length := by
    cases pk2 with
    | true =>
      obtain ⟨t, returned, result⟩ :=
        Store.insertEdges_of_acyclic testSet.sorted testSet.spans testSet.acyclic sort
      refine ⟨t, ?_, result⟩
      simp only [generateAndRun, generated, bind, Except.bind, copyTestSet, if_true, runTestPk2, returned]
    | false =>
      have wired := testSet.sorted.wired.appendAll testSet.spans
      have counted := testSet.counted.appendAll testSet.sorted.wired testSet.spans
      have enough : (s.copy (run.address other) memory).dag.nodes.length <
          run.params.numberOfNodes.toNat + 1 := by
        rw [perm.length_eq, List.length_map, List.length_range]
        omega
      obtain ⟨_, t, returned, sorted, permAgain, total, same⟩ | ⟨cyclic, _⟩ :=
        Store.setToTopologicalOrder_cases wired counted enough
      · refine ⟨t, ?_, sorted, permAgain, fun v => (same v).1.trans (Store.appendAll_outgoing v),
          fun v => (same v).2.trans (Store.appendAll_incoming v), total⟩
        simp only [generateAndRun, generated, bind, Except.bind, copyTestSet, runTestKahn, returned]
        rfl
      · exact absurd (testSet.acyclic.mono fun u v => (Store.appendAll_adj testSet.spans u v).mp) cyclic
  obtain ⟨t, returned, sorted, permAgain, outgoing, incoming, total⟩ := ran
  have finished := testSet.finished sorted permAgain outgoing incoming total
  have all : t.dag.numberOfEdges = run.params.numberOfEdges + run.params.batchSize := by
    rw [total, List.length_map, count]
  refine ⟨_, t, generated, returned, sorted, permAgain.trans perm, { finished with count := all },
    fun v => ⟨?_, ?_⟩, fun q outside => ?_⟩
  · rw [outgoing, headsFrom_copy, List.map_append]
    exact congrArg (fun node : Node Ptr => node.outgoingEdges ++ _) (Heap.copy_address _ _ s.heap v)
  · rw [incoming, tailsTo_copy, List.map_append]
    exact congrArg (fun node : Node Ptr => node.incomingEdges ++ _) (Heap.copy_address _ _ s.heap v)
  · rw [copies] at returned
    cases outcome with
    | error e => cases returned
    | ok original =>
      obtain rfl := Except.ok.inj returned
      exact Heap.copy_elsewhere _ _ _ outside

/-- The graph is still as a run with these parameters and this seed left it. -/
def Left (sort : StdSort (Edge Ptr)) (alloc : ℕ ↪ Ptr) (run : Run Ptr) (heap : Heap Ptr)
    (dag : Graph Ptr) : Prop :=
  ∃ (used : ℕ) (memory : Heap Ptr) (pk2 : Bool) (t : Store Ptr),
    generateAndRun sort (allocFrom alloc used) memory run.seeded run.params pk2 = .ok t ∧ t.dag = dag ∧
    ∀ v ∈ dag.nodes, heap v = t.heap v

omit [DecidableEq Ptr] in
theorem mem_nodes {t : Store Ptr}
    (perm : t.dag.nodes.Perm ((List.range run.params.numberOfNodes.toNat).map alloc)) {v : Ptr} :
    v ∈ t.dag.nodes ↔ v ∈ Set.range (run.address alloc) := by
  rw [perm.mem_iff, map_range_alloc]
  simp [address]

theorem Left.of_agree {dag : Graph Ptr} {later : Heap Ptr} (left : run.Left sort alloc heap dag)
    (agree : ∀ v ∈ dag.nodes, later v = heap v) : run.Left sort alloc later dag := by
  obtain ⟨used, memory, pk2, t, returned, same, kept⟩ := left
  exact ⟨used, memory, pk2, t, returned, same, fun v member => (agree v member).trans (kept v member)⟩

theorem Left.result {dag : Graph Ptr} {memory : Heap Ptr} (left : run.Left sort alloc memory dag)
    (ready : run.Ready alloc heap) (comparing : sort.Comparing) :
    (⟨memory, dag⟩ : Store Ptr).Sorted ∧ (dag.nodes.length : ℤ) = run.params.numberOfNodes ∧
      ∃ testSet, run.Generates alloc testSet ∧ (⟨memory, dag⟩ : Store Ptr).Finished testSet testSet.1.dag.nodes
        (run.params.numberOfEdges + run.params.batchSize) := by
  obtain ⟨used, before, pk2, t, returned, rfl, kept⟩ := left
  obtain ⟨_, _, outcomes⟩ := ready.returns comparing
  obtain ⟨testSet, _, generated, again, sorted, perm, finished, _⟩ := outcomes (allocFrom alloc used) before pk2
  obtain rfl := Except.ok.inj (returned.symm.trans again)
  have atLeast := ready.atLeast
  refine ⟨sorted.of_agree kept, ?_, testSet, ⟨used, before, generated⟩, finished.of_agree kept sorted⟩
  rw [perm.length_eq, List.length_map, List.length_range]
  omega

/-- Two runs with the same seed leave the same graph, up to addresses and the order of the nodes. -/
theorem Left.same {g h : Graph Ptr} {memory : Heap Ptr} (first : run.Left sort alloc memory g)
    (second : run.Left sort alloc memory h) (ready : run.Ready alloc heap) (comparing : sort.Comparing) :
    ∃ rename, SameGraph memory g h rename := by
  obtain ⟨used, before, pk2, t, returned, rfl, kept⟩ := first
  obtain ⟨used', before', pk2', t', returned', rfl, kept'⟩ := second
  obtain ⟨out, inc, outcomes⟩ := ready.returns comparing
  obtain ⟨_, _, _, again, _, perm, finished, lists, _⟩ := outcomes (allocFrom alloc used) before pk2
  obtain rfl := Except.ok.inj (returned.symm.trans again)
  obtain ⟨_, _, _, again', _, perm', finished', lists', _⟩ := outcomes (allocFrom alloc used') before' pk2'
  obtain rfl := Except.ok.inj (returned'.symm.trans again')
  obtain ⟨f, here⟩ : ∃ f, f = run.address (allocFrom alloc used) := ⟨_, rfl⟩
  obtain ⟨g, there⟩ : ∃ g, g = run.address (allocFrom alloc used') := ⟨_, rfl⟩
  rw [← here] at lists
  rw [← there] at lists'
  have renamed : ∀ nodes, (List.map f nodes).map (Function.extend f g id) = nodes.map g := by
    intro nodes
    rw [List.map_map, Function.extend_comp f.injective]
  refine ⟨Function.extend f g id, fun v left w right same => ?_, ?_, fun v member => ?_, fun v member => ?_,
    finished'.count.trans finished.count.symm⟩
  · obtain ⟨i, rfl⟩ := (mem_nodes perm).mp left
    obtain ⟨j, rfl⟩ := (mem_nodes perm).mp right
    rw [← here, f.injective.extend_apply, f.injective.extend_apply] at same
    rw [g.injective same]
  · refine perm'.trans (.trans ?_ (perm.map _).symm)
    rw [map_range_alloc, map_range_alloc, ← address, ← address, ← here, ← there, renamed]
  all_goals
    obtain ⟨i, rfl⟩ := (mem_nodes perm).mp member
    rw [← here] at member ⊢
    rw [f.injective.extend_apply, kept _ member, kept' _ ((mem_nodes perm').mpr ⟨i, by rw [there]⟩)]
  · rw [(lists i).1, (lists' i).1, renamed]
  · rw [(lists i).2, (lists' i).2, renamed]

end Run

/-- After the given runs, all on memory that was behind the first `used` allocations. -/
structure Bench.Intact (sort : StdSort (Edge Ptr)) (alloc : ℕ ↪ Ptr) (used : ℕ) (heap : Heap Ptr)
    (runs : List (Run Ptr)) (b : Bench Ptr) : Prop where
  left : List.Forall₂ (fun run dag => run.Left sort alloc b.heap dag) runs b.dags
  allocated : ∀ dag ∈ b.dags, ∀ v ∈ dag.nodes, ∃ i < b.used, alloc i = v
  apart : b.dags.Pairwise fun g h => g.nodes.Disjoint h.nodes
  grown : used ≤ b.used
  elsewhere : ∀ q, (∀ i, used ≤ i → i < b.used → alloc i ≠ q) → b.heap q = heap q

namespace Bench

variable {sort : StdSort (Edge Ptr)} {alloc : ℕ ↪ Ptr} {used : ℕ} {heap : Heap Ptr} {runs : List (Run Ptr)}
  {b : Bench Ptr} {run : Run Ptr} {params : TestSetParams} {pk2 : Bool}

theorem Intact.start (sort : StdSort (Edge Ptr)) (alloc : ℕ ↪ Ptr) (used : ℕ) (heap : Heap Ptr) :
    Intact sort alloc used heap [] ⟨heap, used, []⟩ where
  left := .nil
  allocated _ member := absurd member List.not_mem_nil
  apart := .nil
  grown := le_rfl
  elsewhere _ _ := rfl

/-- One run. -/
theorem Intact.runTest (intact : b.Intact sort alloc used heap runs) (comparing : sort.Comparing)
    (ready : run.Ready alloc heap) (pk2 : Bool) :
    ∃ next, runTest sort alloc run.seeded run.params pk2 b = .ok next ∧
      next.Intact sort alloc used heap (runs ++ [run]) := by
  obtain ⟨_, _, outcomes⟩ := ready.returns comparing
  obtain ⟨_, t, _, returned, _, perm, _, _, frame⟩ := outcomes (allocFrom alloc b.used) b.heap pk2
  have members : ∀ v, v ∈ t.dag.nodes ↔ ∃ i < run.params.numberOfNodes.toNat, alloc (b.used + i) = v := by
    intro v
    rw [perm.mem_iff, List.mem_map]
    simp only [List.mem_range]
    rfl
  have behind : ∀ v ∈ t.dag.nodes, ∀ i < b.used, alloc i ≠ v := by
    intro v member i early same
    obtain ⟨j, _, rfl⟩ := (members v).mp member
    have := alloc.injective same
    omega
  have kept : ∀ v, v ∉ t.dag.nodes → t.heap v = b.heap v := by
    intro v outside
    apply frame
    rwa [← Run.mem_nodes perm]
  refine ⟨_, by simp only [DynamicDag.runTest, returned, bind, Except.bind]; rfl, ?_, ?_, ?_, ?_, ?_⟩
  · apply List.rel_append
    · refine List.forall₂_iff_zip.mpr ⟨intact.left.length_eq, fun listed => ?_⟩
      apply (List.forall₂_zip intact.left listed).of_agree
      intro v inside
      apply kept
      intro new
      obtain ⟨i, early, same⟩ := intact.allocated _ (List.of_mem_zip listed).2 v inside
      exact behind v new i early same
    · exact .cons ⟨b.used, b.heap, pk2, t, returned, rfl, fun _ _ => rfl⟩ .nil
  · intro dag member v inside
    obtain earlier | rfl := List.mem_append.mp member |>.imp_right List.mem_singleton.mp
    · obtain ⟨i, early, same⟩ := intact.allocated dag earlier v inside
      exact ⟨i, early.trans_le (Nat.le_add_right _ _), same⟩
    · obtain ⟨i, early, same⟩ := (members v).mp inside
      exact ⟨b.used + i, Nat.add_lt_add_left early _, same⟩
  · apply List.pairwise_append.mpr
    refine ⟨intact.apart, List.pairwise_singleton _ _, fun g member h last v left right => ?_⟩
    obtain rfl := List.mem_singleton.mp last
    obtain ⟨i, early, same⟩ := intact.allocated g member v left
    exact behind v right i early same
  · exact intact.grown.trans (Nat.le_add_right _ _)
  · intro q outside
    have old : b.heap q = heap q := intact.elsewhere q fun i behind early =>
      outside i behind (early.trans_le (Nat.le_add_right _ _))
    refine (kept q fun inside => ?_).trans old
    obtain ⟨i, early, same⟩ := (members q).mp inside
    exact outside (b.used + i) (intact.grown.trans (Nat.le_add_right _ _)) (Nat.add_lt_add_left early _) same

/-- The runs of a row. -/
def runsOf (engine : ℤ → Seeded Ptr) (params : TestSetParams) (count : ℕ) (startSeed : ℤ) : List (Run Ptr) :=
  (List.range count).map fun i : ℕ => ⟨params, engine (startSeed + i)⟩

omit [DecidableEq Ptr] in
theorem runsOf_succ (engine : ℤ → Seeded Ptr) (params : TestSetParams) (count : ℕ) (startSeed : ℤ) :
    runsOf engine params (count + 1) startSeed =
      ⟨params, engine startSeed⟩ :: runsOf engine params count (startSeed + 1) := by
  have first : startSeed + (0 : ℕ) = startSeed := by omega
  have later : ∀ i : ℕ, startSeed + (i.succ : ℕ) = startSeed + 1 + i := fun i => by omega
  simp only [runsOf, List.range_succ_eq_map, List.map_cons, List.map_map, Function.comp_def, first, later]

/-- A row. -/
theorem Intact.runTestRepeated (comparing : sort.Comparing) {engine : ℤ → Seeded Ptr} (pk2 : Bool) (count : ℕ)
    (startSeed : ℤ) {runs : List (Run Ptr)} {b : Bench Ptr} (intact : b.Intact sort alloc used heap runs)
    (ready : ∀ run ∈ runsOf engine params count startSeed, run.Ready alloc heap) :
    ∃ last, runTestRepeated sort alloc engine params pk2 count startSeed b = .ok last ∧
      last.Intact sort alloc used heap (runs ++ runsOf engine params count startSeed) := by
  induction count generalizing startSeed runs b with
  | zero => exact ⟨b, rfl, by simpa [runsOf] using intact⟩
  | succ count ih =>
    rw [runsOf_succ] at ready ⊢
    obtain ⟨next, returned, intactNext⟩ := intact.runTest comparing (ready _ List.mem_cons_self) pk2
    obtain ⟨last, repeated, intactLast⟩ := ih (startSeed + 1) intactNext
      fun run member => ready run (List.mem_cons_of_mem _ member)
    refine ⟨last, ?_, by rwa [List.append_assoc] at intactLast⟩
    rw [DynamicDag.runTestRepeated, returned]
    exact repeated

/-- The runs of all rows, in the order in which they are run. -/
def allRuns (engine : TestSetParams → ℤ → Seeded Ptr) (testParams : List TestSetParams) (seed : ℤ) :
    List (Run Ptr) :=
  testParams.flatMap fun params => runsOf (engine params) params params.numOfRuns seed

/-- All rows. -/
theorem Intact.runFullTests (comparing : sort.Comparing) {engine : TestSetParams → ℤ → Seeded Ptr} {seed : ℤ}
    (pk2 : Bool) {testParams : List TestSetParams} {runs : List (Run Ptr)} {b : Bench Ptr}
    (intact : b.Intact sort alloc used heap runs)
    (ready : ∀ run ∈ allRuns engine testParams seed, run.Ready alloc heap) :
    ∃ last, runFullTests sort alloc engine testParams seed pk2 b = .ok last ∧
      last.Intact sort alloc used heap (runs ++ allRuns engine testParams seed) := by
  induction testParams generalizing runs b with
  | nil => exact ⟨b, rfl, by simpa [allRuns] using intact⟩
  | cons params rest ih =>
    have split : allRuns engine (params :: rest) seed =
        runsOf (engine params) params params.numOfRuns seed ++ allRuns engine rest seed := List.flatMap_cons
    rw [split] at ready ⊢
    obtain ⟨next, returned, intactNext⟩ := intact.runTestRepeated comparing pk2 params.numOfRuns seed
      fun run member => ready run (List.mem_append_left _ member)
    obtain ⟨last, repeated, intactLast⟩ := ih intactNext
      fun run member => ready run (List.mem_append_right _ member)
    refine ⟨last, ?_, by rwa [List.append_assoc] at intactLast⟩
    rw [DynamicDag.runFullTests, List.foldlM_cons, returned]
    exact repeated

/-- Both series. -/
theorem exists_evaluation (comparing : sort.Comparing) {engine : TestSetParams → ℤ → Seeded Ptr} {seed : ℤ}
    {testParams : List TestSetParams} (used : ℕ)
    (ready : ∀ run ∈ allRuns engine testParams seed, run.Ready alloc heap) :
    ∃ last, evaluationTests sort alloc engine testParams seed ⟨heap, used, []⟩ = .ok last ∧
      last.Intact sort alloc used heap (allRuns engine testParams seed ++ allRuns engine testParams seed) := by
  obtain ⟨middle, first, intactMiddle⟩ := (Intact.start sort alloc used heap).runFullTests comparing true ready
  obtain ⟨last, second, intactLast⟩ := intactMiddle.runFullTests comparing false ready
  exact ⟨last, by rw [evaluationTests, first]; exact second, intactLast⟩

end Bench

theorem forall₂_of_common {α β γ : Type} {r : α → β → Prop} {q : α → γ → Prop} {p : β → γ → Prop}
    {xs : List α} {ys : List β} {zs : List γ} (left : List.Forall₂ r xs ys) (right : List.Forall₂ q xs zs)
    (joins : ∀ x ∈ xs, ∀ y z, r x y → q x z → p y z) : List.Forall₂ p ys zs := by
  induction left generalizing zs with
  | nil =>
    cases right
    exact .nil
  | cons head _ ih =>
    cases right with
    | cons head' tail' =>
      exact .cons (joins _ List.mem_cons_self _ _ head head')
        (ih tail' fun x member => joins x (List.mem_cons_of_mem _ member))

section Evaluation

variable {sort : StdSort (Edge Ptr)} (comparing : sort.Comparing) {alloc : ℕ ↪ Ptr} {heap : Heap Ptr}
  {engine : TestSetParams → ℤ → Seeded Ptr} {seed : ℤ} {testParams : List TestSetParams}
  (ready : ∀ params ∈ testParams, ∀ i < params.numOfRuns,
    Run.Ready alloc heap ⟨params, engine params (seed + i)⟩)

omit [DecidableEq Ptr] in
theorem length_allRuns : (Bench.allRuns engine testParams seed).length =
    (testParams.map TestSetParams.numOfRuns).sum := by
  simp [Bench.allRuns, Bench.runsOf, List.length_flatMap]

include ready

theorem ready_allRuns : ∀ run ∈ Bench.allRuns engine testParams seed, run.Ready alloc heap := by
  intro run member
  obtain ⟨params, row, listed⟩ := List.mem_flatMap.mp member
  obtain ⟨i, early, rfl⟩ := List.mem_map.mp listed
  exact ready params row i (List.mem_range.mp early)

include comparing

/-- Both series work on the same problems: the graphs that PK2 leaves and those that Kahn's algorithm
leaves are pairwise the same, up to addresses and the order of the nodes. -/
theorem evaluationTests_fair (used : ℕ) :
    ∃ last pk2 kahn, evaluationTests sort alloc engine testParams seed ⟨heap, used, []⟩ = .ok last ∧
      last.dags = pk2 ++ kahn ∧ pk2.length = (testParams.map TestSetParams.numOfRuns).sum ∧
      List.Forall₂ (fun g h => ∃ rename, SameGraph last.heap g h rename) pk2 kahn := by
  have readyAll := ready_allRuns ready
  obtain ⟨last, returned, intact⟩ := Bench.exists_evaluation comparing used readyAll
  have first := List.forall₂_take (Bench.allRuns engine testParams seed).length intact.left
  have second := List.forall₂_drop (Bench.allRuns engine testParams seed).length intact.left
  rw [List.take_left] at first
  rw [List.drop_left] at second
  refine ⟨last, last.dags.take (Bench.allRuns engine testParams seed).length, last.dags.drop _, returned,
    (List.take_append_drop _ _).symm, ?_, ?_⟩
  · rw [← first.length_eq, length_allRuns]
  · exact forall₂_of_common first second fun run member g h left right =>
      left.same right (readyAll run member) comparing

end Evaluation

/-- A run on three nodes, with draws that let two edges and one new edge pass. -/
theorem ready_three : Run.Ready (.refl ℕ) (fun _ => ⟨[], [], 0⟩)
    ⟨⟨3, 2, 1, 2⟩, ⟨[0, 1, 2, 1, 0, 2], ⟨List.reverse, List.reverse_perm⟩⟩⟩ := by
  obtain ⟨testSet, ended⟩ : ∃ testSet, generateTestSet (.refl ℕ) (fun _ => ⟨[], [], 0⟩)
      [0, 1, 2, 1, 0, 2] ⟨List.reverse, List.reverse_perm⟩ 4 3 2 1 = .ok testSet := ⟨_, rfl⟩
  exact ⟨by decide, by decide, by decide, by decide, by decide, fun f nodes => List.map_reverse.symm,
    fun short => by cases ended.symm.trans short⟩

/-- An engine that gives every run the same draws. -/
def constantEngine : TestSetParams → ℤ → Seeded ℕ := fun _ _ =>
  ⟨[0, 1, 2, 1, 0, 2], ⟨List.reverse, List.reverse_perm⟩⟩

theorem ready_row : ∀ params ∈ [(⟨3, 2, 1, 2⟩ : TestSetParams)], ∀ i < params.numOfRuns,
    Run.Ready (.refl ℕ) (fun _ => ⟨[], [], 0⟩) ⟨params, constantEngine params (5 + i)⟩ := by
  intro params row i _
  obtain rfl := List.mem_singleton.mp row
  exact ready_three

theorem evaluationTests_fair_row :
    ∃ last pk2 kahn, evaluationTests (.insertion _) (.refl ℕ) constantEngine [⟨3, 2, 1, 2⟩] 5
        ⟨fun _ => ⟨[], [], 0⟩, 0, []⟩ = .ok last ∧ last.dags = pk2 ++ kahn ∧
      List.Forall₂ (fun g h => ∃ rename, SameGraph last.heap g h rename) pk2 kahn := by
  obtain ⟨last, pk2, kahn, returned, split, _, same⟩ :=
    evaluationTests_fair StdSort.insertion_comparing ready_row 0
  exact ⟨last, pk2, kahn, returned, split, same⟩

end DynamicDag
