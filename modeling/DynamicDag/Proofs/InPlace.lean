import DynamicDag.Proofs.Discovery

/-! # The shift against its reference

`shift` on a queue described by the vectors of the program: the nodes with a vacant flag are put back
directly after their tails, and everything else closes up. The array is rewritten in place. Since every
access is checked, a round that runs alike on the array cut off after a slot has neither read nor
written behind this slot; so the slots written in a round do not lie above the slot it reads, and the
nodes still to be read are where they were.
-/

namespace DynamicDag

open CheckedAccess Relation Numbering Reinsertion

variable {Ptr : Type} [DecidableEq Ptr] {heap : Heap Ptr} {nodes : List Ptr} {queue : EdgeQueue Ptr}

/-- The state with only the first `k` slots of the array. -/
def Shift.cut (k : ℕ) (s : Shift Ptr) : Shift Ptr := { s with invOrder := s.invOrder.take k }

section Confined

variable {s next : Shift Ptr} {u : Ptr} {k : ℕ}

theorem placeNode_take {h h' : Heap Ptr} {a b : List Ptr} {slot : ℤ}
    (placed : placeNode u slot h a = .ok (h', b)) (inside : slot < k) :
    placeNode u slot h (a.take k) = .ok (h', b.take k) := by
  obtain ⟨c, written, same⟩ := bind_eq_ok.mp placed
  obtain ⟨rfl, rfl⟩ := Prod.mk.inj (Except.ok.inj same)
  exact bind_eq_ok.mpr ⟨_, writeAt_take written inside, rfl⟩

/-- The inner loop counts down, and while the counter is not negative it writes no slot above `i`. -/
theorem placeQueued_take {i : ℤ} (inside : i < k) {rest : EdgeQueue Ptr} {h h' : Heap Ptr} {a b : List Ptr}
    {removed left : ℤ} (placed : placeQueued u i queue removed h a = .ok (rest, left, h', b)) :
    left ≤ removed ∧
      (0 ≤ left → placeQueued u i queue removed h (a.take k) = .ok (rest, left, h', b.take k)) := by
  induction queue generalizing removed h a with
  | nil =>
    simp only [placeQueued, Except.ok.injEq, Prod.mk.injEq] at placed ⊢
    obtain ⟨rfl, rfl, rfl, rfl⟩ := placed
    simp
  | cons m others ih =>
    simp only [placeQueued] at placed ⊢
    split_ifs at placed ⊢ with here
    · obtain ⟨⟨h₁, a₁⟩, first, placed⟩ := bind_eq_ok.mp placed
      obtain ⟨lower, confined⟩ := ih placed
      refine ⟨by omega, fun nonneg => bind_eq_ok.mpr ⟨_, placeNode_take first (by omega), confined nonneg⟩⟩
    · simp only [Except.ok.injEq, Prod.mk.injEq] at placed ⊢
      obtain ⟨rfl, rfl, rfl, rfl⟩ := placed
      simp

theorem moveUp_take (moved : moveUp s = .ok (u, next)) (nonneg : 0 ≤ s.numOfRemovedNodes)
    (inside : s.i < k) : next.i = s.i ∧ moveUp (s.cut k) = .ok (u, next.cut k) := by
  obtain ⟨v, current, moved⟩ := bind_eq_ok.mp moved
  obtain ⟨vacant, flag, moved⟩ := bind_eq_ok.mp moved
  have reads := readAt_take current inside
  cases vacant with
  | true =>
    obtain ⟨flags, cleared, same⟩ := bind_eq_ok.mp moved
    obtain ⟨rfl, rfl⟩ := Prod.mk.inj (Except.ok.inj same)
    exact ⟨rfl, bind_eq_ok.mpr ⟨_, reads, bind_eq_ok.mpr ⟨_, flag, bind_eq_ok.mpr ⟨_, cleared, rfl⟩⟩⟩⟩
  | false =>
    obtain ⟨⟨h, a⟩, placed, same⟩ := bind_eq_ok.mp moved
    obtain ⟨rfl, rfl⟩ := Prod.mk.inj (Except.ok.inj same)
    have confined := placeNode_take (k := k) placed (by omega)
    exact ⟨rfl, bind_eq_ok.mpr ⟨_, reads, bind_eq_ok.mpr ⟨_, flag, bind_eq_ok.mpr ⟨_, confined, rfl⟩⟩⟩⟩

/-- A round whose counter is not negative before and after it uses no slot above the one it reads. -/
theorem shiftRound_cut (moved : shiftRound s = .ok (some next)) (before : 0 ≤ s.numOfRemovedNodes)
    (after : 0 ≤ next.numOfRemovedNodes) (inside : s.i < k) :
    shiftRound (s.cut k) = .ok (some (next.cut k)) := by
  unfold shiftRound at moved ⊢
  rw [show (s.cut k).queue = s.queue from rfl]
  split_ifs at moved ⊢ with waiting
  · simp at moved
  · obtain ⟨⟨u, up⟩, read, moved⟩ := bind_eq_ok.mp moved
    obtain ⟨⟨rest, left, h, a⟩, back, same⟩ := bind_eq_ok.mp moved
    obtain rfl := Option.some.inj (Except.ok.inj same)
    obtain ⟨slot, confined⟩ := moveUp_take read before inside
    have placed := (placeQueued_take (slot ▸ inside) back).2 after
    exact bind_eq_ok.mpr ⟨_, confined, bind_eq_ok.mpr ⟨_, placed, rfl⟩⟩

end Confined

/-- What one round does to the array: the slots not yet read are as they were, those above the slot
read stay so, and no slot above it is used. -/
structure RoundInPlace (nodes : List Ptr) (s next : Shift Ptr) : Prop where
  slot : 0 ≤ s.i ∧ s.i < nodes.length
  unread : s.invOrder.drop s.i.toNat = nodes.drop s.i.toNat
  left : next.invOrder.drop (s.i.toNat + 1) = nodes.drop (s.i.toNat + 1)
  confined : shiftRound (s.cut (s.i.toNat + 1)) = .ok (some (next.cut (s.i.toNat + 1)))

theorem AtSlot.removed_nonneg {i : ℕ} {s : Shift Ptr} (atSlot : AtSlot heap nodes queue i s)
    (queued : Queued heap.index nodes queue) (numbered : Numbered heap.index nodes) :
    0 ≤ s.numOfRemovedNodes := by
  have := queued.length_le numbered atSlot.inside
  rw [atSlot.removed]
  omega

/-- A round from a state of the loop works in place. -/
theorem AtSlot.roundInPlace {i : ℕ} {s next : Shift Ptr} (atSlot : AtSlot heap nodes queue i s)
    (queued : Queued heap.index nodes queue) (numbered : Numbered heap.index nodes)
    (moved : shiftRound s = .ok (some next)) :
    AtSlot heap nodes queue (i + 1) next ∧ RoundInPlace nodes s next := by
  have waiting : s.queue.isEmpty = false := by
    rw [← Bool.not_eq_true]
    intro empty
    simp [shiftRound, empty] at moved
  have unread := atSlot.unread queued numbered waiting
  obtain ⟨other, same, kept⟩ := shiftRound_eq queued numbered atSlot unread waiting
  obtain rfl : other = next := by simpa [same] using moved
  have slot : s.i.toNat = i := by rw [atSlot.slot, Int.toNat_natCast]
  refine ⟨kept, ?_⟩
  constructor
  case slot => rw [atSlot.slot]; omega
  case unread => rw [slot, atSlot.filled.back]
  case left => rw [slot, kept.filled.back]
  case confined =>
    apply shiftRound_cut moved (atSlot.removed_nonneg queued numbered) (kept.removed_nonneg queued numbered)
    rw [atSlot.slot]
    omega

/-- States the loop of `shift` passes through. -/
def ShiftReaches : Shift Ptr → Shift Ptr → Prop :=
  ReflTransGen fun s next => shiftRound s = .ok (some next)

theorem AtSlot.reaches {i : ℕ} {s t : Shift Ptr} (atSlot : AtSlot heap nodes queue i s)
    (queued : Queued heap.index nodes queue) (numbered : Numbered heap.index nodes)
    (reached : ShiftReaches s t) : ∃ j, AtSlot heap nodes queue j t := by
  induction reached with
  | refl => exact ⟨i, atSlot⟩
  | tail _ moved ih =>
    obtain ⟨j, before⟩ := ih
    exact ⟨j + 1, (before.roundInPlace queued numbered moved).1⟩

/-- A slot outside the moves keeps its node. -/
theorem reinsert_getElem? (queued : Queued heap.index nodes queue) (numbered : Numbered heap.index nodes)
    {slot : ℕ}
    (outside : (∀ m ∈ queue, (slot : ℤ) < heap.index m.1) ∨ ∀ m ∈ queue, heap.index m.2 < slot) :
    (reinsert queue nodes)[slot]? = nodes[slot]? := by
  rcases le_or_gt nodes.length slot with beyond | inside
  · have same := (queued.perm numbered.nodup).length_eq
    rw [List.getElem?_eq_none (by omega), List.getElem?_eq_none beyond]
  · rcases outside with high | low
    · have split := Frontier.reinsert_above numbered (k := slot + 1) fun m member => by
        have := high m member
        have := queued.below m member
        omega
      have early : slot < (nodes.take (slot + 1)).length := by rw [List.length_take]; omega
      rw [split, List.getElem?_append_left early, List.getElem?_take_of_lt (by omega)]
    · obtain ⟨split, length⟩ := queued.reinsert_below numbered inside.le low
      rw [split, List.getElem?_append_right (by omega), length, List.getElem?_drop]
      simp

/-- Frontier pairs as `discover` leaves them, for a shift from `startingIndex` on. -/
structure FrontierPairs (heap : Heap Ptr) (nodes : List Ptr) (vacant : List Bool) (startingIndex : ℤ)
    (queue : EdgeQueue Ptr) : Prop where
  length : vacant.length = nodes.length
  inside : ∀ m ∈ queue, m.1 ∈ nodes ∧ m.2 ∈ nodes
  nodup : (queue.map Prod.fst).Nodup
  vacant_iff : ∀ v ∈ nodes, read vacant (heap v).index = .ok true ↔ v ∈ queue.map Prod.fst
  from_start : ∀ m ∈ queue, startingIndex ≤ heap.index m.1
  below : ∀ m ∈ queue, heap.index m.1 < heap.index m.2
  stays : ∀ m ∈ queue, read vacant (heap m.2).index = .ok false
  ordered : queue.Pairwise fun m n => heap.index m.2 ≤ heap.index n.2

omit [DecidableEq Ptr] in
theorem FrontierPairs.queued {vacant : List Bool} {startingIndex : ℤ}
    (pairs : FrontierPairs heap nodes vacant startingIndex queue) : Queued heap.index nodes queue where
  nodup := pairs.nodup
  source m member := (pairs.inside m member).1
  target m member := (pairs.inside m member).2
  fixed m member moved := by
    have vacant := (pairs.vacant_iff m.2 (pairs.inside m member).2).mpr moved
    rw [pairs.stays m member] at vacant
    simp at vacant
  below := pairs.below
  ordered := pairs.ordered

/-- What `discover` returns can be shifted. -/
theorem Discovery.frontierPairs {edges : List (Edge Ptr)} {vacant : List Bool} {startingIndex : ℤ}
    (discovery : Discovery heap nodes edges queue vacant)
    (closed : ∀ v ∈ nodes, ∀ w ∈ heap.succ v, w ∈ nodes)
    (spans : ∀ e ∈ edges, e.1 ∈ nodes ∧ e.2 ∈ nodes)
    (fromStart : ∀ m ∈ queue, startingIndex ≤ heap.index m.1) :
    FrontierPairs heap nodes vacant startingIndex queue := by
  have facts : ∀ m ∈ queue, m.1 ∈ nodes ∧ m.2 ∈ nodes ∧ heap.index m.1 < heap.index m.2 := by
    intro m member
    obtain ⟨e, inEdges, same, asks⟩ := discovery.tail m member
    rw [← same]
    exact ⟨asks.mem closed (spans e inEdges).2, (spans e inEdges).1, asks.index_lt⟩
  exact {
    length := discovery.length
    inside := fun m member => ⟨(facts m member).1, (facts m member).2.1⟩
    nodup := discovery.nodup
    vacant_iff := fun v member => by rw [discovery.vacant_iff v member, discovery.queued_iff]
    from_start := fromStart
    below := fun m member => (facts m member).2.2
    stays := discovery.stays
    ordered := discovery.ordered }

/-- `shift` puts every queued node back directly after its tail, closes up the rest, and works in
place. The start is a slot unless there is nothing to do: `insert_edges` passes the number of nodes or
the index of a head. -/
theorem shift_exact (numbered : Numbered heap.index nodes) {vacant : List Bool} {startingIndex : ℤ}
    (pairs : FrontierPairs heap nodes vacant startingIndex queue) (slot : queue ≠ [] → 0 ≤ startingIndex) :
    ∃ r, shift startingIndex queue heap nodes vacant = .ok r ∧ r.queue = [] ∧
      r.vacant = List.replicate nodes.length false ∧ Numbered r.heap.index r.invOrder ∧
      r.invOrder = reinsert queue nodes ∧
      (∀ i : ℕ, ((i : ℤ) < startingIndex ∨ ∀ m ∈ queue, heap.index m.2 < i) →
        r.invOrder[i]? = nodes[i]?) ∧
      ∀ s next, ShiftReaches ⟨heap, nodes, vacant, queue, startingIndex, 0⟩ s →
        shiftRound s = .ok (some next) → RoundInPlace nodes s next := by
  have queued := pairs.queued
  obtain rfl := numbered.eq_flags pairs.length pairs.vacant_iff
  obtain rfl | idle := eq_or_ne queue []
  · have stop : shiftRound (⟨heap, nodes, flags nodes [], [], startingIndex, 0⟩ : Shift Ptr) = .ok none := rfl
    refine ⟨_, BoundedLoop.run_stop stop, rfl, flags_nil nodes, numbered, (reinsert_nil nodes).symm,
      fun _ _ => rfl, fun s next reached moved => ?_⟩
    cases reached.cases_head with
    | inl same =>
      subst same
      simp [shiftRound] at moved
    | inr steps =>
      obtain ⟨_, first, _⟩ := steps
      simp [shiftRound] at first
  · obtain ⟨k, rfl⟩ := Int.eq_ofNat_of_zero_le (slot idle)
    have inside : k ≤ nodes.length := by
      obtain ⟨m, member⟩ := List.exists_mem_of_ne_nil _ idle
      have := (numbered.bounds (pairs.inside m member).1).2
      have := pairs.from_start m member
      omega
    obtain ⟨r, returned, order, numbers, cleared, empty⟩ := shift_eq queued numbered inside pairs.from_start
    refine ⟨r, returned, empty, cleared, ?_, order, fun i outside => ?_, fun s next reached moved => ?_⟩
    · rw [numbers, order]
      exact renumber_numbered _ (reinsert_nodup queued.nodup numbered.nodup)
    · rw [order]
      apply reinsert_getElem? queued numbered
      exact outside.imp_left fun before m member => before.trans_le (pairs.from_start m member)
    · have start := AtSlot.start queued numbered inside pairs.from_start
      obtain ⟨i, atSlot⟩ := start.reaches queued numbered reached
      exact (atSlot.roundInPlace queued numbered moved).2

/-- Two nodes behind the same third one. -/
theorem shift_exact_three :
    let edgeless : Heap ℕ := fun v => ⟨[], [], v⟩
    ∃ r, shift 0 [(0, 2), (1, 2)] edgeless [0, 1, 2] [true, true, false] = .ok r ∧
      r.invOrder = [2, 0, 1] := by
  intro edgeless
  have numbered : Numbered edgeless.index [0, 1, 2] := by unfold Numbered; decide
  have pairs : FrontierPairs edgeless [0, 1, 2] [true, true, false] 0 [(0, 2), (1, 2)] := by
    constructor <;> decide
  obtain ⟨r, returned, _, _, _, order, _⟩ := shift_exact numbered pairs (fun _ => le_rfl)
  exact ⟨r, returned, order.trans (by decide)⟩

/-- A start before the first slot satisfies the bounds on the queue as well, but the first round then reads
outside the array. -/
theorem shift_before_first :
    let edgeless : Heap ℕ := fun v => ⟨[], [], v⟩
    Numbered edgeless.index [0, 1] ∧ FrontierPairs edgeless [0, 1] [true, false] (-1) [(0, 1)] ∧
      shift (-1) [(0, 1)] edgeless [0, 1] [true, false] = .error .outOfBounds ∧
      ¬ ∃ r, shift (-1) [(0, 1)] edgeless [0, 1] [true, false] = .ok r ∧ r.queue = [] := by
  intro edgeless
  have failed : shift (-1) [(0, 1)] edgeless [0, 1] [true, false] = .error .outOfBounds := rfl
  refine ⟨by unfold Numbered; decide, by constructor <;> decide, failed, ?_⟩
  rintro ⟨r, returned, _⟩
  rw [failed] at returned
  contradiction

end DynamicDag
