import DynamicDag.General.Numbering
import DynamicDag.General.Reinsertion
import DynamicDag.Model.InsertionAlgorithm

/-! # The shift carries out the moves

`shift` works in place: at slot `i` it has written the nodes before `i` with all moves into them made,
and has not touched the slots from `i` on. The written part is never longer than what has been read,
because a node is moved forward only. The loop therefore ends with every move made, in the array and
in the indices of the nodes, and with no slot left vacant.
-/

namespace DynamicDag

open Numbering Reinsertion

variable {Ptr : Type} [DecidableEq Ptr] {heap h : Heap Ptr} {nodes out a : List Ptr}
  {moves : EdgeQueue Ptr} {i : ℕ}

/-- Moves forward to a node of the graph that stays, next move first. -/
structure Queued (index : Ptr → ℤ) (nodes : List Ptr) (moves : EdgeQueue Ptr) : Prop
    extends Movable moves nodes where
  below : ∀ m ∈ moves, index m.1 < index m.2
  ordered : moves.Pairwise (fun m n => index m.2 ≤ index n.2)

/-- The array after `out` has been written to its front, the slots from `i` on being as before. -/
structure Filled (heap : Heap Ptr) (nodes out : List Ptr) (i : ℕ) (h : Heap Ptr) (a : List Ptr) : Prop where
  heap : h = heap.withIndex (renumber heap.index out)
  length : a.length = nodes.length
  front : a.take out.length = out
  back : a.drop i = nodes.drop i

/-- The moves to slot `i` and above. -/
def pending (index : Ptr → ℤ) (moves : EdgeQueue Ptr) (i : ℕ) : EdgeQueue Ptr :=
  moves.filter (fun m => decide ((i : ℤ) ≤ index m.2))

/-- The moved nodes from slot `i` and above. -/
def vacated (index : Ptr → ℤ) (moves : EdgeQueue Ptr) (i : ℕ) : List Ptr :=
  (moves.map Prod.fst).filter (fun v => decide ((i : ℤ) ≤ index v))

/-- The state of `shift` before it reads slot `i`. -/
structure AtSlot (heap : Heap Ptr) (nodes : List Ptr) (moves : EdgeQueue Ptr) (i : ℕ)
    (s : Shift Ptr) : Prop where
  inside : i ≤ nodes.length
  slot : s.i = i
  filled : Filled heap nodes (reinsert moves (nodes.take i)) i s.heap s.invOrder
  vacant : s.vacant = flags nodes (vacated heap.index moves i)
  queue : s.queue = pending heap.index moves i
  removed : s.numOfRemovedNodes = i - (reinsert moves (nodes.take i)).length

namespace Filled

omit [DecidableEq Ptr] in
theorem drop_succ {a nodes : List Ptr} (same : a.drop i = nodes.drop i) :
    a.drop (i + 1) = nodes.drop (i + 1) := by
  rw [← List.drop_drop, ← List.drop_drop, same]

/-- Reading on frees one more slot. -/
theorem next (filled : Filled heap nodes out i h a) : Filled heap nodes out (i + 1) h a where
  heap := filled.heap
  length := filled.length
  front := filled.front
  back := drop_succ filled.back

/-- The slot to be read has not been overwritten. -/
theorem read_slot (filled : Filled heap nodes out i h a) (inside : i < nodes.length) :
    read a i = .ok nodes[i] := by
  have bound : i < a.length := by rw [filled.length]; exact inside
  have same : a[i] = nodes[i] := by
    have heads := congrArg List.head? filled.back
    rw [List.drop_eq_getElem_cons bound, List.drop_eq_getElem_cons inside] at heads
    exact Option.some.inj heads
  rw [← same]
  exact CheckedAccess.readAt_natCast bound

/-- Placing a node in the first slot after the front. -/
theorem place (filled : Filled heap nodes out i h a) (inside : i ≤ nodes.length)
    (room : out.length < i) {v : Ptr} (fresh : v ∉ out) :
    ∃ h' a', placeNode v out.length h a = .ok (h', a') ∧ Filled heap nodes (out ++ [v]) i h' a' := by
  have bound : out.length < a.length := by rw [filled.length]; omega
  refine ⟨h.setIndex v out.length, a.set out.length v, ?_, ?_, ?_, ?_, ?_⟩
  · have written : write a (out.length : ℤ) v = .ok (a.set out.length v) :=
      CheckedAccess.writeAt_natCast bound v
    simp only [placeNode, written, bind, Except.bind, pure, Except.pure]
  · rw [filled.heap, Heap.setIndex_withIndex, renumber_append_singleton fresh]
  · rw [List.length_set, filled.length]
  · have covers : out.length < (a.set out.length v).length := by rw [List.length_set]; exact bound
    rw [List.length_append, List.length_singleton, List.take_succ_eq_append_getElem covers,
      List.take_set_of_le le_rfl, filled.front, List.getElem_set_self]
  · rw [List.drop_set_of_lt room, filled.back]

end Filled

namespace Queued

variable {index : Ptr → ℤ}

/-- The next moves are those to the node in slot `i`. -/
theorem pending_eq (queued : Queued index nodes moves) (numbered : Numbered index nodes)
    (inside : i < nodes.length) :
    pending index moves i =
      (block moves nodes[i]).map (fun v => (v, nodes[i])) ++ pending index moves (i + 1) := by
  have atSlot := numbered i inside
  have here : ∀ m ∈ moves, m.2 = nodes[i] ↔ index m.2 = i := fun m member =>
    ⟨fun same => by rw [same, atSlot], fun same =>
      numbered.injOn (queued.target m member) (List.getElem_mem inside) (same.trans atSlot.symm)⟩
  have ordered := queued.ordered
  clear queued
  induction moves with
  | nil => rfl
  | cons m rest ih =>
    obtain ⟨first, later⟩ := List.pairwise_cons.mp ordered
    have before := ih (fun n member => here n (List.mem_cons_of_mem _ member)) later
    have top := here m List.mem_cons_self
    simp only [pending, block, List.filter_cons, decide_eq_true_eq] at before ⊢
    rcases lt_trichotomy (index m.2) i with low | same | high
    · rw [if_neg (by omega), if_neg (by rw [top]; omega), if_neg (by omega), before]
    · rw [if_pos (by omega), if_pos (top.mpr same), if_neg (by omega), before]
      rw [List.map_cons, List.map_cons, List.cons_append, ← top.mpr same]
    · have none : rest.filter (fun n => decide (n.2 = nodes[i])) = [] := by
        apply List.filter_eq_nil_iff.mpr
        intro n member
        have := first n member
        rw [decide_eq_true_eq, here n (List.mem_cons_of_mem _ member)]
        omega
      rw [if_pos (by omega), if_neg (by rw [top]; omega), if_pos (by push_cast; omega), before, none]
      rfl

omit [DecidableEq Ptr] in
/-- Moves go forward, so no move into the nodes before a slot comes from behind it. -/
theorem forward (queued : Queued index nodes moves) (numbered : Numbered index nodes) (i : ℕ) :
    ∀ m ∈ moves, m.2 ∈ nodes.take i → m.1 ∈ nodes.take i := by
  intro m member early
  rw [numbered.mem_take_iff (queued.target m member)] at early
  rw [numbered.mem_take_iff (queued.source m member)]
  have := queued.below m member
  omega

/-- The written part is never longer than the part read. -/
theorem length_le (queued : Queued index nodes moves) (numbered : Numbered index nodes)
    (inside : i ≤ nodes.length) : (reinsert moves (nodes.take i)).length ≤ i := by
  have := length_reinsert_le queued.nodup queued.fixed
    (numbered.nodup.sublist (List.take_sublist i nodes)) (queued.forward numbered i)
  rwa [List.length_take, min_eq_left inside] at this

/-- The node in the slot to be read has not been written yet. -/
theorem notMem_written (queued : Queued index nodes moves) (numbered : Numbered index nodes)
    (inside : i < nodes.length) : nodes[i] ∉ reinsert moves (nodes.take i) := by
  have member := List.getElem_mem inside
  have early : nodes[i] ∉ nodes.take i := by
    rw [numbered.mem_take_iff member, numbered i inside]
    omega
  rw [mem_reinsert]
  rintro (stays | ⟨u, stays, moved⟩)
  · exact early (mem_kept.mp stays).1
  · exact early (queued.forward numbered i _ moved (mem_kept.mp stays).1)

/-- Moves before a slot leave the nodes from it on alone, and fill the slots before it again. -/
theorem reinsert_below (queued : Queued index nodes moves) (numbered : Numbered index nodes)
    (inside : i ≤ nodes.length) (low : ∀ m ∈ moves, index m.2 < i) :
    reinsert moves nodes = reinsert moves (nodes.take i) ++ nodes.drop i ∧
      (reinsert moves (nodes.take i)).length = i := by
  have both : ∀ m ∈ moves, index m.1 < i ∧ index m.2 < i := fun m member =>
    ⟨(queued.below m member).trans (low m member), low m member⟩
  constructor
  · have untouched : reinsert moves (nodes.drop i) = nodes.drop i := by
      apply reinsert_eq_self
      intro m member
      have := both m member
      rw [numbered.mem_drop_iff (queued.source m member), numbered.mem_drop_iff (queued.target m member)]
      omega
    conv_lhs => rw [← List.take_append_drop i nodes, reinsert_append, untouched]
  · have same := length_reinsert_eq queued.nodup queued.fixed
      (numbered.nodup.sublist (List.take_sublist i nodes)) fun m member => by
        rw [numbered.mem_take_iff (queued.target m member), numbered.mem_take_iff (queued.source m member)]
        have := both m member
        omega
    rwa [List.length_take, min_eq_left inside] at same

/-- One more slot read: its node is written if it stays, and its block after it. -/
theorem written_succ (queued : Queued index nodes moves) (inside : i < nodes.length) :
    reinsert moves (nodes.take (i + 1)) =
      reinsert moves (nodes.take i) ++ kept moves [nodes[i]] ++ block moves nodes[i] := by
  rw [List.take_succ_eq_append_getElem inside, reinsert_append, List.append_assoc]
  congr 1
  by_cases moved : nodes[i] ∈ moves.map Prod.fst
  · have empty : block moves nodes[i] = [] :=
      block_eq_nil fun m member same => queued.fixed m member (same ▸ moved)
    rw [reinsert_singleton_moved moved, empty, List.append_nil]
    exact (List.filter_eq_nil_iff.mpr (by simpa using moved)).symm
  · rw [reinsert_singleton_kept moved, ← List.singleton_append]
    exact congrArg (· ++ _) (List.filter_eq_self.mpr (by simpa using moved)).symm

omit [DecidableEq Ptr] in
/-- Reading a slot takes its node out of the vacant ones and changes no other flag. -/
theorem vacated_succ (numbered : Numbered index nodes) (inside : i < nodes.length) {v : Ptr}
    (member : v ∈ nodes) :
    v ∈ vacated index moves (i + 1) ↔ v ∈ vacated index moves i ∧ v ≠ nodes[i] := by
  have atSlot := numbered i inside
  have other : v ≠ nodes[i] ↔ index v ≠ i := by
    refine not_congr ⟨fun same => by rw [same, atSlot], fun same => ?_⟩
    exact numbered.injOn member (List.getElem_mem inside) (same.trans atSlot.symm)
  simp only [vacated, List.mem_filter, decide_eq_true_eq, and_assoc, other]
  apply and_congr_right
  intro _
  push_cast
  omega

omit [DecidableEq Ptr] in
theorem mem_vacated (numbered : Numbered index nodes) (inside : i < nodes.length) :
    nodes[i] ∈ vacated index moves i ↔ nodes[i] ∈ moves.map Prod.fst := by
  simp only [vacated, List.mem_filter, decide_eq_true_eq, numbered i inside, le_refl, and_true]

end Queued

/-- The inner loop puts back the whole block of the current node. -/
theorem placeQueued_eq {u : Ptr} (inside : i < nodes.length) {rest : EdgeQueue Ptr}
    (others : ∀ m ∈ rest, m.2 ≠ u) (after : List Ptr) (filled : Filled heap nodes out (i + 1) h a)
    (room : (out ++ after).length ≤ i + 1) (fresh : (out ++ after).Nodup) :
    ∃ h' a', placeQueued u i (after.map (fun v => (v, u)) ++ rest) (i + 1 - out.length) h a =
        .ok (rest, i + 1 - (out ++ after).length, h', a') ∧
      Filled heap nodes (out ++ after) (i + 1) h' a' := by
  induction after generalizing out h a with
  | nil =>
    refine ⟨h, a, ?_, by simpa using filled⟩
    rw [List.map_nil, List.nil_append, List.append_nil]
    cases rest with
    | nil => rfl
    | cons m rest =>
      have different : u ≠ m.2 := fun same => others m List.mem_cons_self same.symm
      simp only [placeQueued, if_neg different]
  | cons v after ih =>
    rw [List.append_cons] at room fresh ⊢
    have shorter : out.length < i + 1 := by
      simp only [List.length_append, List.length_singleton] at room
      omega
    have absent : v ∉ out := fun again =>
      List.disjoint_of_nodup_append (List.nodup_append.mp fresh).1 again (List.mem_singleton_self v)
    obtain ⟨h', a', placed, more⟩ := filled.place inside shorter absent
    obtain ⟨h'', a'', finished, all⟩ := ih more room fresh
    refine ⟨h'', a'', ?_, all⟩
    have first : (i : ℤ) - (i + 1 - out.length - 1) = out.length := by omega
    have second : (i : ℤ) + 1 - out.length - 1 = i + 1 - (out ++ [v]).length := by
      rw [List.length_append, List.length_singleton]
      push_cast
      omega
    simp only [List.map_cons, List.cons_append, placeQueued, ↓reduceIte, first, placed, bind, Except.bind]
    rw [second]
    exact finished

section Rounds

variable {s : Shift Ptr}

/-- The first half of a round writes the current node if it stays and clears its flag if not. -/
theorem moveUp_eq (queued : Queued heap.index nodes moves) (numbered : Numbered heap.index nodes)
    (atSlot : AtSlot heap nodes moves i s) (inside : i < nodes.length) :
    ∃ s', moveUp s = .ok (nodes[i], s') ∧ s'.i = i ∧ s'.queue = s.queue ∧
      s'.vacant = flags nodes (vacated heap.index moves (i + 1)) ∧
      Filled heap nodes (reinsert moves (nodes.take i) ++ kept moves [nodes[i]]) (i + 1)
        s'.heap s'.invOrder ∧
      s'.numOfRemovedNodes = i + 1 - (reinsert moves (nodes.take i) ++ kept moves [nodes[i]]).length := by
  have member := List.getElem_mem inside
  have absent := queued.notMem_written numbered inside
  have current : read s.invOrder s.i = .ok nodes[i] := by
    rw [atSlot.slot]
    exact atSlot.filled.read_slot inside
  have own : (s.heap nodes[i]).index = heap.index nodes[i] := by
    rw [atSlot.filled.heap]
    exact renumber_of_notMem absent
  have flag : read s.vacant (s.heap nodes[i]).index = .ok (decide (nodes[i] ∈ moves.map Prod.fst)) := by
    rw [atSlot.vacant, own, ← decide_eq_decide.mpr (Queued.mem_vacated numbered inside)]
    exact numbered.read_flags _ member
  simp only [moveUp, current, flag, bind, Except.bind, pure, Except.pure, decide_eq_true_eq]
  by_cases moved : nodes[i] ∈ moves.map Prod.fst
  · have empty : kept moves [nodes[i]] = [] := List.filter_eq_nil_iff.mpr (by simpa using moved)
    have cleared : write s.vacant (s.heap nodes[i]).index false =
        .ok (flags nodes (vacated heap.index moves (i + 1))) := by
      rw [atSlot.vacant, own]
      apply numbered.write_flags member
      · apply decide_eq_false
        intro again
        exact ((Queued.vacated_succ numbered inside member).mp again).2 rfl
      · intro w inNodes different
        rw [Queued.vacated_succ numbered inside inNodes]
        exact (and_iff_left different).symm
    rw [if_pos moved, empty, List.append_nil, cleared]
    refine ⟨_, rfl, atSlot.slot, rfl, rfl, atSlot.filled.next, ?_⟩
    dsimp only
    rw [atSlot.removed]
    omega
  · have single : kept moves [nodes[i]] = [nodes[i]] := List.filter_eq_self.mpr (by simpa using moved)
    have short := queued.length_le numbered inside.le
    obtain ⟨h', a', placed, filled⟩ := atSlot.filled.next.place inside (by omega) absent
    have target : s.i - s.numOfRemovedNodes = (reinsert moves (nodes.take i)).length := by
      rw [atSlot.slot, atSlot.removed]
      omega
    have same : flags nodes (vacated heap.index moves i) =
        flags nodes (vacated heap.index moves (i + 1)) := by
      apply flags_congr
      intro w inNodes
      rw [Queued.vacated_succ numbered inside inNodes]
      refine (and_iff_left_of_imp fun vacant same => moved ?_).symm
      exact (Queued.mem_vacated numbered inside).mp (same ▸ vacant)
    rw [if_neg moved, target, placed, single]
    refine ⟨_, rfl, atSlot.slot, rfl, atSlot.vacant.trans same, filled, ?_⟩
    rw [atSlot.removed, List.length_append, List.length_singleton]
    push_cast
    omega

/-- One round of `shift` deals with one slot. -/
theorem shiftRound_eq (queued : Queued heap.index nodes moves) (numbered : Numbered heap.index nodes)
    (atSlot : AtSlot heap nodes moves i s) (inside : i < nodes.length)
    (waiting : s.queue.isEmpty = false) :
    ∃ next, shiftRound s = .ok (some next) ∧ AtSlot heap nodes moves (i + 1) next := by
  obtain ⟨s', moved, slot, queue, vacant, filled, removed⟩ := moveUp_eq queued numbered atSlot inside
  have others : ∀ m ∈ pending heap.index moves (i + 1), m.2 ≠ nodes[i] := by
    intro m member same
    have := (List.mem_filter.mp member).2
    rw [same, decide_eq_true_eq, numbered i inside] at this
    omega
  have succ := queued.written_succ inside
  have room := queued.length_le numbered (show i + 1 ≤ nodes.length by omega)
  have fresh := reinsert_nodup queued.nodup (numbered.nodup.sublist (List.take_sublist (i + 1) nodes))
  rw [succ] at room fresh
  obtain ⟨h', a', placed, all⟩ := placeQueued_eq inside others _ filled room fresh
  rw [← queued.pending_eq numbered inside, ← removed, ← atSlot.queue, ← queue, ← slot] at placed
  simp only [shiftRound, waiting, Bool.false_eq_true, ↓reduceIte, moved, bind, Except.bind, placed]
  refine ⟨_, rfl, ⟨by omega, by rw [slot]; push_cast; rfl, ?_, vacant, rfl, ?_⟩⟩
  · rw [succ]
    exact all
  · rw [succ, slot]
    push_cast
    rfl

/-- A loop that stops has an empty queue. -/
theorem queue_of_stop (stop : shiftRound s = .ok none) : s.queue = [] := by
  by_contra waiting
  rw [shiftRound, if_neg (by simpa using waiting)] at stop
  simp only [bind, Except.bind] at stop
  split at stop
  · contradiction
  · split at stop
    · contradiction
    · simp [pure, Except.pure] at stop

/-- Once nothing is pending, the slots from here on are final. -/
theorem AtSlot.finished (atSlot : AtSlot heap nodes moves i s)
    (queued : Queued heap.index nodes moves) (numbered : Numbered heap.index nodes)
    (stop : shiftRound s = .ok none) :
    s.invOrder = reinsert moves nodes ∧
      s.heap = heap.withIndex (renumber heap.index (reinsert moves nodes)) ∧
      s.vacant = List.replicate nodes.length false ∧ s.queue = [] := by
  have empty := queue_of_stop stop
  have low : ∀ m ∈ moves, heap.index m.2 < i := by
    intro m member
    by_contra high
    have waiting : m ∈ pending heap.index moves i :=
      List.mem_filter.mpr ⟨member, decide_eq_true (not_lt.mp high)⟩
    rw [← atSlot.queue, empty] at waiting
    simp at waiting
  obtain ⟨split, whole⟩ := queued.reinsert_below numbered atSlot.inside low
  refine ⟨?_, ?_, ?_, empty⟩
  · have front := atSlot.filled.front
    rw [whole] at front
    rw [← List.take_append_drop i s.invOrder, front, atSlot.filled.back, split]
  · rw [atSlot.filled.heap, split, renumber_append]
    intro slot bound
    rw [List.length_drop] at bound
    rw [List.getElem_drop, numbered (i + slot) (by omega), whole]
    push_cast
    rfl
  · rw [atSlot.vacant, ← flags_nil]
    apply flags_congr
    intro v _
    apply iff_of_false _ List.not_mem_nil
    intro vacant
    simp only [vacated, List.mem_filter, List.mem_map, decide_eq_true_eq] at vacant
    obtain ⟨⟨m, member, rfl⟩, high⟩ := vacant
    have := low m member
    have := queued.below m member
    omega

/-- Before the first round nothing has been written that was not there. -/
theorem AtSlot.start (queued : Queued heap.index nodes moves) (numbered : Numbered heap.index nodes) {k : ℕ}
    (inside : k ≤ nodes.length) (above : ∀ m ∈ moves, (k : ℤ) ≤ heap.index m.1) :
    AtSlot heap nodes moves k ⟨heap, nodes, flags nodes (moves.map Prod.fst), moves, k, 0⟩ := by
  have untouched : reinsert moves (nodes.take k) = nodes.take k := by
    apply reinsert_eq_self
    intro m member
    have := above m member
    have := queued.below m member
    rw [numbered.mem_take_iff (queued.source m member), numbered.mem_take_iff (queued.target m member)]
    omega
  have length : (nodes.take k).length = k := by rw [List.length_take, min_eq_left inside]
  have front : Numbered heap.index (nodes.take k) := by
    intro slot bound
    rw [List.getElem_take]
    exact numbered slot (by omega)
  refine ⟨inside, rfl, ⟨?_, rfl, ?_, rfl⟩, ?_, ?_, ?_⟩
  · rw [untouched, front.renumber_eq, Heap.withIndex_self]
  · rw [untouched, length]
  · refine congrArg (flags nodes) (List.filter_eq_self.mpr fun v moved => ?_).symm
    obtain ⟨m, member, rfl⟩ := List.mem_map.mp moved
    exact decide_eq_true (above m member)
  · refine (List.filter_eq_self.mpr fun m member => decide_eq_true ?_).symm
    have := above m member
    have := queued.below m member
    omega
  · rw [untouched, length, sub_self]

/-- A waiting move has a target that is still to be read. -/
theorem AtSlot.unread (atSlot : AtSlot heap nodes moves i s) (queued : Queued heap.index nodes moves)
    (numbered : Numbered heap.index nodes) (waiting : s.queue.isEmpty = false) : i < nodes.length := by
  obtain ⟨m, member⟩ := List.exists_mem_of_ne_nil _ (by simpa using waiting : s.queue ≠ [])
  rw [atSlot.queue] at member
  obtain ⟨listed, high⟩ := List.mem_filter.mp member
  have := (numbered.bounds (queued.target m listed)).2
  have := of_decide_eq_true high
  omega

end Rounds

/-- `shift` makes the queued moves, in the array and in the indices, and leaves no slot vacant. -/
theorem shift_eq (queued : Queued heap.index nodes moves) (numbered : Numbered heap.index nodes) {k : ℕ}
    (inside : k ≤ nodes.length) (above : ∀ m ∈ moves, (k : ℤ) ≤ heap.index m.1) :
    ∃ r, shift k moves heap nodes (flags nodes (moves.map Prod.fst)) = .ok r ∧
      r.invOrder = reinsert moves nodes ∧
      r.heap = heap.withIndex (renumber heap.index (reinsert moves nodes)) ∧
      r.vacant = List.replicate nodes.length false ∧ r.queue = [] := by
  have rounds : ∀ s, (∃ i, AtSlot heap nodes moves i s) →
      BoundedLoop.Round (fun s => ∃ i, AtSlot heap nodes moves i s)
        (fun s => nodes.length - s.i.toNat) (fun _ => False) s (shiftRound s) := by
    rintro s ⟨i, atSlot⟩
    cases waiting : s.queue.isEmpty with
    | true =>
      rw [shiftRound, if_pos waiting]
      trivial
    | false =>
      have unread := atSlot.unread queued numbered waiting
      obtain ⟨next, moved, kept⟩ := shiftRound_eq queued numbered atSlot unread waiting
      rw [moved]
      refine ⟨⟨i + 1, kept⟩, ?_⟩
      dsimp only
      rw [kept.slot, atSlot.slot]
      omega
  obtain ⟨r, returned, ⟨i, atSlot⟩, stop⟩ | ⟨_, _, impossible⟩ :=
    BoundedLoop.run_rule Fault.outOfFuel rounds ⟨k, AtSlot.start queued numbered inside above⟩
      (show nodes.length - (k : ℤ).toNat < nodes.length + 1 by omega)
  · exact ⟨r, returned, atSlot.finished queued numbered stop⟩
  · exact impossible.elim

/-- The hard-coded case of the tests of `shift`. -/
example : (shift 0 [(0, 6), (4, 8), (2, 8)] (fun v : ℕ => ⟨[], [], v⟩) (List.range 9)
    (flags (List.range 9) [0, 2, 4])).map Shift.invOrder = .ok [1, 3, 5, 6, 0, 7, 8, 4, 2] := by
  decide +kernel

end DynamicDag
