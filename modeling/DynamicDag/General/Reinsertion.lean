import Mathlib.Data.List.Nodup
import Mathlib.Data.List.Perm.Basic
import Mathlib.Data.List.Flatten
import Mathlib.Tactic.Common

/-! # Taking entries out of a list and putting them back elsewhere

A move `(v, u)` takes `v` out of a list and puts it back directly after `u`; entries moved after one
`u` form a block in the order of the moves. `reinsert` is the reference definition: it keeps what is
not moved and appends to every kept entry its block. It is compositional in the list and, for moves
that do not meet, in the moves; under `Movable` it is a permutation.
-/

namespace Reinsertion

variable {α : Type*} [DecidableEq α]

/-- The entries put back directly after `u`. -/
def block (moves : List (α × α)) (u : α) : List α :=
  (moves.filter (fun move => decide (move.2 = u))).map Prod.fst

/-- The entries that stay. -/
def kept (moves : List (α × α)) (xs : List α) : List α :=
  xs.filter (fun v => decide (v ∉ moves.map Prod.fst))

/-- Every moved entry directly after its target, everything else in its old order. -/
def reinsert (moves : List (α × α)) (xs : List α) : List α :=
  (kept moves xs).flatMap (fun u => u :: block moves u)

/-- Each entry moves at most once, within the list, and after an entry that stays. -/
structure Movable (moves : List (α × α)) (xs : List α) : Prop where
  nodup : (moves.map Prod.fst).Nodup
  source : ∀ move ∈ moves, move.1 ∈ xs
  target : ∀ move ∈ moves, move.2 ∈ xs
  fixed : ∀ move ∈ moves, move.2 ∉ moves.map Prod.fst

variable {moves : List (α × α)} {xs ys : List α}

theorem mem_block {u v : α} : v ∈ block moves u ↔ (v, u) ∈ moves := by
  simp only [block, List.mem_map, List.mem_filter, decide_eq_true_eq, Prod.exists,
    exists_and_right, exists_eq_right]

theorem block_nodup (unique : (moves.map Prod.fst).Nodup) (u : α) : (block moves u).Nodup :=
  unique.sublist (List.filter_sublist.map Prod.fst)

omit [DecidableEq α] in
/-- A moved entry has one target. -/
theorem target_unique (unique : (moves.map Prod.fst).Nodup) {v u w : α} (left : (v, u) ∈ moves)
    (right : (v, w) ∈ moves) : u = w :=
  congrArg Prod.snd (List.inj_on_of_nodup_map unique left right rfl)

theorem mem_kept {v : α} : v ∈ kept moves xs ↔ v ∈ xs ∧ v ∉ moves.map Prod.fst := by
  simp only [kept, List.mem_filter, decide_eq_true_eq]

theorem kept_append (moves : List (α × α)) (xs ys : List α) :
    kept moves (xs ++ ys) = kept moves xs ++ kept moves ys :=
  List.filter_append xs ys

theorem reinsert_append (moves : List (α × α)) (xs ys : List α) :
    reinsert moves (xs ++ ys) = reinsert moves xs ++ reinsert moves ys := by
  simp only [reinsert, kept, List.filter_append, List.flatMap_append]

theorem reinsert_singleton_kept {u : α} (stays : u ∉ moves.map Prod.fst) :
    reinsert moves [u] = u :: block moves u := by
  simp only [reinsert, kept, List.filter_cons, List.filter_nil, decide_eq_true stays, ↓reduceIte,
    List.flatMap_cons, List.flatMap_nil, List.append_nil]

theorem reinsert_singleton_moved {u : α} (moved : u ∈ moves.map Prod.fst) :
    reinsert moves [u] = [] := by
  simp only [reinsert, kept, List.filter_cons, List.filter_nil, not_not.mpr moved, decide_false,
    Bool.false_eq_true, ↓reduceIte, List.flatMap_nil]

/-- Of a list whose entries are all moved elsewhere nothing is left. -/
theorem reinsert_of_moved (all : ∀ u ∈ xs, u ∈ moves.map Prod.fst) : reinsert moves xs = [] := by
  have none : kept moves xs = [] :=
    List.eq_nil_iff_forall_not_mem.mpr fun u member => (mem_kept.mp member).2 (all u (mem_kept.mp member).1)
  rw [reinsert, none, List.flatMap_nil]

/-- The block of an entry that is no target is empty. -/
theorem block_eq_nil {u : α} (noTarget : ∀ move ∈ moves, move.2 ≠ u) : block moves u = [] := by
  rw [List.eq_nil_iff_forall_not_mem]
  exact fun v member => noTarget (v, u) (mem_block.mp member) rfl

/-- Moves between entries of another list change nothing. -/
theorem reinsert_eq_self (elsewhere : ∀ move ∈ moves, move.1 ∉ xs ∧ move.2 ∉ xs) :
    reinsert moves xs = xs := by
  induction xs with
  | nil => rfl
  | cons v rest ih =>
    have stays : v ∉ moves.map Prod.fst := by
      intro moved
      obtain ⟨move, listed, rfl⟩ := List.mem_map.mp moved
      exact (elsewhere move listed).1 List.mem_cons_self
    have empty : block moves v = [] := block_eq_nil fun move listed same =>
      (elsewhere move listed).2 (same ▸ List.mem_cons_self)
    have later := ih fun move listed => ⟨fun again => (elsewhere move listed).1 (List.mem_cons_of_mem _ again),
      fun again => (elsewhere move listed).2 (List.mem_cons_of_mem _ again)⟩
    rw [← List.singleton_append, reinsert_append, reinsert_singleton_kept stays, empty, later]

theorem reinsert_nil (xs : List α) : reinsert [] xs = xs :=
  reinsert_eq_self (by simp)

theorem mem_reinsert {v : α} : v ∈ reinsert moves xs ↔
    v ∈ kept moves xs ∨ ∃ u ∈ kept moves xs, (v, u) ∈ moves := by
  simp only [reinsert, List.mem_flatMap, List.mem_cons, mem_block]
  constructor
  · rintro ⟨u, stays, rfl | moved⟩
    · exact .inl stays
    · exact .inr ⟨u, stays, moved⟩
  · rintro (stays | ⟨u, stays, moved⟩)
    · exact ⟨v, stays, .inl rfl⟩
    · exact ⟨u, stays, .inr moved⟩

/-- A prefix of the list receives no entry twice. -/
theorem reinsert_nodup (unique : (moves.map Prod.fst).Nodup) (distinct : xs.Nodup) :
    (reinsert moves xs).Nodup := by
  have stays {u : α} (member : u ∈ kept moves xs) : u ∉ moves.map Prod.fst := (mem_kept.mp member).2
  have moved {u v : α} (member : v ∈ block moves u) : v ∈ moves.map Prod.fst :=
    List.mem_map_of_mem (f := Prod.fst) (mem_block.mp member)
  refine List.nodup_flatMap.mpr ⟨fun u member => ?_, ?_⟩
  · exact List.nodup_cons.mpr ⟨fun inside => stays member (moved inside), block_nodup unique u⟩
  · apply (distinct.filter _).imp_of_mem
    intro u w left right different v inLeft inRight
    rcases List.mem_cons.mp inLeft with rfl | leftBlock
    · cases List.mem_cons.mp inRight with
      | inl same => exact different same
      | inr rightBlock => exact stays left (moved rightBlock)
    · rcases List.mem_cons.mp inRight with rfl | rightBlock
      · exact stays right (moved leftBlock)
      · exact different (target_unique unique (mem_block.mp leftBlock) (mem_block.mp rightBlock))

namespace Movable

theorem mem_iff (movable : Movable moves xs) {v : α} : v ∈ reinsert moves xs ↔ v ∈ xs := by
  rw [mem_reinsert]
  constructor
  · rintro (stays | ⟨u, _, moved⟩)
    · exact (mem_kept.mp stays).1
    · exact movable.source _ moved
  · intro member
    by_cases moved : v ∈ moves.map Prod.fst
    · obtain ⟨⟨w, u⟩, listed, rfl⟩ := List.mem_map.mp moved
      exact .inr ⟨u, mem_kept.mpr ⟨movable.target _ listed, movable.fixed _ listed⟩, listed⟩
    · exact .inl (mem_kept.mpr ⟨member, moved⟩)

theorem perm (movable : Movable moves xs) (distinct : xs.Nodup) : (reinsert moves xs).Perm xs :=
  (List.perm_ext_iff_of_nodup (reinsert_nodup movable.nodup distinct) distinct).mpr
    fun _ => movable.mem_iff

end Movable

/-- What stays keeps its order. -/
theorem kept_reinsert (moves : List (α × α)) (xs : List α) :
    kept moves (reinsert moves xs) = kept moves xs := by
  have dropped (u : α) : kept moves (block moves u) = [] := by
    apply List.filter_eq_nil_iff.mpr
    intro v member
    simpa using List.mem_map_of_mem (f := Prod.fst) (mem_block.mp member)
  induction xs with
  | nil => rfl
  | cons v rest ih =>
    rw [← List.singleton_append, reinsert_append, kept_append, kept_append, ih]
    congr 1
    by_cases moved : v ∈ moves.map Prod.fst
    · rw [reinsert_singleton_moved moved]
      simp [kept, moved]
    · rw [reinsert_singleton_kept moved, ← List.singleton_append, kept_append, dropped, List.append_nil]

/-- Moves that do not meet may be made in two rounds. -/
theorem reinsert_reinsert {later : List (α × α)} (xs : List α)
    (apart : ∀ move ∈ later, move.1 ∉ moves.map Prod.fst ∧ move.2 ∉ moves.map Prod.fst)
    (stay : ∀ move ∈ moves, move.2 ∉ later.map Prod.fst) :
    reinsert later (reinsert moves xs) = reinsert (later ++ moves) xs := by
  have isolated (u : α) : reinsert later (block moves u) = block moves u := by
    have moved {v : α} (member : v ∈ block moves u) : v ∈ moves.map Prod.fst :=
      List.mem_map_of_mem (f := Prod.fst) (mem_block.mp member)
    exact reinsert_eq_self fun move listed =>
      ⟨fun member => (apart move listed).1 (moved member), fun member => (apart move listed).2 (moved member)⟩
  have joined (u : α) : block (later ++ moves) u = block later u ++ block moves u := by
    simp only [block, List.filter_append, List.map_append]
  induction xs with
  | nil => rfl
  | cons v rest ih =>
    rw [← List.singleton_append, reinsert_append, reinsert_append, reinsert_append, ih]
    congr 1
    by_cases movedFirst : v ∈ moves.map Prod.fst
    · rw [reinsert_singleton_moved movedFirst,
        reinsert_singleton_moved (by rw [List.map_append]; exact List.mem_append_right _ movedFirst)]
      rfl
    · rw [reinsert_singleton_kept movedFirst, ← List.singleton_append, reinsert_append, isolated]
      by_cases movedLater : v ∈ later.map Prod.fst
      · have empty : block moves v = [] := block_eq_nil fun move listed same =>
          stay move listed (same ▸ movedLater)
        rw [reinsert_singleton_moved movedLater, empty,
          reinsert_singleton_moved (by rw [List.map_append]; exact List.mem_append_left _ movedLater)]
        rfl
      · rw [reinsert_singleton_kept movedLater, reinsert_singleton_kept, joined]
        · rfl
        · rw [List.map_append, List.mem_append, not_or]
          exact ⟨movedLater, movedFirst⟩

/-- What leaves a list of distinct entries, counted by the moves. -/
theorem length_moved (unique : (moves.map Prod.fst).Nodup) (distinct : xs.Nodup) :
    (xs.filter (fun v => decide (v ∈ moves.map Prod.fst))).length =
      (moves.filter (fun move => decide (move.1 ∈ xs))).length := by
  rw [← @List.length_map _ _ (moves.filter _) Prod.fst]
  refine List.Perm.length_eq ((List.perm_ext_iff_of_nodup (distinct.filter _)
    (unique.sublist (List.filter_sublist.map Prod.fst))).mpr fun v => ?_)
  simp only [List.mem_filter, decide_eq_true_eq, List.mem_map]
  constructor
  · rintro ⟨member, move, listed, rfl⟩
    exact ⟨move, ⟨listed, member⟩, rfl⟩
  · rintro ⟨move, ⟨listed, member⟩, rfl⟩
    exact ⟨member, move, listed, rfl⟩

/-- Moves into a nonempty list go after its first entry or into the rest. -/
theorem length_targets (moves : List (α × α)) {v : α} {rest : List α} (fresh : v ∉ rest) :
    (moves.filter (fun move => decide (move.2 ∈ v :: rest))).length =
      (block moves v).length + (moves.filter (fun move => decide (move.2 ∈ rest))).length := by
  rw [block, List.length_map]
  induction moves with
  | nil => rfl
  | cons move others ih =>
    simp only [List.filter_cons, decide_eq_true_eq]
    by_cases here : move.2 = v
    · have notRest : move.2 ∉ rest := fun member => fresh (here ▸ member)
      rw [if_pos (by rw [here]; exact List.mem_cons_self), if_pos here, if_neg notRest,
        List.length_cons, List.length_cons, ih]
      omega
    · by_cases there : move.2 ∈ rest
      · rw [if_pos (List.mem_cons_of_mem _ there), if_neg here, if_pos there, List.length_cons,
          List.length_cons, ih]
        omega
      · rw [if_neg (by rw [List.mem_cons, not_or]; exact ⟨here, there⟩), if_neg here, if_neg there, ih]

/-- The length after a reinsertion: what left the list against what came in. -/
theorem length_reinsert (fixed : ∀ move ∈ moves, move.2 ∉ moves.map Prod.fst) (distinct : xs.Nodup) :
    (reinsert moves xs).length + (xs.filter (fun v => decide (v ∈ moves.map Prod.fst))).length =
      xs.length + (moves.filter (fun move => decide (move.2 ∈ xs))).length := by
  induction xs with
  | nil => simp [reinsert, kept]
  | cons v rest ih =>
    obtain ⟨fresh, distinctRest⟩ := List.nodup_cons.mp distinct
    have targets := length_targets moves fresh
    have before := ih distinctRest
    rw [← List.singleton_append, reinsert_append, List.length_append, List.filter_append,
      List.length_append, List.singleton_append, targets, List.length_cons]
    by_cases moved : v ∈ moves.map Prod.fst
    · have noTarget : block moves v = [] := by
        rw [List.eq_nil_iff_forall_not_mem]
        exact fun w member => fixed (w, v) (mem_block.mp member) moved
      rw [reinsert_singleton_moved moved, noTarget]
      simp only [List.filter_cons, decide_eq_true moved, ↓reduceIte, List.filter_nil, List.length_cons,
        List.length_nil]
      omega
    · rw [reinsert_singleton_kept moved]
      simp only [List.filter_cons, decide_eq_false moved, Bool.false_eq_true, ↓reduceIte,
        List.filter_nil, List.length_cons, List.length_nil]
      omega

/-- A prefix shrinks when every move into it starts in it. -/
theorem length_reinsert_le (unique : (moves.map Prod.fst).Nodup)
    (fixed : ∀ move ∈ moves, move.2 ∉ moves.map Prod.fst) (distinct : xs.Nodup)
    (forward : ∀ move ∈ moves, move.2 ∈ xs → move.1 ∈ xs) :
    (reinsert moves xs).length ≤ xs.length := by
  have total := length_reinsert fixed distinct
  rw [length_moved unique distinct] at total
  have fewer : (moves.filter (fun move => decide (move.2 ∈ xs))).length ≤
      (moves.filter (fun move => decide (move.1 ∈ xs))).length := by
    rw [← List.countP_eq_length_filter, ← List.countP_eq_length_filter]
    exact List.countP_mono_left fun move listed member => by
      simpa using forward move listed (by simpa using member)
  omega

/-- A prefix keeps its length when every move stays on one side of its end. -/
theorem length_reinsert_eq (unique : (moves.map Prod.fst).Nodup)
    (fixed : ∀ move ∈ moves, move.2 ∉ moves.map Prod.fst) (distinct : xs.Nodup)
    (sided : ∀ move ∈ moves, move.2 ∈ xs ↔ move.1 ∈ xs) :
    (reinsert moves xs).length = xs.length := by
  have total := length_reinsert fixed distinct
  rw [length_moved unique distinct] at total
  have equal : moves.filter (fun move => decide (move.2 ∈ xs)) =
      moves.filter (fun move => decide (move.1 ∈ xs)) :=
    List.filter_congr fun move listed => decide_eq_decide.mpr (sided move listed)
  rw [equal] at total
  omega

end Reinsertion
