import DynamicDag.General.CheckedAccess
import Mathlib.Data.List.Nodup
import Mathlib.Data.List.NodupEquivFin
import Mathlib.Tactic.Push

/-! # Lists whose entries know their own slot

`Numbered index xs` says that `index` gives every entry of `xs` its slot, as when a vector of
objects and a field of the objects name each other. `renumber` restores this after the list has
changed. `flags xs chosen` is the Boolean vector that marks chosen entries in their slots; reading
and writing it through `index` is membership in, and update of, the chosen set.
-/

namespace Numbering

open CheckedAccess

variable {α ε : Type*} {index : α → ℤ} {xs ys : List α}

/-- `index` names the slot of every entry. -/
def Numbered (index : α → ℤ) (xs : List α) : Prop :=
  ∀ slot (bound : slot < xs.length), index xs[slot] = slot

theorem Numbered.exists_slot (numbered : Numbered index xs) {v : α} (member : v ∈ xs) :
    ∃ slot, ∃ bound : slot < xs.length, xs[slot] = v ∧ index v = slot := by
  obtain ⟨slot, bound, rfl⟩ := List.getElem_of_mem member
  exact ⟨slot, bound, rfl, numbered slot bound⟩

theorem Numbered.bounds (numbered : Numbered index xs) {v : α} (member : v ∈ xs) :
    0 ≤ index v ∧ index v < xs.length := by
  obtain ⟨slot, bound, _, same⟩ := numbered.exists_slot member
  omega

/-- Entries with one slot are one entry. -/
theorem Numbered.injOn (numbered : Numbered index xs) {v w : α} (left : v ∈ xs) (right : w ∈ xs)
    (same : index v = index w) : v = w := by
  obtain ⟨slot, bound, rfl, atSlot⟩ := numbered.exists_slot left
  obtain ⟨other, otherBound, rfl, atOther⟩ := numbered.exists_slot right
  have : slot = other := by omega
  subst this
  rfl

/-- Two slots cannot hold one entry. -/
theorem Numbered.nodup (numbered : Numbered index xs) : xs.Nodup := by
  rw [List.nodup_iff_pairwise_ne, List.pairwise_iff_getElem]
  intro i j iBound jBound before same
  have left := numbered i iBound
  rw [same, numbered j jBound] at left
  omega

/-- Numbers grow along the list. -/
theorem Numbered.pairwise_lt (numbered : Numbered index xs) :
    xs.Pairwise (fun v w => index v < index w) := by
  rw [List.pairwise_iff_getElem]
  intro i j iBound jBound before
  rw [numbered i iBound, numbered j jBound]
  omega

/-- Entries that two numbered lists hold in one order compare alike in both. -/
theorem Numbered.lt_iff_of_sublist {other : α → ℤ} {zs : List α} (numbered : Numbered index xs)
    (renumbered : Numbered other ys) (left : zs.Sublist xs) (right : zs.Sublist ys) {v w : α}
    (first : v ∈ zs) (second : w ∈ zs) : index v < index w ↔ other v < other w := by
  have old := List.pairwise_iff_getElem.mp (numbered.pairwise_lt.sublist left)
  have new := List.pairwise_iff_getElem.mp (renumbered.pairwise_lt.sublist right)
  obtain ⟨i, iBound, rfl⟩ := List.getElem_of_mem first
  obtain ⟨j, jBound, rfl⟩ := List.getElem_of_mem second
  rcases lt_trichotomy i j with before | same | after
  · exact iff_of_true (old i j iBound jBound before) (new i j iBound jBound before)
  · subst same
    simp
  · exact iff_of_false (old j i jBound iBound after).not_gt (new j i jBound iBound after).not_gt

theorem Numbered.mem_take_iff (numbered : Numbered index xs) {v : α} (member : v ∈ xs) (k : ℕ) :
    v ∈ xs.take k ↔ index v < k := by
  obtain ⟨slot, bound, rfl, atSlot⟩ := numbered.exists_slot member
  constructor
  · intro early
    obtain ⟨other, otherBound, same⟩ := List.getElem_of_mem early
    rw [List.getElem_take] at same
    simp only [List.length_take] at otherBound
    have := numbered other (by omega)
    rw [same] at this
    omega
  · intro early
    have inside : slot < (xs.take k).length := by simp only [List.length_take]; omega
    have same : (xs.take k)[slot] = xs[slot] := List.getElem_take
    rw [← same]
    exact List.getElem_mem inside

theorem Numbered.mem_drop_iff (numbered : Numbered index xs) {v : α} (member : v ∈ xs) (k : ℕ) :
    v ∈ xs.drop k ↔ (k : ℤ) ≤ index v := by
  have taken := numbered.mem_take_iff member k
  have parts : v ∈ xs.take k ∨ v ∈ xs.drop k := by
    rw [← List.mem_append, List.take_append_drop]
    exact member
  have apart : v ∈ xs.take k → v ∉ xs.drop k := by
    have unique := numbered.nodup
    rw [← List.take_append_drop k xs] at unique
    exact fun left right => List.disjoint_of_nodup_append unique left right
  obtain early | late := lt_or_ge (index v) k
  · exact iff_of_false (apart (taken.mpr early)) (by omega)
  · exact iff_of_true (parts.resolve_left fun again => absurd (taken.mp again) (by omega)) (by omega)

/-- An index is the number of entries with smaller ones. -/
theorem Numbered.eq_countP (numbered : Numbered index xs) {v : α} (member : v ∈ xs) :
    index v = xs.countP fun w => decide (index w < index v) := by
  obtain ⟨slot, bound, _, atSlot⟩ := numbered.exists_slot member
  have front : (xs.take slot).countP (fun w => decide (index w < index v)) = slot := by
    rw [List.countP_eq_length.mpr fun w inside => ?_, List.length_take, min_eq_left bound.le]
    rw [decide_eq_true_eq, atSlot]
    exact (numbered.mem_take_iff (List.mem_of_mem_take inside) slot).mp inside
  have back : (xs.drop slot).countP (fun w => decide (index w < index v)) = 0 := by
    refine List.countP_eq_zero.mpr fun w inside => ?_
    rw [decide_eq_true_eq, atSlot, not_lt]
    exact (numbered.mem_drop_iff (List.mem_of_mem_drop inside) slot).mp inside
  rw [← List.take_append_drop slot xs, List.countP_append, front, back]
  exact atSlot

theorem Numbered.read (numbered : Numbered index xs) {fault : ε} {v : α} (member : v ∈ xs) :
    readAt fault xs (index v) = .ok v := by
  obtain ⟨slot, bound, rfl, atSlot⟩ := numbered.exists_slot member
  rw [atSlot, readAt_natCast bound]

variable [DecidableEq α]

/-- The Boolean vector that marks the chosen entries in their slots. -/
def flags (xs chosen : List α) : List Bool := xs.map (fun v => decide (v ∈ chosen))

@[simp] theorem flags_length (xs chosen : List α) : (flags xs chosen).length = xs.length :=
  List.length_map _

@[simp] theorem flags_nil (xs : List α) : flags xs [] = List.replicate xs.length false := by
  simp [flags, List.map_const']

/-- Only the choice among the listed entries matters. -/
theorem flags_congr {xs chosen other : List α} (same : ∀ v ∈ xs, v ∈ chosen ↔ v ∈ other) :
    flags xs chosen = flags xs other :=
  List.map_congr_left (fun v member => decide_eq_decide.mpr (same v member))

/-- Reading the flag of an entry decides its membership. -/
theorem Numbered.read_flags (numbered : Numbered index xs) {fault : ε} (chosen : List α) {v : α}
    (member : v ∈ xs) :
    readAt fault (flags xs chosen) (index v) = .ok (decide (v ∈ chosen)) := by
  obtain ⟨slot, bound, rfl, atSlot⟩ := numbered.exists_slot member
  rw [atSlot, readAt_natCast (by simpa using bound)]
  simp [flags]

/-- Every Boolean vector of the right length marks some entries. -/
theorem Numbered.exists_flags (numbered : Numbered index xs) (marks : List Bool)
    (length : marks.length = xs.length) :
    flags xs (xs.filter (fun v => marks[(index v).toNat]? == some true)) = marks := by
  apply List.ext_getElem (by simp [length])
  intro i left right
  simp only [flags_length] at left
  have own : (index xs[i]).toNat = i := by rw [numbered i left]; simp
  simp [flags, List.mem_filter, own, right]

/-- A vector with the right length is known by the reads through the index. -/
theorem Numbered.eq_flags (numbered : Numbered index xs) {fault : ε} {marks : List Bool}
    {chosen : List α} (length : marks.length = xs.length)
    (reads : ∀ v ∈ xs, readAt fault marks (index v) = .ok true ↔ v ∈ chosen) :
    marks = flags xs chosen := by
  have shape := numbered.exists_flags marks length
  rw [← shape] at reads ⊢
  apply flags_congr
  intro v member
  rw [← reads v member, numbered.read_flags _ member, Except.ok.injEq, decide_eq_true_iff]

/-- Writing the flag of one entry changes the choice of this entry alone. -/
theorem Numbered.write_flags (numbered : Numbered index xs) {fault : ε} {chosen other : List α}
    {v : α} (member : v ∈ xs) {value : Bool} (here : decide (v ∈ other) = value)
    (elsewhere : ∀ w ∈ xs, w ≠ v → (w ∈ chosen ↔ w ∈ other)) :
    writeAt fault (flags xs chosen) (index v) value = .ok (flags xs other) := by
  obtain ⟨slot, bound, rfl, atSlot⟩ := numbered.exists_slot member
  rw [atSlot, writeAt_natCast (by simpa using bound)]
  congr 1
  apply List.ext_getElem (by simp)
  intro i left right
  simp only [flags_length, List.length_set] at left
  rw [List.getElem_set]
  split_ifs with same
  · subst same
    simpa [flags] using here.symm
  · have different : xs[i] ≠ xs[slot] := by
      intro equal
      have := numbered i left
      rw [equal, atSlot] at this
      omega
    simpa [flags] using elsewhere xs[i] (List.getElem_mem left) different

/-- Entries of `xs` take their slot in `xs` as number; everything else keeps its number. -/
def renumber (index : α → ℤ) (xs : List α) (v : α) : ℤ :=
  if v ∈ xs then (xs.idxOf v : ℤ) else index v

theorem renumber_numbered (index : α → ℤ) (unique : xs.Nodup) :
    Numbered (renumber index xs) xs := by
  intro slot bound
  rw [renumber, if_pos (List.getElem_mem bound), unique.idxOf_getElem slot bound]

theorem renumber_of_notMem {v : α} (absent : v ∉ xs) : renumber index xs v = index v :=
  if_neg absent

/-- Renumbering a numbered list changes nothing. -/
theorem Numbered.renumber_eq (numbered : Numbered index xs) : renumber index xs = index := by
  funext v
  by_cases member : v ∈ xs
  · obtain ⟨slot, bound, rfl, atSlot⟩ := numbered.exists_slot member
    rw [renumber, if_pos member, atSlot, numbered.nodup.idxOf_getElem slot bound]
  · exact renumber_of_notMem member

/-- Numbering some entries anew changes nothing exactly if they stand in front, in their order. -/
theorem Numbered.renumber_eq_iff (numbered : Numbered index xs) (unique : ys.Nodup) (inside : ys ⊆ xs) :
    renumber index ys = index ↔ ys = xs.take ys.length := by
  constructor
  · intro unchanged
    have own := renumber_numbered index unique
    rw [unchanged] at own
    have shorter := (List.subperm_of_subset unique inside).length_le
    apply List.ext_getElem (by rw [List.length_take]; omega)
    intro i left right
    rw [List.getElem_take]
    apply numbered.injOn (inside (List.getElem_mem left)) (List.getElem_mem (by omega))
    rw [own i left, numbered i (by omega)]
  · intro inFront
    have front : Numbered index ys := by
      rw [inFront]
      intro slot bound
      rw [List.getElem_take]
      exact numbered slot (by rw [List.length_take] at bound; omega)
    exact front.renumber_eq

/-- Only the last of two renumberings of the same entries counts. -/
theorem renumber_renumber (members : ∀ v, v ∈ xs → v ∈ ys) :
    renumber (renumber index xs) ys = renumber index ys := by
  funext v
  by_cases member : v ∈ ys
  · simp only [renumber, if_pos member]
  · rw [renumber_of_notMem member, renumber_of_notMem member,
      renumber_of_notMem (fun old => member (members v old))]

/-- Appending one new entry gives it the next slot. -/
theorem renumber_append_singleton {v : α} (fresh : v ∉ xs) :
    renumber index (xs ++ [v]) =
      Function.update (renumber index xs) v (xs.length : ℤ) := by
  funext w
  obtain rfl | other := eq_or_ne w v
  · simp [renumber, List.idxOf_append_of_notMem fresh]
  · rw [Function.update_of_ne other]
    by_cases member : w ∈ xs
    · simp [renumber, member, List.idxOf_append_of_mem member]
    · rw [renumber_of_notMem member, renumber_of_notMem (by simp [member, other])]

/-- A suffix that is numbered in place may be left out of a renumbering. -/
theorem renumber_append
    (inPlace : ∀ slot (bound : slot < ys.length), index ys[slot] = xs.length + slot) :
    renumber index (xs ++ ys) = renumber index xs := by
  funext v
  by_cases member : v ∈ xs
  · simp [renumber, member, List.idxOf_append_of_mem member]
  · by_cases late : v ∈ ys
    · have bound := List.idxOf_lt_length_iff.mpr late
      have placed := inPlace (ys.idxOf v) bound
      rw [List.getElem_idxOf bound] at placed
      simp [renumber, member, late, List.idxOf_append_of_notMem member, placed]
    · rw [renumber_of_notMem member, renumber_of_notMem (by simp [member, late])]

end Numbering
