import DynamicDag.General.DepthFirst
import DynamicDag.General.Spending
import Mathlib.Algebra.BigOperators.Group.List.Basic
import Mathlib.Algebra.Order.BigOperators.Group.List
import Mathlib.Tactic.Ring

/-! # What a depth-first search looks at

Every round scans the neighbours of its node from the first one. A node with `d` neighbours is scanned
again after each neighbour it was left for, and each time at least one neighbour further: its scans look
at no more than `1 + 2 + ... + d` neighbours before the last scan and at `d` in it. The bound holds for
searches that meet a cycle, too.
-/

namespace DepthFirst

open Relation BoundedLoop

variable {α ε : Type*}

/-- The sum of the numbers up to `p`. -/
def triangle (p : ℕ) : ℕ := p * (p + 1) / 2

/-- What a node with `d` neighbours may cost. -/
def effort (d : ℕ) : ℕ := d * (d + 3) / 2

theorem triangle_succ (p : ℕ) : triangle (p + 1) = triangle p + (p + 1) := by
  rw [triangle, show (p + 1) * (p + 1 + 1) = p * (p + 1) + (p + 1) * 2 by ring, Nat.add_mul_div_right _ _ two_pos]
  rfl

theorem triangle_mono : Monotone triangle :=
  monotone_nat_of_le_succ fun p => by rw [triangle_succ]; exact Nat.le_add_right _ _

theorem triangle_add_self (d : ℕ) : triangle d + d = effort d := by
  rw [effort, show d * (d + 3) = d * (d + 1) + d * 2 by ring, Nat.add_mul_div_right _ _ two_pos]
  rfl

variable [DecidableEq α]

/-- The scan goes on after this neighbour. -/
def passed (available : α → Bool) (s : State α) (next : α) : Bool :=
  !decide (next ∈ s.stack) && !(available next && !decide (next ∈ s.finished))

/-- The neighbours that a scan looks at. -/
def looked (available : α → Bool) (s : State α) : List α → ℕ
  | [] => 0
  | next :: rest => if passed available s next then looked available s rest + 1 else 1

/-- The neighbours that the next round looks at. -/
def looks (succ : α → List α) (available : α → Bool) (s : State α) : ℕ :=
  match s.stack with
  | [] => 0
  | v :: _ => looked available s (succ v)

/-- A round pushes the neighbour that the scan found, or pops. -/
theorem step_cases {cycle : ε} {succ : α → List α} {available : α → Bool} {s next : State α}
    (moved : step cycle succ available s = .ok (some next)) :
    (∃ v w below, s.stack = v :: below ∧ scan cycle available s (succ v) = .ok (some w) ∧
        next = ⟨w :: v :: below, s.finished⟩) ∨
      ∃ v below, s.stack = v :: below ∧ scan cycle available s (succ v) = .ok none ∧
        next = ⟨below, v :: s.finished⟩ := by
  rcases s with ⟨_ | ⟨v, below⟩, finished⟩
  · simp [step] at moved
  · rw [step] at moved
    rcases outcome : scan cycle available ⟨v :: below, finished⟩ (succ v) with e | _ | w
    · simp [outcome, Except.map] at moved
    · simp only [outcome, Except.map, Except.ok.injEq, Option.some.injEq] at moved
      exact .inr ⟨v, below, rfl, outcome, moved.symm⟩
    · simp only [outcome, Except.map, Except.ok.injEq, Option.some.injEq] at moved
      exact .inl ⟨v, w, below, rfl, outcome, moved.symm⟩

theorem Inv.of_step {cycle : ε} {succ : α → List α} {available : α → Bool} {start : α} {s next : State α}
    (inv : Inv succ available start s) (moved : step cycle succ available s = .ok (some next)) :
    Inv succ available start next := by
  rcases s with ⟨stack, finished⟩
  obtain ⟨v, w, below, rfl, outcome, rfl⟩ | ⟨v, below, rfl, outcome, rfl⟩ := step_cases moved
  · obtain ⟨edge, usable, offPath, fresh⟩ := scan_some outcome
    exact inv.push edge usable offPath fresh
  · exact inv.pop (scan_none outcome)

section Scan

variable {cycle : ε} {available : α → Bool} {s : State α} {neighbours : List α}

theorem scan_cons (cycle : ε) (available : α → Bool) (s : State α) (next : α) (rest : List α) :
    scan cycle available s (next :: rest) =
      if next ∈ s.stack then .error cycle
      else if passed available s next then scan cycle available s rest else .ok (some next) := by
  by_cases onPath : next ∈ s.stack
  · rw [if_pos onPath, scan, if_pos onPath]
  · rw [if_neg onPath, scan, if_neg onPath]
    cases fresh : available next && !decide (next ∈ s.finished) <;> simp [passed, onPath, fresh]

theorem looked_le (available : α → Bool) (s : State α) (neighbours : List α) :
    looked available s neighbours ≤ neighbours.length := by
  induction neighbours with
  | nil => exact le_rfl
  | cons next rest ih =>
    rw [looked, List.length_cons]
    split_ifs <;> omega

/-- A scan that finds a neighbour has looked at those before it, and at it. -/
theorem looked_of_some {found : α} (outcome : scan cycle available s neighbours = .ok (some found)) :
    ∃ before after, neighbours = before ++ found :: after ∧ (∀ w ∈ before, passed available s w = true) ∧
      looked available s neighbours = before.length + 1 := by
  induction neighbours with
  | nil => simp [scan] at outcome
  | cons next rest ih =>
    rw [scan_cons] at outcome
    split_ifs at outcome with onPath goesOn
    · obtain ⟨before, after, rfl, all, count⟩ := ih outcome
      refine ⟨next :: before, after, rfl, List.forall_mem_cons.mpr ⟨goesOn, all⟩, ?_⟩
      rw [looked, if_pos goesOn, count, List.length_cons]
    · obtain rfl : next = found := by simpa using outcome
      refine ⟨[], rest, rfl, by simp, ?_⟩
      rw [looked, if_neg goesOn]
      rfl

/-- A scan goes on after the neighbours it may pass. -/
theorem scan_of_passed (cycle : ε) {before : List α} (all : ∀ w ∈ before, passed available s w = true)
    (after : List α) :
    scan cycle available s (before ++ after) = scan cycle available s after ∧
      looked available s (before ++ after) = before.length + looked available s after := by
  induction before with
  | nil => exact ⟨rfl, (Nat.zero_add _).symm⟩
  | cons w rest ih =>
    obtain ⟨here, later⟩ := List.forall_mem_cons.mp all
    obtain ⟨scanned, count⟩ := ih later
    have offPath : w ∉ s.stack := by
      simp only [passed, Bool.and_eq_true, Bool.not_eq_true', decide_eq_false_iff_not] at here
      exact here.1
    rw [List.cons_append, scan_cons, if_neg offPath, if_pos here, looked, if_pos here, scanned, count,
      List.length_cons]
    exact ⟨rfl, by omega⟩

end Scan

section Potential

variable {succ : α → List α} {available : α → Bool} {s t : State α}

/-- Not to be visited, or no longer. -/
def met (available : α → Bool) (s : State α) (w : α) : Bool :=
  !available w || decide (w ∈ s.stack ++ s.finished)

/-- How many neighbours the scan can skip for good. -/
def skipped (succ : α → List α) (available : α → Bool) (s : State α) (v : α) : ℕ :=
  ((succ v).takeWhile (met available s)).length

theorem met_of_passed {w : α} (goesOn : passed available s w = true) : met available s w = true := by
  simp only [passed, met, Bool.and_eq_true, Bool.or_eq_true, Bool.not_eq_true', Bool.and_eq_false_iff,
    decide_eq_true_eq, decide_eq_false_iff_not, List.mem_append, Bool.not_eq_false'] at *
  tauto

theorem skipped_le (succ : α → List α) (available : α → Bool) (s : State α) (v : α) :
    skipped succ available s v ≤ (succ v).length :=
  (List.takeWhile_sublist _).length_le

/-- What is skipped stays skipped. -/
theorem skipped_mono (grows : s.stack ++ s.finished ⊆ t.stack ++ t.finished) (v : α) :
    skipped succ available s v ≤ skipped succ available t v := by
  rw [skipped, skipped]
  induction succ v with
  | nil => exact le_rfl
  | cons w rest ih =>
    by_cases here : met available s w = true
    · have there : met available t w = true := by
        simp only [met, Bool.or_eq_true, decide_eq_true_eq] at here ⊢
        exact here.imp_right (@grows w)
      rw [List.takeWhile_cons_of_pos here, List.takeWhile_cons_of_pos there]
      exact Nat.succ_le_succ ih
    · rw [List.takeWhile_cons_of_neg here]
      exact Nat.zero_le _

/-- What the scans of the nodes met so far may have cost. -/
def credit (succ : α → List α) (available : α → Bool) (s : State α) : ℕ :=
  (s.stack.map fun v => triangle (skipped succ available s v)).sum +
    (s.finished.map fun v => effort (succ v).length).sum

theorem credit_le (succ : α → List α) (available : α → Bool) (s : State α) :
    credit succ available s ≤ ((s.stack ++ s.finished).map fun v => effort (succ v).length).sum := by
  rw [List.map_append, List.sum_append]
  refine Nat.add_le_add_right (List.sum_le_sum fun v _ => ?_) _
  have := triangle_mono (skipped_le succ available s v)
  have := triangle_add_self (succ v).length
  omega

theorem credit_top {v : α} {below finished : List α} :
    credit succ available ⟨v :: below, finished⟩ =
      triangle (skipped succ available ⟨v :: below, finished⟩ v) +
        (below.map fun w => triangle (skipped succ available ⟨v :: below, finished⟩ w)).sum +
          (finished.map fun w => effort (succ w).length).sum := by
  rw [credit, List.map_cons, List.sum_cons]

theorem sum_skipped_mono (succ : α → List α) (available : α → Bool)
    (grows : s.stack ++ s.finished ⊆ t.stack ++ t.finished) (path : List α) :
    (path.map fun v => triangle (skipped succ available s v)).sum ≤
      (path.map fun v => triangle (skipped succ available t v)).sum :=
  List.sum_le_sum fun v _ => triangle_mono (skipped_mono grows v)

/-- Leaving a node for one of its neighbours. -/
theorem credit_push {cycle : ε} {v next : α} {below finished : List α}
    (outcome : scan cycle available ⟨v :: below, finished⟩ (succ v) = .ok (some next)) :
    credit succ available ⟨v :: below, finished⟩ + looked available ⟨v :: below, finished⟩ (succ v) ≤
      credit succ available ⟨next :: v :: below, finished⟩ := by
  obtain ⟨_, usable, offPath, fresh⟩ := scan_some outcome
  obtain ⟨before, after, split, all, count⟩ := looked_of_some outcome
  have skips : ∀ w ∈ before, met available ⟨v :: below, finished⟩ w = true := fun w member =>
    met_of_passed (all w member)
  have stops : ¬ met available ⟨v :: below, finished⟩ next = true := by
    simp only [met, usable, Bool.not_true, Bool.false_or, decide_eq_true_eq, List.mem_append, not_or]
    exact ⟨offPath, fresh⟩
  have grows : v :: below ++ finished ⊆ next :: v :: below ++ finished := List.subset_cons_self _ _
  have sofar : skipped succ available ⟨v :: below, finished⟩ v = before.length := by
    rw [skipped, split, List.takeWhile_append_of_pos skips, List.takeWhile_cons_of_neg stops, List.append_nil]
  have further : before.length + 1 ≤ skipped succ available ⟨next :: v :: below, finished⟩ v := by
    have more : ∀ w ∈ before, met available ⟨next :: v :: below, finished⟩ w = true := by
      intro w member
      have := skips w member
      simp only [met, Bool.or_eq_true, decide_eq_true_eq] at this ⊢
      exact this.imp_right (@grows w)
    have reached : met available ⟨next :: v :: below, finished⟩ next = true := by simp [met]
    rw [skipped, split, List.takeWhile_append_of_pos more, List.takeWhile_cons_of_pos reached, List.length_append,
      List.length_cons]
    omega
  have step := triangle_mono further
  have rest := sum_skipped_mono succ available (s := ⟨v :: below, finished⟩)
    (t := ⟨next :: v :: below, finished⟩) grows below
  rw [triangle_succ] at step
  rw [credit_top, credit_top, List.map_cons, List.sum_cons, sofar, count]
  omega

/-- Leaving a node for good. -/
theorem credit_pop {v : α} {below finished : List α} :
    credit succ available ⟨v :: below, finished⟩ + looked available ⟨v :: below, finished⟩ (succ v) ≤
      credit succ available ⟨below, v :: finished⟩ := by
  have grows : v :: below ++ finished ⊆ below ++ v :: finished := List.perm_middle.symm.subset
  have rest := sum_skipped_mono succ available (s := ⟨v :: below, finished⟩)
    (t := ⟨below, v :: finished⟩) grows below
  have top := triangle_mono (skipped_le succ available ⟨v :: below, finished⟩ v)
  have last := looked_le available ⟨v :: below, finished⟩ (succ v)
  have whole := triangle_add_self (succ v).length
  rw [credit_top, credit, List.map_cons, List.sum_cons]
  dsimp only at rest ⊢
  omega

end Potential

section Search

variable {succ : α → List α}

/-- In every search, the rounds charge no more than the weights of the nodes it reaches. -/
def Affords (succ : α → List α) (cycle exhausted : ε) (charge : (α → Bool) → State α → ℕ)
    (weight : α → ℕ) : Prop :=
  ∀ (available : α → Bool) (start : α) (fuel : ℕ), ∃ part : List α, part.Nodup ∧
    (∀ v ∈ part, Reach succ available start v) ∧
    spent (charge available) (step cycle succ available) fuel ⟨[start], []⟩ ≤ (part.map weight).sum ∧
    ∀ found, search cycle exhausted succ available fuel start = .ok found → part = found

/-- A potential that pays for every round, up to the weights of the nodes met. -/
theorem affords_of_potential (cycle exhausted : ε) {charge : (α → Bool) → State α → ℕ} {weight : α → ℕ}
    (potential : (α → Bool) → State α → ℕ)
    (pays : ∀ available (s next : State α), step cycle succ available s = .ok (some next) →
      potential available s + charge available s ≤ potential available next)
    (top : ∀ available (s : State α), s.stack ≠ [] →
      potential available s + charge available s ≤ ((s.stack ++ s.finished).map weight).sum)
    (below : ∀ available (s : State α), potential available s ≤ ((s.stack ++ s.finished).map weight).sum) :
    Affords succ cycle exhausted charge weight := by
  intro available start fuel
  obtain ⟨last, inv, bound, same⟩ := exists_spent_le (Inv succ available start) (potential available)
    (fun s => ((s.stack ++ s.finished).map weight).sum)
    (fun s next inv moved => ⟨inv.of_step moved, pays available s next moved⟩)
    (fun s e _ failed => top available s fun empty => by simp [step, empty] at failed)
    (fun s _ => below available s) exhausted fuel (Inv.init succ available start)
  refine ⟨last.stack ++ last.finished, inv.unique, inv.reached, (Nat.le_add_left _ _).trans bound, ?_⟩
  intro found returned
  rw [search] at returned
  rcases outcome : run exhausted (step cycle succ available) fuel ⟨[start], []⟩ with e | t
  · simp [outcome, Except.map] at returned
  · obtain rfl := same t outcome
    simp only [outcome, Except.map, Except.ok.injEq] at returned
    rw [stack_of_stop (stopped_of_run outcome), List.nil_append, returned]

/-- Every node is pushed once and popped once. -/
theorem rounds_affordable (succ : α → List α) (cycle exhausted : ε) :
    Affords succ cycle exhausted (fun _ _ => 1) fun _ => 2 := by
  have total (s : State α) :
      ((s.stack ++ s.finished).map fun _ => 2).sum = 2 * (s.stack.length + s.finished.length) := by
    simp [mul_comm]
  refine affords_of_potential cycle exhausted (fun _ s => s.stack.length + 2 * s.finished.length) ?pays ?top ?below
  case pays =>
    intro available s next moved
    obtain ⟨v, w, below, rest, _, rfl⟩ | ⟨v, below, rest, _, rfl⟩ := step_cases moved
    · simp only [rest, List.length_cons]
      omega
    · simp only [rest, List.length_cons]
      omega
  case top =>
    intro available s busy
    have := List.length_pos_of_ne_nil busy
    rw [total]
    omega
  case below =>
    intro available s
    rw [total]
    omega

/-- A search that returns makes two rounds for every node but one for the start, which is there from the beginning. -/
theorem spent_rounds_eq {cycle exhausted : ε} {available : α → Bool} {fuel : ℕ} {start : α} {found : List α}
    (returned : search cycle exhausted succ available fuel start = .ok found) :
    1 + spent (fun _ => 1) (step cycle succ available) fuel ⟨[start], []⟩ = 2 * found.length := by
  rw [search] at returned
  rcases outcome : run exhausted (step cycle succ available) fuel ⟨[start], []⟩ with e | t
  · simp [outcome, Except.map] at returned
  · have pays : ∀ s next : State α, True → step cycle succ available s = .ok (some next) →
        True ∧ s.stack.length + 2 * s.finished.length + 1 = next.stack.length + 2 * next.finished.length := by
      intro s next _ moved
      refine ⟨trivial, ?_⟩
      obtain ⟨v, w, below, rest, _, rfl⟩ | ⟨v, below, rest, _, rfl⟩ := step_cases moved
      · simp only [rest, List.length_cons]
        omega
      · simp only [rest, List.length_cons]
        omega
    have total := spent_eq pays trivial outcome
    simp only [outcome, Except.map, Except.ok.injEq] at returned
    rw [stack_of_stop (stopped_of_run outcome), returned] at total
    simpa using total

/-- A node with `d` neighbours costs at most `d * (d + 3) / 2` looks. -/
theorem looks_affordable (succ : α → List α) (cycle exhausted : ε) :
    Affords succ cycle exhausted (looks succ) fun v => effort (succ v).length := by
  refine affords_of_potential cycle exhausted (credit succ) ?pays ?top fun available s => credit_le succ available s
  case pays =>
    intro available s next moved
    obtain ⟨v, w, below, rest, outcome, rfl⟩ | ⟨v, below, rest, _, rfl⟩ := step_cases moved
    · rcases s with ⟨stack, finished⟩
      obtain rfl : stack = v :: below := rest
      exact credit_push outcome
    · rcases s with ⟨stack, finished⟩
      obtain rfl : stack = v :: below := rest
      exact credit_pop
  case top =>
    rintro available ⟨_ | ⟨v, below⟩, finished⟩ busy
    · exact absurd rfl busy
    · have moved : (below ++ v :: finished).Perm (v :: below ++ finished) := List.perm_middle
      have bound := credit_pop.trans (credit_le succ available ⟨below, v :: finished⟩)
      rwa [(moved.map _).sum_eq] at bound

/-- The bound is reached where all neighbours are dead ends: each of them is found anew from the first. -/
theorem spent_looks_star (cycle : ε) {available : α → Bool} {center : α}
    (leaves : ∀ w ∈ succ center, succ w = []) (usable : ∀ w ∈ succ center, available w = true)
    (apart : center ∉ succ center) (unique : (succ center).Nodup)
    {done rest finished : List α} (split : succ center = done ++ rest) (seen : ∀ w, w ∈ finished ↔ w ∈ done)
    {fuel : ℕ} (enough : 2 * rest.length < fuel) :
    triangle done.length + spent (looks succ available) (step cycle succ available) fuel ⟨[center], finished⟩ =
      effort (succ center).length := by
  have passes : ∀ done finished : List α, done ⊆ succ center → (∀ w, w ∈ finished ↔ w ∈ done) →
      ∀ w ∈ done, passed available ⟨[center], finished⟩ w = true := by
    intro done finished inside seen w member
    have different : w ≠ center := fun same => apart (same ▸ inside member)
    simp [passed, different, (seen w).mpr member]
  induction rest generalizing done finished fuel with
  | nil =>
    obtain ⟨fuel, rfl⟩ := Nat.exists_eq_succ_of_ne_zero (Nat.ne_zero_of_lt enough)
    rw [List.append_nil] at split
    obtain ⟨scanned, count⟩ := scan_of_passed cycle (passes done finished (split ▸ List.Subset.refl _) seen) []
    rw [List.append_nil, ← split] at scanned count
    have moved : step cycle succ available ⟨[center], finished⟩ = .ok (some ⟨[], center :: finished⟩) := by
      simp only [step, scanned]
      rfl
    have ended : spent (looks succ available) (step cycle succ available) fuel ⟨[], center :: finished⟩ = 0 := by
      cases fuel with
      | zero => rfl
      | succ fuel => exact spent_stop rfl
    rw [spent_next moved, ended, ← split]
    simp only [looks, count]
    exact triangle_add_self _
  | cons w rest ih =>
    rw [List.length_cons] at enough
    obtain ⟨fuel, rfl⟩ : ∃ more, fuel = more + 1 + 1 := ⟨fuel - 2, by omega⟩
    have member : w ∈ succ center := by simp [split]
    have different : w ≠ center := fun same => apart (same ▸ member)
    have fresh : w ∉ done := by
      rw [split] at unique
      exact fun again => (List.nodup_append.mp unique).2.2 w again w List.mem_cons_self rfl
    have stops : ¬ passed available ⟨[center], finished⟩ w = true := by
      simp [passed, different, usable w member, mt (seen w).mp fresh]
    obtain ⟨scanned, count⟩ := scan_of_passed cycle
      (passes done finished (split ▸ List.subset_append_left _ _) seen) (w :: rest)
    rw [← split, scan_cons, if_neg (by simpa using different), if_neg stops] at scanned
    rw [← split, looked, if_neg stops] at count
    have pushed : step cycle succ available ⟨[center], finished⟩ = .ok (some ⟨[w, center], finished⟩) := by
      simp only [step, scanned]
      rfl
    have popped : step cycle succ available ⟨[w, center], finished⟩ = .ok (some ⟨[center], w :: finished⟩) := by
      simp only [step, leaves w member]
      rfl
    have seenNext : ∀ u, u ∈ w :: finished ↔ u ∈ done ++ [w] := by simp [seen, or_comm]
    have later := ih (by simpa using split : succ center = done ++ [w] ++ rest) seenNext
      (by omega : 2 * rest.length < fuel)
    rw [List.length_append, List.length_singleton, triangle_succ] at later
    rw [spent_next pushed, spent_next popped, ← later]
    simp only [looks, count, leaves w member, looked]
    omega

theorem spent_looks_fan (cycle : ε) {available : α → Bool} {center : α}
    (leaves : ∀ w ∈ succ center, succ w = []) (usable : ∀ w ∈ succ center, available w = true)
    (apart : center ∉ succ center) (unique : (succ center).Nodup)
    {fuel : ℕ} (enough : 2 * (succ center).length < fuel) :
    spent (looks succ available) (step cycle succ available) fuel ⟨[center], []⟩ =
      effort (succ center).length := by
  have whole := spent_looks_star cycle leaves usable apart unique (List.nil_append _).symm (fun _ => Iff.rfl) enough
  simpa [triangle] using whole

end Search

end DepthFirst
