import DynamicDag.General.BoundedLoop
import DynamicDag.General.Acyclic
import Mathlib.Data.List.Chain
import Mathlib.Data.List.Perm.Subperm
import Mathlib.Tactic.Common

/-! # Depth-first search with cycle detection

The search keeps the current path as a stack and the list of finished nodes, last finished first.
A neighbour on the path closes a cycle and ends the search; an available neighbour that is neither
on the path nor finished extends the path; otherwise the top of the path is finished. The neighbours
of a node are scanned from the beginning each time.

One invariant carries the results: every successor of a finished node was finished before it, or is
blocked, that is unavailable and not the start. Hence the finished nodes are exactly the reached
ones, they are listed in topological order, and they contain no cycle.
-/

namespace DepthFirst

open Relation BoundedLoop

variable {α ε : Type*}

/-- The path from the start to the current node, last node first, and the nodes left behind. -/
structure State (α : Type*) where
  stack : List α
  finished : List α

section Search

variable [DecidableEq α]

/-- The first neighbour that extends the path. -/
def scan (cycle : ε) (available : α → Bool) (s : State α) : List α → Except ε (Option α)
  | [] => .ok none
  | next :: rest =>
    if next ∈ s.stack then .error cycle
    else if available next && !decide (next ∈ s.finished) then .ok (some next)
    else scan cycle available s rest

/-- Extend the path or finish its last node. -/
def step (cycle : ε) (succ : α → List α) (available : α → Bool) (s : State α) :
    Except ε (Option (State α)) :=
  match s.stack with
  | [] => .ok none
  | v :: below =>
    (scan cycle available s (succ v)).map fun found =>
      match found with
      | some next => some ⟨next :: v :: below, s.finished⟩
      | none => some ⟨below, v :: s.finished⟩

/-- Search from `start` and list what was finished, last finished first. -/
def search (cycle exhausted : ε) (succ : α → List α) (available : α → Bool) (fuel : ℕ) (start : α) :
    Except ε (List α) :=
  (run exhausted (step cycle succ available) fuel ⟨[start], []⟩).map State.finished

end Search

/-- Reached from `start` through available nodes; the start itself need not be available. -/
def Reach (succ : α → List α) (available : α → Bool) (start : α) : α → Prop :=
  ReflTransGen (fun v w => w ∈ succ v ∧ available w = true) start

/-- An edge between two reached nodes. -/
def Inner (succ : α → List α) (available : α → Bool) (start v w : α) : Prop :=
  w ∈ succ v ∧ Reach succ available start v ∧ Reach succ available start w

/-- Every successor of a listed node comes later in the list or is blocked. -/
def Settled (succ : α → List α) (blocked : α → Prop) : List α → Prop
  | [] => True
  | v :: rest => (∀ w ∈ succ v, w ∈ rest ∨ blocked w) ∧ Settled succ blocked rest

/-- Nodes at which a search from `start` stops. -/
def Blocked (available : α → Bool) (start w : α) : Prop := available w = false ∧ w ≠ start

theorem Reach.not_blocked {succ : α → List α} {available : α → Bool} {start v : α}
    (reached : Reach succ available start v) : ¬ Blocked available start v := by
  rintro ⟨unavailable, different⟩
  cases reached with
  | refl => exact different rfl
  | tail _ last => simp [last.2] at unavailable

theorem Settled.mem {succ : α → List α} {blocked : α → Prop} {found : List α}
    (settled : Settled succ blocked found) {v w : α} (member : v ∈ found) (edge : w ∈ succ v)
    (free : ¬ blocked w) : w ∈ found := by
  induction found with
  | nil => simp at member
  | cons first rest ih =>
    rcases List.mem_cons.mp member with rfl | later
    · exact List.mem_cons_of_mem _ ((settled.1 w edge).resolve_right free)
    · exact List.mem_cons_of_mem _ (ih settled.2 later)

/-- Along an edge that is not blocked the position in a settled list grows. -/
theorem Settled.idxOf_lt [DecidableEq α] {succ : α → List α} {blocked : α → Prop} {found : List α}
    (settled : Settled succ blocked found) (unique : found.Nodup) {v w : α} (member : v ∈ found)
    (edge : w ∈ succ v) (free : ¬ blocked w) : found.idxOf v < found.idxOf w := by
  induction found with
  | nil => simp at member
  | cons first rest ih =>
    obtain ⟨fresh, uniqueRest⟩ := List.nodup_cons.mp unique
    rcases List.mem_cons.mp member with rfl | later
    · have after := (settled.1 w edge).resolve_right free
      have different : v ≠ w := fun same => fresh (same ▸ after)
      rw [List.idxOf_cons_self, List.idxOf_cons_ne rest different]
      omega
    · have target := settled.2.mem later edge free
      have differentSource : first ≠ v := fun same => fresh (same ▸ later)
      have differentTarget : first ≠ w := fun same => fresh (same ▸ target)
      rw [List.idxOf_cons_ne rest differentSource, List.idxOf_cons_ne rest differentTarget]
      have := ih settled.2 uniqueRest later
      omega

/-- What a completed search delivers. -/
structure Result (succ : α → List α) (available : α → Bool) (start : α) (found : List α) : Prop where
  nodup : found.Nodup
  mem_iff : ∀ v, v ∈ found ↔ Reach succ available start v
  settled : Settled succ (Blocked available start) found

/-- A completed search has met no cycle. -/
theorem Result.acyclic [DecidableEq α] {succ : α → List α} {available : α → Bool} {start : α}
    {found : List α} (result : Result succ available start found) :
    Acyclic (Inner succ available start) :=
  Acyclic.of_rank found.idxOf fun v _ edge =>
    result.settled.idxOf_lt result.nodup ((result.mem_iff v).mpr edge.2.1) edge.1
      edge.2.2.not_blocked

section Invariant

variable {succ : α → List α} {available : α → Bool} {start : α}

/-- The loop invariant of the search. -/
structure Inv (succ : α → List α) (available : α → Bool) (start : α) (s : State α) : Prop where
  path : s.stack.IsChain (fun above below => Inner succ available start below above)
  unique : (s.stack ++ s.finished).Nodup
  reached : ∀ v ∈ s.stack ++ s.finished, Reach succ available start v
  rooted : (∃ front, s.stack = front ++ [start]) ∨ s.stack = [] ∧ start ∈ s.finished
  settled : Settled succ (Blocked available start) s.finished

theorem Inv.init (succ : α → List α) (available : α → Bool) (start : α) :
    Inv succ available start ⟨[start], []⟩ where
  path := .singleton start
  unique := by simp
  reached := by
    intro v member
    obtain rfl : v = start := by simpa using member
    exact .refl
  rooted := .inl ⟨[], rfl⟩
  settled := trivial

/-- Every node of the path leads to its last node inside the reached set. -/
theorem reaches_top {v d : α} {below : List α}
    (path : (v :: below).IsChain (fun above below => Inner succ available start below above))
    (member : d ∈ v :: below) : ReflTransGen (Inner succ available start) d v := by
  induction below generalizing v with
  | nil =>
    obtain rfl : d = v := by simpa using member
    exact .refl
  | cons next rest ih =>
    rcases List.mem_cons.mp member with rfl | later
    · exact .refl
    · obtain ⟨edge, tail⟩ := List.isChain_cons_cons.mp path
      exact (ih tail later).tail edge

theorem Inv.push {v next : α} {below finished : List α}
    (inv : Inv succ available start ⟨v :: below, finished⟩) (edge : next ∈ succ v)
    (usable : available next = true) (offPath : next ∉ v :: below) (fresh : next ∉ finished) :
    Inv succ available start ⟨next :: v :: below, finished⟩ := by
  have top : Reach succ available start v := inv.reached v (by simp)
  have grown : Reach succ available start next := ReflTransGen.tail top ⟨edge, usable⟩
  refine ⟨List.isChain_cons_cons.mpr ⟨⟨edge, top, grown⟩, inv.path⟩, ?_, ?_, ?_, inv.settled⟩
  · refine List.nodup_cons.mpr ⟨?_, inv.unique⟩
    change next ∉ v :: below ++ finished
    simp only [List.mem_append, not_or]
    exact ⟨offPath, fresh⟩
  · intro w member
    rcases List.mem_cons.mp member with rfl | old
    · exact grown
    · exact inv.reached w old
  · obtain ⟨front, shape⟩ | ⟨empty, _⟩ := inv.rooted
    · exact .inl ⟨next :: front, by simpa using shape⟩
    · simp at empty

theorem Inv.pop {v : α} {below finished : List α}
    (inv : Inv succ available start ⟨v :: below, finished⟩)
    (passed : ∀ next ∈ succ v, next ∉ v :: below ∧ (available next = true → next ∈ finished)) :
    Inv succ available start ⟨below, v :: finished⟩ := by
  have moved : (below ++ v :: finished).Perm (v :: below ++ finished) := List.perm_middle
  refine ⟨inv.path.tail, moved.nodup_iff.mpr inv.unique,
    fun w member => inv.reached w (moved.mem_iff.mp member), ?_, ⟨?_, inv.settled⟩⟩
  · obtain ⟨front, shape⟩ | ⟨empty, _⟩ := inv.rooted
    · cases front with
      | nil =>
        obtain ⟨rfl, rfl⟩ : v = start ∧ below = [] := by simpa using shape
        exact .inr ⟨rfl, List.mem_cons_self⟩
      | cons _ front => exact .inl ⟨front, (List.cons.inj shape).2⟩
    · simp at empty
  · -- the start is still on the path, so a scanned neighbour differs from it
    have root : start ∈ v :: below := by
      obtain ⟨front, shape⟩ | ⟨empty, _⟩ := inv.rooted
      · rw [show v :: below = front ++ [start] from shape]
        simp
      · simp at empty
    intro w edge
    by_cases usable : available w = true
    · exact .inl ((passed w edge).2 usable)
    · refine .inr ⟨by simpa using usable, ?_⟩
      rintro rfl
      exact (passed w edge).1 root

/-- Twice the nodes not yet met, and one for every node on the path. -/
def remaining (nodes : List α) (s : State α) : ℕ :=
  2 * (nodes.length - (s.stack ++ s.finished).length) + s.stack.length

theorem Inv.length_le {nodes : List α} {s : State α} (inv : Inv succ available start s)
    (inside : ∀ v, Reach succ available start v → v ∈ nodes) :
    (s.stack ++ s.finished).length ≤ nodes.length :=
  (inv.unique.subperm fun v member => inside v (inv.reached v member)).length_le

theorem Inv.result {s : State α} (inv : Inv succ available start s) (empty : s.stack = []) :
    Result succ available start s.finished := by
  have root : start ∈ s.finished := by
    obtain ⟨front, shape⟩ | ⟨_, member⟩ := inv.rooted
    · simp [empty] at shape
    · exact member
  refine ⟨by simpa [empty] using inv.unique, fun v => ⟨?_, fun reached => ?_⟩, inv.settled⟩
  · exact fun member => inv.reached v (List.mem_append_right _ member)
  · induction reached with
    | refl => exact root
    | tail before last ih =>
      exact inv.settled.mem ih last.1 (Reach.not_blocked (ReflTransGen.tail before last))

end Invariant

section Correctness

variable [DecidableEq α] {cycle exhausted : ε} {succ : α → List α} {available : α → Bool} {start : α}

theorem scan_error {s : State α} {neighbours : List α} {e : ε}
    (failed : scan cycle available s neighbours = .error e) :
    e = cycle ∧ ∃ next ∈ neighbours, next ∈ s.stack := by
  induction neighbours with
  | nil => simp [scan] at failed
  | cons next rest ih =>
    simp only [scan] at failed
    split_ifs at failed with onPath free
    · exact ⟨(Except.error.inj failed).symm, next, List.mem_cons_self, onPath⟩
    · obtain ⟨same, other, member, onPath⟩ := ih failed
      exact ⟨same, other, List.mem_cons_of_mem _ member, onPath⟩

theorem scan_some {s : State α} {neighbours : List α} {next : α}
    (found : scan cycle available s neighbours = .ok (some next)) :
    next ∈ neighbours ∧ available next = true ∧ next ∉ s.stack ∧ next ∉ s.finished := by
  induction neighbours with
  | nil => simp [scan] at found
  | cons first rest ih =>
    simp only [scan] at found
    split_ifs at found with onPath free
    · simp only [Except.ok.injEq, Option.some.injEq] at found
      subst found
      simp only [Bool.and_eq_true, Bool.not_eq_true', decide_eq_false_iff_not] at free
      exact ⟨List.mem_cons_self, free.1, onPath, free.2⟩
    · exact ⟨List.mem_cons_of_mem _ (ih found).1, (ih found).2⟩

theorem scan_none {s : State α} {neighbours : List α}
    (passed : scan cycle available s neighbours = .ok none) :
    ∀ next ∈ neighbours, next ∉ s.stack ∧ (available next = true → next ∈ s.finished) := by
  induction neighbours with
  | nil => simp
  | cons first rest ih =>
    simp only [scan] at passed
    split_ifs at passed with onPath free
    · simp at passed
    · intro next member
      rcases List.mem_cons.mp member with rfl | later
      · refine ⟨onPath, fun usable => ?_⟩
        simpa [usable] using free
      · exact ih passed next later

theorem round (cycle : ε) {nodes : List α} (inside : ∀ v, Reach succ available start v → v ∈ nodes)
    (s : State α) (inv : Inv succ available start s) :
    Round (Inv succ available start) (remaining nodes)
      (fun e => e = cycle ∧ ∃ c, TransGen (Inner succ available start) c c) s
      (step cycle succ available s) := by
  rcases s with ⟨_ | ⟨v, below⟩, finished⟩
  · trivial
  · simp only [step]
    rcases outcome : scan cycle available ⟨v :: below, finished⟩ (succ v) with e | found
    · obtain ⟨same, next, edge, onPath⟩ := scan_error outcome
      have back := reaches_top inv.path onPath
      have closing : Inner succ available start v next :=
        ⟨edge, inv.reached v (by simp), inv.reached next (List.mem_append_left _ onPath)⟩
      exact ⟨same, v, TransGen.head' closing back⟩
    · cases found with
      | some next =>
        obtain ⟨edge, usable, offPath, fresh⟩ := scan_some outcome
        have grown := inv.push edge usable offPath fresh
        have room := grown.length_le inside
        refine ⟨grown, ?_⟩
        simp only [remaining, List.length_append, List.length_cons] at room ⊢
        omega
      | none =>
        refine ⟨inv.pop (scan_none outcome), ?_⟩
        simp only [remaining, List.length_append, List.length_cons]
        omega

/-- The loop stops when the path is empty. -/
theorem stack_of_stop {s : State α} (stop : step cycle succ available s = .ok none) : s.stack = [] := by
  rcases s with ⟨_ | ⟨v, below⟩, finished⟩
  · rfl
  · simp only [step] at stop
    cases outcome : scan cycle available ⟨v :: below, finished⟩ (succ v) with
    | error e => simp [outcome, Except.map] at stop
    | ok found => cases found <;> simp [outcome, Except.map] at stop

/-- With room for two rounds a node, the search either delivers its result or has met a cycle
among the reached nodes. -/
theorem search_cases (cycle exhausted : ε) {nodes : List α} {fuel : ℕ}
    (inside : ∀ v, Reach succ available start v → v ∈ nodes) (enough : 2 * nodes.length ≤ fuel) :
    (∃ found, search cycle exhausted succ available fuel start = .ok found ∧
      Result succ available start found) ∨
    search cycle exhausted succ available fuel start = .error cycle ∧
      ∃ c, TransGen (Inner succ available start) c c := by
  have room := (Inv.init succ available start).length_le inside
  have bounded : remaining nodes (⟨[start], []⟩ : State α) < fuel := by
    simp only [remaining, List.length_append, List.length_cons, List.length_nil] at room ⊢
    omega
  obtain ⟨t, returned, inv, stop⟩ | ⟨e, failed, rfl, onCycle⟩ :=
    run_rule exhausted (round cycle inside) (Inv.init succ available start) bounded
  · exact .inl ⟨t.finished, by simp [search, returned, Except.map], inv.result (stack_of_stop stop)⟩
  · exact .inr ⟨by simp [search, failed, Except.map], onCycle⟩

/-- A search reads the successors of the nodes it reaches, and no others. -/
theorem search_congr (cycle exhausted : ε) {other : α → List α}
    (same : ∀ v, Reach succ available start v → other v = succ v) (fuel : ℕ) :
    search cycle exhausted other available fuel start = search cycle exhausted succ available fuel start := by
  have follows : ∀ s : State α, (∀ v ∈ s.stack, Reach succ available start v) →
      step cycle other available (id s) = (step cycle succ available s).map (Option.map id) := by
    intro s reached
    have unchanged : step cycle other available s = step cycle succ available s := by
      rcases s with ⟨_ | ⟨v, below⟩, finished⟩
      · rfl
      · simp only [step, same v (reached v List.mem_cons_self)]
    rw [id_eq, unchanged, Option.map_id]
    exact (congrFun Except.map_id _).symm
  have keeps : ∀ s next : State α, (∀ v ∈ s.stack, Reach succ available start v) →
      step cycle succ available s = .ok (some next) → ∀ v ∈ next.stack, Reach succ available start v := by
    intro s next reached moved
    rcases s with ⟨_ | ⟨v, below⟩, finished⟩
    · cases moved
    · rw [step] at moved
      rcases outcome : scan cycle available ⟨v :: below, finished⟩ (succ v) with e | _ | w
      · simp [outcome, Except.map] at moved
      · simp only [outcome, Except.map, Except.ok.injEq, Option.some.injEq] at moved
        subst moved
        exact fun u member => reached u (List.mem_cons_of_mem _ member)
      · obtain ⟨edge, usable, _⟩ := scan_some outcome
        simp only [outcome, Except.map, Except.ok.injEq, Option.some.injEq] at moved
        subst moved
        exact List.forall_mem_cons.mpr ⟨(reached v List.mem_cons_self).tail ⟨edge, usable⟩, reached⟩
  have start : ∀ v ∈ (⟨[start], []⟩ : State α).stack, Reach succ available start v :=
    List.forall_mem_singleton.mpr .refl
  have runs := run_refines exhausted id follows keeps fuel start
  rw [Except.map_id] at runs
  simp only [search]
  exact congrArg _ runs

end Correctness

end DepthFirst
