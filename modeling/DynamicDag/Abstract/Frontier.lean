import DynamicDag.General.DepthFirst
import DynamicDag.General.Numbering
import DynamicDag.General.Reinsertion

/-! # Frontier pairs of a batch of edges

A numbering of the nodes is to be repaired after edges were added that do not ascend in it. Each such
edge `(x, y)` asks that everything reached from `y` below `x` be moved after `x`. `collect` searches
from the heads in descending order of the tails, each search stopping at nodes found before, and pairs
every node with the tail of the search that found it. `Frontier` states what the pairs are good for:
a node is paired exactly if some edge asks for its move, always with the highest such tail, and
the pairs are listed in an order in which they can be carried out.
-/

namespace DynamicDag

open Relation Numbering Reinsertion

variable {α ε : Type*}

/-- Reached from `y` through nodes below `x`. -/
def ReachBelow (succ : α → List α) (index : α → ℤ) (x y : α) : α → Prop :=
  ReflTransGen (fun v w => w ∈ succ v ∧ index w < index x) y

/-- A directed cycle among the nodes reached from `y` below `x`. -/
def ClosesBelow (succ : α → List α) (index : α → ℤ) (x y : α) : Prop :=
  ∃ c, TransGen (fun v w => w ∈ succ v ∧ ReachBelow succ index x y v ∧ ReachBelow succ index x y w) c c

section Congr

variable {succ other : α → List α} {index : α → ℤ} {x y : α}
  (same : ∀ v, ReachBelow succ index x y v → other v = succ v)

include same

theorem ReachBelow.congr (v : α) : ReachBelow succ index x y v ↔ ReachBelow other index x y v :=
  reflTransGen_congr_of_reached (fun v reach w => by rw [same v reach]) v

theorem ClosesBelow.congr : ClosesBelow succ index x y ↔ ClosesBelow other index x y := by
  have inner : (fun v w => w ∈ succ v ∧ ReachBelow succ index x y v ∧ ReachBelow succ index x y w) =
      fun v w => w ∈ other v ∧ ReachBelow other index x y v ∧ ReachBelow other index x y w := by
    funext v w
    rw [← ReachBelow.congr same, ← ReachBelow.congr same]
    exact propext (and_congr_left fun reach => by rw [same v reach.1])
  rw [ClosesBelow, inner]
  rfl

end Congr

/-- Every successor of a paired node is paired later in the list or is not below its tail. -/
def SettledBelow (succ : α → List α) (index : α → ℤ) : List (α × α) → Prop
  | [] => True
  | (v, x) :: rest =>
    (∀ w ∈ succ v, w ∈ rest.map Prod.fst ∨ index x ≤ index w) ∧ SettledBelow succ index rest

/-- The edges a search starts from: present, not ascending, highest tail first. -/
structure Listed (succ : α → List α) (index : α → ℤ) (nodes : List α) (edges : List (α × α)) : Prop where
  members : ∀ e ∈ edges, e.1 ∈ nodes ∧ e.2 ∈ nodes
  present : ∀ e ∈ edges, e.2 ∈ succ e.1
  invalidating : ∀ e ∈ edges, index e.2 ≤ index e.1
  descending : edges.Pairwise (fun e f => index f.1 ≤ index e.1)

/-- The frontier pairs of a list of edges, next move first. -/
structure Frontier (succ : α → List α) (index : α → ℤ) (edges found : List (α × α)) : Prop where
  nodup : (found.map Prod.fst).Nodup
  settled : SettledBelow succ index found
  source : ∀ m ∈ found, ∃ y, (m.2, y) ∈ edges ∧ ReachBelow succ index m.2 y m.1
  below : ∀ m ∈ found, index m.1 < index m.2
  reached : ∀ e ∈ edges, ∀ v, ReachBelow succ index e.1 e.2 v →
    ∃ m ∈ found, m.1 = v ∧ index e.1 ≤ index m.2
  ordered : found.Pairwise (fun m n => index m.2 ≤ index n.2)
  fixed : ∀ m ∈ found, m.2 ∉ found.map Prod.fst

section Collect

variable [DecidableEq α]

/-- Nodes a search for tail `x` may still take. -/
def free (index : α → ℤ) (found : List (α × α)) (x w : α) : Bool :=
  !decide (w ∈ found.map Prod.fst) && decide (index w < index x)

/-- Search from the head of one edge unless it is found already. -/
def collectStep (cycle exhausted : ε) (succ : α → List α) (index : α → ℤ) (fuel : ℕ)
    (found : List (α × α)) (e : α × α) : Except ε (List (α × α)) :=
  if e.2 ∈ found.map Prod.fst then .ok found
  else (DepthFirst.search cycle exhausted succ (free index found e.1) fuel e.2).map
    fun nodes => nodes.map (fun v => (v, e.1)) ++ found

/-- Search from the heads of a list of edges. -/
def collect (cycle exhausted : ε) (succ : α → List α) (index : α → ℤ) (fuel : ℕ) :
    List (α × α) → List (α × α) → Except ε (List (α × α))
  | found, [] => .ok found
  | found, e :: rest =>
    (collectStep cycle exhausted succ index fuel found e).bind
      fun next => collect cycle exhausted succ index fuel next rest

theorem collect_append {cycle exhausted : ε} {succ : α → List α} {index : α → ℤ} {fuel : ℕ}
    (found first second : List (α × α)) :
    collect cycle exhausted succ index fuel found (first ++ second) =
      (collect cycle exhausted succ index fuel found first).bind
        fun next => collect cycle exhausted succ index fuel next second := by
  induction first generalizing found with
  | nil => rfl
  | cons e rest ih =>
    simp only [List.cons_append, collect]
    cases collectStep cycle exhausted succ index fuel found e with
    | error err => rfl
    | ok next => exact ih next

end Collect

variable {succ : α → List α} {index : α → ℤ} {nodes : List α} {edges found : List (α × α)}

theorem SettledBelow.mem (settled : SettledBelow succ index found) {m : α × α} {w : α}
    (member : m ∈ found) (edge : w ∈ succ m.1) (below : index w < index m.2) :
    w ∈ found.map Prod.fst := by
  induction found with
  | nil => simp at member
  | cons first rest ih =>
    rcases List.mem_cons.mp member with rfl | later
    · exact List.mem_cons_of_mem _ ((settled.1 w edge).resolve_right (not_le.mpr below))
    · exact List.mem_cons_of_mem _ (ih settled.2 later)

/-- Below the tail, a successor comes later in the list. -/
theorem SettledBelow.idxOf_lt [DecidableEq α] (settled : SettledBelow succ index found)
    (unique : (found.map Prod.fst).Nodup) {m : α × α} {w : α} (member : m ∈ found)
    (edge : w ∈ succ m.1) (below : index w < index m.2) :
    (found.map Prod.fst).idxOf m.1 < (found.map Prod.fst).idxOf w := by
  induction found with
  | nil => simp at member
  | cons first rest ih =>
    rw [List.map_cons] at unique ⊢
    obtain ⟨fresh, uniqueRest⟩ := List.nodup_cons.mp unique
    rcases List.mem_cons.mp member with rfl | later
    · have after := (settled.1 w edge).resolve_right (not_le.mpr below)
      have different : m.1 ≠ w := fun same => fresh (same ▸ after)
      rw [List.idxOf_cons_self, List.idxOf_cons_ne _ different]
      omega
    · have target := settled.2.mem later edge below
      have source : m.1 ∈ rest.map Prod.fst := List.mem_map_of_mem later
      have differentSource : first.1 ≠ m.1 := fun same => fresh (same ▸ source)
      have differentTarget : first.1 ≠ w := fun same => fresh (same ▸ target)
      rw [List.idxOf_cons_ne _ differentSource, List.idxOf_cons_ne _ differentTarget]
      have := ih settled.2 uniqueRest later
      omega

/-- The nodes found after the pairs of one more search. -/
theorem fst_pairs (new : List α) (x : α) (found : List (α × α)) :
    (new.map (fun v => (v, x)) ++ found).map Prod.fst = new ++ found.map Prod.fst := by
  rw [List.map_append, List.map_map]
  exact congrArg (· ++ _) (List.map_id new)

theorem forall_pairs {new : List α} {x : α} {p : α × α → Prop} :
    (∀ m ∈ new.map (fun v => (v, x)) ++ found, p m) ↔ (∀ v ∈ new, p (v, x)) ∧ ∀ m ∈ found, p m := by
  rw [List.forall_mem_append, List.forall_mem_map]

/-- The nodes of one search go on top of those found before. -/
theorem SettledBelow.append {blocked : α → Prop} {x : α} {new : List α}
    (settled : SettledBelow succ index found) (fresh : DepthFirst.Settled succ blocked new)
    (stops : ∀ w, blocked w → w ∈ found.map Prod.fst ∨ index x ≤ index w) :
    SettledBelow succ index (new.map (fun v => (v, x)) ++ found) := by
  induction new with
  | nil => exact settled
  | cons v rest ih =>
    refine ⟨fun w edge => ?_, ih fresh.2⟩
    change w ∈ (rest.map (fun v => (v, x)) ++ found).map Prod.fst ∨ _
    rw [fst_pairs, List.mem_append]
    cases fresh.1 w edge with
    | inl later => exact .inl (.inl later)
    | inr stop => exact (stops w stop).imp_left .inr

namespace Listed

theorem sublist (listed : Listed succ index nodes edges) {fewer : List (α × α)}
    (inside : fewer.Sublist edges) : Listed succ index nodes fewer where
  members e member := listed.members e (inside.subset member)
  present e member := listed.present e (inside.subset member)
  invalidating e member := listed.invalidating e (inside.subset member)
  descending := listed.descending.sublist inside

theorem prefix_of (listed : Listed succ index nodes (edges ++ found)) :
    Listed succ index nodes edges :=
  listed.sublist (List.sublist_append_left edges found)

theorem suffix_of (listed : Listed succ index nodes (edges ++ found)) :
    Listed succ index nodes found :=
  listed.sublist (List.sublist_append_right edges found)

theorem reach_mem (listed : Listed succ index nodes edges)
    (closed : ∀ v ∈ nodes, ∀ w ∈ succ v, w ∈ nodes) {e : α × α} (member : e ∈ edges) {v : α}
    (reach : ReachBelow succ index e.1 e.2 v) : v ∈ nodes := by
  induction reach with
  | refl => exact (listed.members e member).2
  | tail _ last ih => exact closed _ ih _ last.1

/-- An edge between equal numbers is a self-loop. -/
theorem loop_of_index_eq (listed : Listed succ index nodes edges) (numbered : Numbered index nodes)
    {e : α × α} (member : e ∈ edges) (equal : index e.2 = index e.1) : e.2 ∈ succ e.2 := by
  have same : e.2 = e.1 := numbered.injOn (listed.members e member).2 (listed.members e member).1 equal
  have loop := listed.present e member
  rwa [← same] at loop

end Listed

namespace Frontier

theorem nil (succ : α → List α) (index : α → ℤ) : Frontier succ index [] [] := by
  constructor <;> simp [SettledBelow]

/-- The tails of the pairs are tails of the edges. -/
theorem tail_le (frontier : Frontier succ index edges found) {bound : ℤ}
    (lowest : ∀ e ∈ edges, bound ≤ index e.1) : ∀ m ∈ found, bound ≤ index m.2 := by
  intro m member
  obtain ⟨y, edge, _⟩ := frontier.source m member
  exact lowest _ edge

/-- A bound on the paired nodes bounds their tails. -/
theorem both_above (frontier : Frontier succ index edges found) {bound : ℤ}
    (above : ∀ m ∈ found, bound ≤ index m.1) :
    ∀ m ∈ found, bound ≤ index m.1 ∧ bound ≤ index m.2 :=
  fun m member => ⟨above m member, (above m member).trans (frontier.below m member).le⟩

/-- Once the head of an edge with the lowest tail is paired, so is everything it asks to move. -/
theorem reached_of_mem (settled : SettledBelow succ index found) {x y : α}
    (lowest : ∀ m ∈ found, index x ≤ index m.2) (head : y ∈ found.map Prod.fst) {v : α}
    (reach : ReachBelow succ index x y v) : ∃ m ∈ found, m.1 = v ∧ index x ≤ index m.2 := by
  have member : v ∈ found.map Prod.fst := by
    induction reach with
    | refl => exact head
    | tail _ last ih =>
      obtain ⟨m, listed, rfl⟩ := List.mem_map.mp ih
      exact settled.mem listed last.1 (last.2.trans_le (lowest m listed))
  obtain ⟨m, listed, same⟩ := List.mem_map.mp member
  exact ⟨m, listed, same, lowest m listed⟩

/-- An edge whose head is found already adds no pair. -/
theorem skip (frontier : Frontier succ index edges found) {e : α × α}
    (lowest : ∀ m ∈ found, index e.1 ≤ index m.2) (head : e.2 ∈ found.map Prod.fst) :
    Frontier succ index (edges ++ [e]) found where
  nodup := frontier.nodup
  settled := frontier.settled
  source m member := by
    obtain ⟨y, edge, reach⟩ := frontier.source m member
    exact ⟨y, List.mem_append_left _ edge, reach⟩
  below := frontier.below
  reached f member v reach := by
    cases List.mem_append.mp member with
    | inl old => exact frontier.reached f old v reach
    | inr new =>
      obtain rfl := List.mem_singleton.mp new
      exact reached_of_mem frontier.settled lowest head reach
  ordered := frontier.ordered
  fixed := frontier.fixed

section Extend

variable [DecidableEq α]

theorem free_iff {x w : α} :
    free index found x w = true ↔ w ∉ found.map Prod.fst ∧ index w < index x := by
  simp only [free, Bool.and_eq_true, Bool.not_eq_true', decide_eq_false_iff_not, decide_eq_true_eq]

theorem reachBelow_of_reach {x y v : α}
    (reach : DepthFirst.Reach succ (free index found x) y v) : ReachBelow succ index x y v :=
  ReflTransGen.mono (fun _ _ step => ⟨step.1, (free_iff.mp step.2).2⟩) _ _ reach

theorem free_of_reach {x y v : α} (reach : DepthFirst.Reach succ (free index found x) y v) :
    v = y ∨ v ∉ found.map Prod.fst ∧ index v < index x := by
  rcases reach with _ | ⟨_, last⟩
  · exact .inl rfl
  · exact .inr (free_iff.mp last.2)

/-- A completed search starts below its tail: at the tail itself the edge would be a self-loop. -/
theorem head_below (numbered : Numbered index nodes) (listed : Listed succ index nodes edges) {x y : α}
    (edge : (x, y) ∈ edges) {new : List α}
    (result : DepthFirst.Result succ (free index found x) y new) : index y < index x := by
  cases (listed.invalidating _ edge).lt_or_eq with
  | inl less => exact less
  | inr equal =>
    have loop := listed.loop_of_index_eq numbered edge equal
    exact (result.acyclic.irrefl y ⟨loop, .refl, .refl⟩).elim

omit [DecidableEq α] in
/-- The tail of an edge whose head has not been found has not been found either. -/
theorem tail_notMem (frontier : Frontier succ index edges found) {x y : α} (edge : y ∈ succ x)
    (below : index y < index x) (head : y ∉ found.map Prod.fst) : x ∉ found.map Prod.fst := by
  intro again
  obtain ⟨m, old, rfl⟩ := List.mem_map.mp again
  -- the search that took the tail would have gone on to the head
  exact head (frontier.settled.mem old edge (below.trans (frontier.below m old)))

/-- What a search finds is new and below its tail. -/
theorem new_of_mem {x y : α} (below : index y < index x) (head : y ∉ found.map Prod.fst) {new : List α}
    (result : DepthFirst.Result succ (free index found x) y new) {v : α} (member : v ∈ new) :
    v ∉ found.map Prod.fst ∧ index v < index x := by
  rcases free_of_reach ((result.mem_iff v).mp member) with rfl | usable
  · exact ⟨head, below⟩
  · exact usable

/-- A search stops at nodes found before and at nodes that are not below its tail. -/
theorem settled_search (settled : SettledBelow succ index found) {x y : α} {new : List α}
    (result : DepthFirst.Result succ (free index found x) y new) :
    SettledBelow succ index (new.map (fun v => (v, x)) ++ found) := by
  apply settled.append result.settled
  intro w stop
  by_contra neither
  rw [not_or, not_le] at neither
  have usable := free_iff.mpr neither
  rw [stop.1] at usable
  contradiction

/-- A completed search adds its nodes, all paired with the tail it was made for. -/
theorem extend (frontier : Frontier succ index edges found) (numbered : Numbered index nodes)
    {x y : α} (listed : Listed succ index nodes (edges ++ [(x, y)]))
    (lowest : ∀ m ∈ found, index x ≤ index m.2) (head : y ∉ found.map Prod.fst) {new : List α}
    (result : DepthFirst.Result succ (free index found x) y new) :
    Frontier succ index (edges ++ [(x, y)]) (new.map (fun v => (v, x)) ++ found) := by
  have last : (x, y) ∈ edges ++ [(x, y)] := List.mem_append_right _ (List.mem_singleton_self _)
  have below := head_below numbered listed last result
  have fresh {v : α} (member : v ∈ new) := new_of_mem below head result member
  have settled := settled_search frontier.settled result
  have lowestAll : ∀ m ∈ new.map (fun v => (v, x)) ++ found, index x ≤ index m.2 :=
    forall_pairs.mpr ⟨fun _ _ => le_rfl, lowest⟩
  refine ⟨?nodup, settled, ?source, forall_pairs.mpr ⟨fun v inNew => (fresh inNew).2, frontier.below⟩,
    ?reached, ?ordered, ?fixed⟩
  case nodup =>
    rw [fst_pairs]
    exact result.nodup.append frontier.nodup fun v added old => (fresh added).1 old
  case source =>
    refine forall_pairs.mpr ⟨fun v inNew => ?_, fun m old => ?_⟩
    · exact ⟨y, last, reachBelow_of_reach ((result.mem_iff v).mp inNew)⟩
    · obtain ⟨z, edge, path⟩ := frontier.source m old
      exact ⟨z, List.mem_append_left _ edge, path⟩
  case reached =>
    intro e member v path
    cases List.mem_append.mp member with
    | inl old =>
      obtain ⟨m, inFound, same, high⟩ := frontier.reached e old v path
      exact ⟨m, List.mem_append_right _ inFound, same, high⟩
    | inr added =>
      obtain rfl := List.mem_singleton.mp added
      refine reached_of_mem settled lowestAll ?_ path
      rw [fst_pairs]
      exact List.mem_append_left _ ((result.mem_iff y).mpr .refl)
  case ordered =>
    refine List.pairwise_append.mpr ⟨?_, frontier.ordered, fun m added n old => ?_⟩
    · exact List.pairwise_map.mpr (List.pairwise_of_forall fun _ _ => le_rfl)
    · obtain ⟨v, _, rfl⟩ := List.mem_map.mp added
      exact lowest n old
  case fixed =>
    rw [fst_pairs]
    refine forall_pairs.mpr ⟨fun v _ => ?_, fun m old => ?_⟩
    · rw [List.mem_append, not_or]
      exact ⟨fun inNew => lt_irrefl _ (fresh inNew).2,
        frontier.tail_notMem (listed.present _ last) below head⟩
    · rw [List.mem_append, not_or]
      exact ⟨fun inNew => absurd (fresh inNew).2 (not_lt.mpr (lowest m old)), frontier.fixed m old⟩

/-- One search keeps the frontier or meets a cycle below the tail of its edge. -/
theorem step_cases (frontier : Frontier succ index edges found) (numbered : Numbered index nodes)
    (closed : ∀ v ∈ nodes, ∀ w ∈ succ v, w ∈ nodes) {fuel : ℕ} (enough : 2 * nodes.length ≤ fuel)
    {e : α × α} (listed : Listed succ index nodes (edges ++ [e])) (cycle exhausted : ε) :
    (∃ next, collectStep cycle exhausted succ index fuel found e = .ok next ∧
      Frontier succ index (edges ++ [e]) next) ∨
    collectStep cycle exhausted succ index fuel found e = .error cycle ∧
      ClosesBelow succ index e.1 e.2 := by
  have last : e ∈ edges ++ [e] := List.mem_append_right _ (List.mem_singleton_self _)
  have lowest : ∀ m ∈ found, index e.1 ≤ index m.2 :=
    frontier.tail_le fun f member =>
      (List.pairwise_append.mp listed.descending).2.2 f member e (List.mem_singleton_self _)
  unfold collectStep
  by_cases head : e.2 ∈ found.map Prod.fst
  · rw [if_pos head]
    exact .inl ⟨found, rfl, frontier.skip lowest head⟩
  · rw [if_neg head]
    have inside : ∀ v, DepthFirst.Reach succ (free index found e.1) e.2 v → v ∈ nodes := fun v reach =>
      listed.reach_mem closed last (reachBelow_of_reach reach)
    obtain ⟨new, returned, result⟩ | ⟨failed, c, onCycle⟩ :=
      DepthFirst.search_cases cycle exhausted inside enough
    · refine .inl ⟨new.map (fun v => (v, e.1)) ++ found, ?_,
        frontier.extend numbered listed lowest head result⟩
      rw [returned]
      rfl
    · refine .inr ⟨by rw [failed]; rfl, c, ?_⟩
      exact TransGen.mono (fun _ _ inner =>
        ⟨inner.1, reachBelow_of_reach inner.2.1, reachBelow_of_reach inner.2.2⟩) _ _ onCycle

/-- Searching from a list of edges reads the successors of the nodes reached below their tails, and no others. -/
theorem collect_congr (cycle exhausted : ε) {other : α → List α} (fuel : ℕ) (rest : List (α × α))
    (same : ∀ e ∈ rest, ∀ v, ReachBelow succ index e.1 e.2 v → other v = succ v) (found : List (α × α)) :
    collect cycle exhausted other index fuel found rest = collect cycle exhausted succ index fuel found rest := by
  induction rest generalizing found with
  | nil => rfl
  | cons e rest ih =>
    have first : collectStep cycle exhausted other index fuel found e =
        collectStep cycle exhausted succ index fuel found e := by
      rw [collectStep, collectStep, DepthFirst.search_congr cycle exhausted fun v reach =>
        same e List.mem_cons_self v (reachBelow_of_reach reach)]
    rw [collect, collect, first]
    exact congrArg _ (funext fun next => ih (fun f later => same f (List.mem_cons_of_mem _ later)) next)

/-- Searching from a list of edges delivers their frontier or meets a cycle below one of the tails. -/
theorem collect_cases (numbered : Numbered index nodes)
    (closed : ∀ v ∈ nodes, ∀ w ∈ succ v, w ∈ nodes) {fuel : ℕ} (enough : 2 * nodes.length ≤ fuel)
    (cycle exhausted : ε) (rest : List (α × α)) {edges found : List (α × α)}
    (frontier : Frontier succ index edges found) (listed : Listed succ index nodes (edges ++ rest)) :
    (∃ next, collect cycle exhausted succ index fuel found rest = .ok next ∧
      Frontier succ index (edges ++ rest) next) ∨
    collect cycle exhausted succ index fuel found rest = .error cycle ∧
      ∃ e ∈ rest, ClosesBelow succ index e.1 e.2 := by
  induction rest generalizing edges found with
  | nil => exact .inl ⟨found, rfl, by simpa using frontier⟩
  | cons e rest ih =>
    rw [List.append_cons] at listed
    simp only [collect]
    obtain ⟨next, stepped, extended⟩ | ⟨failed, closes⟩ :=
      frontier.step_cases numbered closed enough listed.prefix_of cycle exhausted
    · rw [stepped]
      obtain ⟨final, returned, whole⟩ | ⟨failed, f, member, closes⟩ := ih extended listed
      · exact .inl ⟨final, returned, by simpa using whole⟩
      · exact .inr ⟨failed, f, List.mem_cons_of_mem _ member, closes⟩
    · rw [failed]
      exact .inr ⟨rfl, e, List.mem_cons_self, closes⟩

/-- Where the pairs of all edges could be formed, no edge has a cycle below its tail. -/
theorem not_closes (frontier : Frontier succ index edges found) (numbered : Numbered index nodes)
    (listed : Listed succ index nodes edges) {e : α × α} (member : e ∈ edges) :
    ¬ ClosesBelow succ index e.1 e.2 := by
  rintro ⟨c, onCycle⟩
  apply Acyclic.of_rank (fun v => (found.map Prod.fst).idxOf v) _ c onCycle
  intro v w edge
  obtain ⟨m, inFound, rfl, high⟩ := frontier.reached e member v edge.2.1
  apply frontier.settled.idxOf_lt frontier.nodup inFound edge.1
  rcases edge.2.2 with _ | ⟨_, last⟩
  · -- the head itself: it is paired, so it is not the tail of a pair
    apply lt_of_le_of_ne ((listed.invalidating e member).trans high)
    intro equal
    have top : index e.2 = index e.1 :=
      le_antisymm (listed.invalidating e member) (high.trans equal.ge)
    have same : e.2 = e.1 :=
      numbered.injOn (listed.members e member).2 (listed.members e member).1 top
    obtain ⟨n, nFound, nSame, nHigh⟩ := frontier.reached e member e.2 .refl
    obtain ⟨y, tailEdge, _⟩ := frontier.source m inFound
    have tailSame : e.2 = m.2 :=
      numbered.injOn (listed.members e member).2 (listed.members _ tailEdge).1 equal
    exact frontier.fixed m inFound (tailSame ▸ nSame ▸ List.mem_map_of_mem nFound)
  · exact last.2.trans_le high

/-- Where the pairs of all edges could be formed, every edge has its head below its tail. -/
theorem head_lt_tail (frontier : Frontier succ index edges found) (numbered : Numbered index nodes)
    (listed : Listed succ index nodes edges) {e : α × α} (member : e ∈ edges) :
    index e.2 < index e.1 := by
  cases (listed.invalidating e member).lt_or_eq with
  | inl less => exact less
  | inr equal =>
    have loop := listed.loop_of_index_eq numbered member equal
    exact (frontier.not_closes numbered listed member ⟨e.2, .single ⟨loop, .refl, .refl⟩⟩).elim

/-- Pairs with lower tails come first. -/
theorem idxOf_lt_of_tail_lt (frontier : Frontier succ index edges found) {m n : α × α}
    (left : m ∈ found) (right : n ∈ found) (lower : index m.2 < index n.2) :
    (found.map Prod.fst).idxOf m.1 < (found.map Prod.fst).idxOf n.1 := by
  obtain ⟨i, iBound, rfl⟩ := List.getElem_of_mem left
  obtain ⟨j, jBound, rfl⟩ := List.getElem_of_mem right
  have slot (k : ℕ) (bound : k < found.length) : (found.map Prod.fst).idxOf found[k].1 = k := by
    have := frontier.nodup.idxOf_getElem k (by simpa using bound)
    rwa [List.getElem_map] at this
  rw [slot i iBound, slot j jBound]
  by_contra later
  rcases (not_lt.mp later).lt_or_eq with before | same
  · have := List.pairwise_iff_getElem.mp frontier.ordered j i jBound iBound before
    omega
  · subst same
    exact lt_irrefl _ lower

/-- Edges between paired nodes lead down the list. -/
theorem idxOf_lt_of_succ (frontier : Frontier succ index edges found) {m n : α × α}
    (left : m ∈ found) (right : n ∈ found) (edge : n.1 ∈ succ m.1) :
    (found.map Prod.fst).idxOf m.1 < (found.map Prod.fst).idxOf n.1 := by
  rcases lt_or_ge (index n.1) (index m.2) with below | above
  · exact frontier.settled.idxOf_lt frontier.nodup left edge below
  · exact frontier.idxOf_lt_of_tail_lt left right (above.trans_lt (frontier.below n right))

end Extend

end Frontier

end DynamicDag
