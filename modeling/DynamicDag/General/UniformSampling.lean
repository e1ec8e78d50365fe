import Mathlib.Analysis.SpecificLimits.Basic
import DynamicDag.General.RejectionSampling
import Mathlib.Algebra.BigOperators.Field
import Mathlib.Data.Fintype.BigOperators
import Mathlib.Data.Nat.Choose.Basic

/-! # Sampling without replacement by rejection

Each throw makes a candidate, and throws go on until a number of different free candidates has been made.
If every free candidate is made by equally many throws, all sequences of that many free candidates come up
equally often. The share of an event among all streams of a number of throws is a quotient of two counts,
and the probability of what a run returns is its limit as the streams get longer.
-/

namespace UniformSampling

open Filter Topology

/-- The solution of a contracting recurrence follows its inhomogeneous part. -/
theorem tendsto_of_recurrence {x b : ℕ → ℝ} {r limit : ℝ} (nonneg : 0 ≤ r) (contracts : r < 1)
    (part : Tendsto b atTop (𝓝 ((1 - r) * limit))) (step : ∀ n, x (n + 1) = b n + r * x n) :
    Tendsto x atTop (𝓝 limit) := by
  rw [Metric.tendsto_atTop] at part ⊢
  intro ε positive
  have gap : 0 < 1 - r := by linarith
  obtain ⟨start, near⟩ := part ((1 - r) * (ε / 2)) (by positivity)
  -- after `start` the distance is below a geometric sequence and a constant
  have bound : ∀ n, |x (start + n) - limit| ≤ r ^ n * |x start - limit| + ε / 2 := by
    intro n
    induction n with
    | zero =>
      simp only [add_zero, pow_zero, one_mul]
      linarith
    | succ n ih =>
      have close : |b (start + n) - (1 - r) * limit| ≤ (1 - r) * (ε / 2) := (near _ (Nat.le_add_right _ _)).le
      have split : x (start + n + 1) - limit =
          (b (start + n) - (1 - r) * limit) + r * (x (start + n) - limit) := by
        rw [step]
        ring
      calc |x (start + n + 1) - limit|
          ≤ |b (start + n) - (1 - r) * limit| + |r * (x (start + n) - limit)| := by
            rw [split]
            exact abs_add_le _ _
        _ ≤ (1 - r) * (ε / 2) + r * (r ^ n * |x start - limit| + ε / 2) := by
            rw [abs_mul, abs_of_nonneg nonneg]
            gcongr
        _ = r ^ (n + 1) * |x start - limit| + ε / 2 := by ring
  have vanishes : Tendsto (fun n => r ^ n * |x start - limit|) atTop (𝓝 0) := by
    simpa using (tendsto_pow_atTop_nhds_zero_of_lt_one nonneg contracts).mul_const |x start - limit|
  obtain ⟨late, small⟩ := Metric.tendsto_atTop.mp vanishes (ε / 2) (by positivity)
  refine ⟨start + late, fun n after => ?_⟩
  have decayed := small (n - start) (by omega)
  have within := bound (n - start)
  rw [show start + (n - start) = n by omega] at within
  rw [Real.dist_eq, sub_zero] at decayed
  rw [Real.dist_eq]
  linarith [le_abs_self (r ^ (n - start) * |x start - limit|)]

section Share

variable {π : Type*} [Fintype π] {event other : List π → Prop}

open Classical in
/-- The share of the streams of a number of throws on which the event happens. -/
noncomputable def share (event : List π → Prop) (throws : ℕ) : ℝ :=
  (Finset.univ.filter fun stream : Fin throws → π => event (List.ofFn stream)).card /
    (Fintype.card π : ℝ) ^ throws

theorem share_congr (same : ∀ stream, event stream ↔ other stream) : share event = share other :=
  congrArg share (funext fun stream => propext (same stream))

theorem share_false (throws : ℕ) : share (fun _ : List π => False) throws = 0 := by
  simp [share]

theorem share_true [Nonempty π] (throws : ℕ) : share (fun _ : List π => True) throws = 1 := by
  have some : (Fintype.card π : ℝ) ≠ 0 := by exact_mod_cast Fintype.card_ne_zero
  simp [share, some]

/-- The first throw decides which share the others have. -/
theorem share_succ (event : List π → Prop) (throws : ℕ) : share event (throws + 1) =
    (∑ p, share (fun stream => event (p :: stream)) throws) / Fintype.card π := by
  classical
  have count : (Finset.univ.filter fun stream : Fin (throws + 1) → π => event (List.ofFn stream)).card =
      ∑ p, (Finset.univ.filter fun stream : Fin throws → π => event (p :: List.ofFn stream)).card := by
    simp only [Finset.card_filter]
    rw [← (Fin.consEquiv fun _ => π).sum_comp, Fintype.sum_prod_type]
    simp [Fin.consEquiv, List.ofFn_succ]
  simp only [share]
  rw [count, ← Finset.sum_div, pow_succ, div_div, Nat.cast_sum]

/-- Events that exclude each other have the sum of their shares. -/
theorem share_exists {ι : Type*} [DecidableEq ι] (cases : Finset ι) (event : ι → List π → Prop)
    (exclusive : ∀ i ∈ cases, ∀ j ∈ cases, ∀ stream, event i stream → event j stream → i = j)
    (throws : ℕ) :
    share (fun stream => ∃ i ∈ cases, event i stream) throws = ∑ i ∈ cases, share (event i) throws := by
  classical
  simp only [share]
  rw [← Finset.sum_div, ← Nat.cast_sum, ← Finset.card_biUnion]
  · congr 2
    congr 1
    ext stream
    simp
  · intro i left j right different
    rw [Function.onFun, Finset.disjoint_filter]
    exact fun stream _ first second => different (exclusive i left j right _ first second)

variable (event) in
/-- When the other throws change nothing, the first accepted throw decides, and each is as likely. -/
theorem tendsto_share_of_accepted {accepted : Finset π} (some : accepted.Nonempty) (next : π → List π → Prop)
    (limit : π → ℝ) (again : ∀ p ∉ accepted, ∀ stream, event (p :: stream) ↔ event stream)
    (goes : ∀ p ∈ accepted, ∀ stream, event (p :: stream) ↔ next p stream)
    (limits : ∀ p ∈ accepted, Tendsto (share (next p)) atTop (𝓝 (limit p))) :
    Tendsto (share event) atTop (𝓝 ((∑ p ∈ accepted, limit p) / accepted.card)) := by
  classical
  have positive : 0 < (accepted.card : ℝ) := by exact_mod_cast some.card_pos
  have fits : (accepted.card : ℝ) ≤ Fintype.card π := by exact_mod_cast accepted.card_le_univ
  have all : 0 < (Fintype.card π : ℝ) := positive.trans_le fits
  have step : ∀ throws, share event (throws + 1) = (∑ p ∈ accepted, share (next p) throws) / Fintype.card π +
      (1 - accepted.card / Fintype.card π) * share event throws := by
    intro throws
    have accepting : ∑ p ∈ accepted, share (fun stream => event (p :: stream)) throws =
        ∑ p ∈ accepted, share (next p) throws :=
      Finset.sum_congr rfl fun p member => congrFun (share_congr (goes p member)) throws
    have rejecting : ∑ p ∈ acceptedᶜ, share (fun stream => event (p :: stream)) throws =
        (Fintype.card π - accepted.card) * share event throws := by
      rw [Finset.sum_congr rfl fun p member =>
        congrFun (share_congr (again p (Finset.mem_compl.mp member))) throws, Finset.sum_const,
        Finset.card_compl, nsmul_eq_mul, Nat.cast_sub accepted.card_le_univ]
    rw [share_succ, ← Finset.sum_add_sum_compl accepted, accepting, rejecting]
    field_simp
  refine tendsto_of_recurrence (sub_nonneg.mpr ((div_le_one all).mpr fits))
    (sub_lt_self _ (div_pos positive all)) ?_ step
  have part := (tendsto_finsetSum accepted limits).div_const (Fintype.card π : ℝ)
  convert part using 2
  field_simp
  ring

end Share

section Sample

variable {π κ : Type*} {candidate : π → κ} {free : Finset κ} {left : ℕ} {found result : List κ}

/-- Different free candidates. -/
structure Chosen (free : Finset κ) (found : List κ) : Prop where
  unique : found.Nodup
  inside : ∀ c ∈ found, c ∈ free

theorem Chosen.of_append {more : List κ} (chosen : Chosen free (found ++ more)) : Chosen free found :=
  ⟨(List.nodup_append.mp chosen.unique).1, fun c member => chosen.inside c (List.mem_append_left _ member)⟩

theorem Chosen.snoc {c : κ} (chosen : Chosen free found) (fresh : c ∈ free ∧ c ∉ found) :
    Chosen free (found ++ [c]) := by
  refine ⟨?_, List.forall_mem_append.mpr ⟨chosen.inside, List.forall_mem_singleton.mpr fresh.1⟩⟩
  exact List.nodup_append.mpr ⟨chosen.unique, List.nodup_singleton c, fun d member e last same =>
    fresh.2 (by rwa [← List.mem_singleton.mp last, ← same])⟩

theorem Chosen.last {c : κ} (chosen : Chosen free (found ++ [c])) : c ∈ free ∧ c ∉ found :=
  ⟨chosen.inside c (by simp), fun again =>
    (List.nodup_append.mp chosen.unique).2.2 c again c (List.mem_singleton_self c) rfl⟩

variable [DecidableEq κ]

theorem Chosen.length_le (chosen : Chosen free found) : found.length ≤ free.card := by
  rw [← List.toFinset_card_of_nodup chosen.unique]
  exact Finset.card_le_card fun c member => chosen.inside c (List.mem_toFinset.mp member)

/-- Throw until so many more free candidates are found that differ from each other and from those found. -/
def sample (candidate : π → κ) (free : Finset κ) : ℕ → List κ → List π → Option (List κ × List π)
  | 0, found, throws => some (found, throws)
  | _ + 1, _, [] => none
  | left + 1, found, p :: throws =>
    if candidate p ∈ free ∧ candidate p ∉ found then
      sample candidate free left (found ++ [candidate p]) throws
    else sample candidate free (left + 1) found throws

/-- What was found stays found, in its order. -/
theorem sample_prefix {throws rest : List π}
    (returned : sample candidate free left found throws = some (result, rest)) : found <+: result := by
  induction throws generalizing left found with
  | nil =>
    cases left with
    | zero =>
      obtain ⟨rfl, -⟩ := Prod.mk.inj (Option.some.inj returned)
      exact List.prefix_rfl
    | succ left => cases returned
  | cons p throws ih =>
    cases left with
    | zero =>
      obtain ⟨rfl, -⟩ := Prod.mk.inj (Option.some.inj returned)
      exact List.prefix_rfl
    | succ left =>
      rw [sample] at returned
      split_ifs at returned
      · exact (List.prefix_append _ _).trans (ih returned)
      · exact ih returned

theorem sample_chosen {throws rest : List π}
    (returned : sample candidate free left found throws = some (result, rest)) (chosen : Chosen free found) :
    Chosen free result := by
  induction throws generalizing left found with
  | nil =>
    cases left with
    | zero =>
      obtain ⟨rfl, -⟩ := Prod.mk.inj (Option.some.inj returned)
      exact chosen
    | succ left => cases returned
  | cons p throws ih =>
    cases left with
    | zero =>
      obtain ⟨rfl, -⟩ := Prod.mk.inj (Option.some.inj returned)
      exact chosen
    | succ left =>
      rw [sample] at returned
      split_ifs at returned with fresh
      · exact ih returned (chosen.snoc fresh)
      · exact ih returned chosen

theorem sample_length {throws rest : List π}
    (returned : sample candidate free left found throws = some (result, rest)) :
    result.length = found.length + left := by
  induction throws generalizing left found with
  | nil =>
    cases left with
    | zero =>
      obtain ⟨rfl, -⟩ := Prod.mk.inj (Option.some.inj returned)
      rfl
    | succ left => cases returned
  | cons p throws ih =>
    cases left with
    | zero =>
      obtain ⟨rfl, -⟩ := Prod.mk.inj (Option.some.inj returned)
      rfl
    | succ left =>
      rw [sample] at returned
      split_ifs at returned
      · rw [ih returned, List.length_append, List.length_singleton]
        omega
      · exact ih returned

/-- The run returns these candidates. -/
def Finds (candidate : π → κ) (free : Finset κ) (left : ℕ) (found result : List κ) (throws : List π) : Prop :=
  ∃ rest, sample candidate free left found throws = some (result, rest)

theorem finds_fresh {p : π} {throws : List π} (fresh : candidate p ∈ free ∧ candidate p ∉ found) :
    Finds candidate free (left + 1) found result (p :: throws) ↔
      Finds candidate free left (found ++ [candidate p]) result throws := by
  rw [Finds, sample, if_pos fresh]
  rfl

theorem finds_again {p : π} {throws : List π} (rejected : ¬ (candidate p ∈ free ∧ candidate p ∉ found)) :
    Finds candidate free (left + 1) found result (p :: throws) ↔
      Finds candidate free (left + 1) found result throws := by
  rw [Finds, sample, if_neg rejected]
  rfl

section Draws

open RejectionSampling

variable {δ β σ ε : Type*} {exhausted : ε} {make : δ → δ → Except ε β} {rejected : σ → β → Bool}
  {record : σ → β → Except ε σ} {first second : π → δ} {name : π → β}

/-- The draws of a stream of throws, two for each. -/
def drawsOf (first second : π → δ) (throws : List π) : List δ := throws.flatMap fun p => [first p, second p]

/-- A loop that draws pairs is such a run if it rejects all but the fresh candidates and records them. -/
theorem fill_eq_sample (state : List κ → σ) (made : ∀ p, make (first p) (second p) = .ok (name p))
    (rejects : ∀ p found, Chosen free found →
      (rejected (state found) (name p) = false ↔ candidate p ∈ free ∧ candidate p ∉ found))
    (records : ∀ p found, record (state found) (name p) = .ok (state (found ++ [candidate p])))
    (chosen : Chosen free found) (throws : List π) :
    fill exhausted make rejected record left (state found) (drawsOf first second throws) =
      match sample candidate free left found throws with
      | none => .error exhausted
      | some (result, rest) => .ok (state result, drawsOf first second rest) := by
  induction throws generalizing left found with
  | nil =>
    cases left with
    | zero => rfl
    | succ left => rfl
  | cons p throws ih =>
    cases left with
    | zero => rfl
    | succ left =>
      have pair : drawsOf first second (p :: throws) = first p :: second p :: drawsOf first second throws := rfl
      rw [pair, sample]
      obtain fresh | stale := em (candidate p ∈ free ∧ candidate p ∉ found)
      · rw [if_pos fresh, ← ih (chosen.snoc fresh)]
        simp only [fill, draw, made, (rejects p found chosen).mpr fresh, records, Bool.false_eq_true, ↓reduceIte]
      · have refused : rejected (state found) (name p) = true :=
          Bool.eq_true_of_not_eq_false (mt (rejects p found chosen).mp stale)
        rw [if_neg stale, ← ih chosen]
        simp only [fill, draw, made, refused, ↓reduceIte]

end Draws

variable [Fintype π] {width : ℕ}
  (fibers : ∀ c ∈ free, (Finset.univ.filter fun p => candidate p = c).card = width)

include fibers

/-- The throws that make a candidate that is still free. -/
theorem card_fresh (chosen : Chosen free found) :
    (Finset.univ.filter fun p => candidate p ∈ free ∧ candidate p ∉ found).card =
      width * (free.card - found.length) := by
  have remaining : (free \ found.toFinset).card = free.card - found.length := by
    rw [Finset.card_sdiff_of_subset fun c member => chosen.inside c (List.mem_toFinset.mp member),
      List.toFinset_card_of_nodup chosen.unique]
  have lands : ∀ p ∈ Finset.univ.filter fun p => candidate p ∈ free ∧ candidate p ∉ found,
      candidate p ∈ free \ found.toFinset := by simp
  rw [Finset.card_eq_sum_card_fiberwise lands, ← remaining, mul_comm, ← smul_eq_mul, ← Finset.sum_const]
  refine Finset.sum_congr rfl fun c member => ?_
  obtain ⟨inFree, fresh⟩ := Finset.mem_sdiff.mp member
  rw [← fibers c inFree, Finset.filter_filter]
  congr 1
  refine Finset.filter_congr fun p _ => ⟨And.right, fun same => ⟨?_, same⟩⟩
  rw [same]
  exact ⟨inFree, mt List.mem_toFinset.mpr fresh⟩

variable (positive : 0 < width)

include positive

theorem exists_fresh (chosen : Chosen free found) (room : found.length < free.card) :
    (Finset.univ.filter fun p => candidate p ∈ free ∧ candidate p ∉ found).Nonempty := by
  rw [← Finset.card_pos, card_fresh fibers chosen]
  exact Nat.mul_pos positive (Nat.sub_pos_of_lt room)

variable [Nonempty π]

/-- Every sequence of different free candidates is found with the same probability. -/
theorem tendsto_share_finds {more : List κ} (chosen : Chosen free (found ++ more)) :
    Tendsto (share (Finds candidate free more.length found (found ++ more))) atTop
      (𝓝 (1 / (free.card - found.length).descFactorial more.length)) := by
  induction more generalizing found with
  | nil =>
    have certain : ∀ throws : List π, Finds candidate free 0 found (found ++ []) throws ↔ True := by
      simp [Finds, sample]
    have whole : share (fun _ : List π => True) = fun _ => 1 := funext share_true
    rw [List.length_nil, share_congr certain, whole]
    simp
  | cons c more ih =>
    rw [List.append_cons] at chosen ⊢
    have longer := chosen.of_append
    have room : found.length < free.card := by simpa using longer.length_le
    have fresh : c ∈ free ∧ c ∉ found := longer.last
    have some := exists_fresh fibers positive longer.of_append room
    have law := tendsto_share_of_accepted
      (Finds candidate free (more.length + 1) found (found ++ [c] ++ more)) some
      (fun p => Finds candidate free more.length (found ++ [candidate p]) (found ++ [c] ++ more))
      (fun p => if candidate p = c then
        1 / ((free.card - (found.length + 1)).descFactorial more.length : ℝ) else 0)
      (fun p rejected throws => finds_again (by simpa using rejected))
      (fun p accepted throws => finds_fresh (by simpa using accepted)) fun p accepted => ?_
    · have making : ((Finset.univ.filter fun p => candidate p ∈ free ∧ candidate p ∉ found).filter
          fun p => candidate p = c).card = width := by
        rw [← fibers c fresh.1, Finset.filter_filter]
        congr 1
        exact Finset.filter_congr fun p _ => ⟨And.right, fun same => ⟨by rwa [same], same⟩⟩
      have count : free.card - found.length = free.card - (found.length + 1) + 1 := by omega
      rw [← Finset.sum_filter, Finset.sum_const, making, card_fresh fibers longer.of_append, nsmul_eq_mul,
        Nat.cast_mul, mul_div_mul_left _ _ (by exact_mod_cast positive.ne'), div_div, ← Nat.cast_mul,
        mul_comm] at law
      rwa [List.length_cons, count, Nat.succ_descFactorial_succ, ← count]
    · obtain same | other := eq_or_ne (candidate p) c
      · rw [if_pos same, same]
        have length : (found ++ [c]).length = found.length + 1 := by simp
        rw [← length]
        exact ih chosen
      · have never : ∀ throws, Finds candidate free more.length (found ++ [candidate p])
            (found ++ [c] ++ more) throws ↔ False := by
          refine fun throws => iff_false_intro ?_
          rintro ⟨rest, returned⟩
          have first := sample_prefix returned
          rw [List.append_assoc, List.prefix_append_right_inj, List.singleton_append,
            List.cons_prefix_cons] at first
          exact other first.1
        rw [if_neg other, share_congr never, funext share_false]
        exact tendsto_const_nhds

/-- Every set of free candidates is found, in some order, with the same probability. -/
theorem tendsto_share_finds_set {chosen : Finset κ} (inside : chosen ⊆ free) :
    Tendsto (share fun throws => ∃ found ∈ chosen.toList.permutations.toFinset,
      Finds candidate free chosen.card [] found throws) atTop (𝓝 (1 / free.card.choose chosen.card)) := by
  have exclusive : ∀ i ∈ chosen.toList.permutations.toFinset, ∀ j ∈ chosen.toList.permutations.toFinset,
      ∀ throws, Finds candidate free chosen.card [] i throws → Finds candidate free chosen.card [] j throws →
        i = j := by
    rintro i _ j _ throws ⟨first, left⟩ ⟨second, right⟩
    exact congrArg Prod.fst (Option.some.inj (left.symm.trans right))
  have each : ∀ found ∈ chosen.toList.permutations.toFinset,
      Tendsto (share (Finds candidate free chosen.card [] found)) atTop
        (𝓝 (1 / free.card.descFactorial chosen.card)) := by
    intro found member
    have perm : found.Perm chosen.toList := List.mem_permutations.mp (List.mem_toFinset.mp member)
    rw [← Finset.length_toList chosen, ← perm.length_eq]
    exact tendsto_share_finds fibers positive (show Chosen free ([] ++ found) from
      ⟨perm.nodup_iff.mpr chosen.nodup_toList,
        fun c listed => inside (Finset.mem_toList.mp (perm.mem_iff.mp listed))⟩)
  have orders : chosen.toList.permutations.toFinset.card = chosen.card.factorial := by
    rw [List.toFinset_card_of_nodup (List.nodup_permutations _ chosen.nodup_toList), List.length_permutations,
      Finset.length_toList]
  have some : (chosen.card.factorial : ℝ) ≠ 0 := by exact_mod_cast chosen.card.factorial_ne_zero
  have law := tendsto_finsetSum _ each
  rw [Finset.sum_const, orders, nsmul_eq_mul, Nat.descFactorial_eq_factorial_mul_choose, Nat.cast_mul,
    mul_one_div, ← div_div, div_self some] at law
  rwa [funext (share_exists _ _ exclusive)]

/-- A run with enough free candidates returns with probability one. -/
theorem tendsto_share_returns (chosen : Chosen free found) (room : found.length + left ≤ free.card) :
    Tendsto (share fun throws => ∃ result, Finds candidate free left found result throws) atTop (𝓝 1) := by
  induction left generalizing found with
  | zero =>
    have certain : ∀ throws : List π, (∃ result, Finds candidate free 0 found result throws) ↔ True := by
      simp [Finds, sample]
    have whole : share (fun _ : List π => True) = fun _ => 1 := funext share_true
    rw [share_congr certain, whole]
    exact tendsto_const_nhds
  | succ left ih =>
    have some := exists_fresh fibers positive chosen (by omega)
    have law := tendsto_share_of_accepted
      (fun throws => ∃ result, Finds candidate free (left + 1) found result throws) some
      (fun p throws => ∃ result, Finds candidate free left (found ++ [candidate p]) result throws) (fun _ => 1)
      (fun p rejected throws => exists_congr fun result => finds_again (by simpa using rejected))
      (fun p accepted throws => exists_congr fun result => finds_fresh (by simpa using accepted))
      fun p accepted => ?_
    · simpa [some.card_pos.ne'] using law
    · refine ih (chosen.snoc (by simpa using accepted)) ?_
      rw [List.length_append, List.length_singleton]
      omega

end Sample

end UniformSampling
