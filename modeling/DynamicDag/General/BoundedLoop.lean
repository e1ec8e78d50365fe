import Mathlib.Data.Nat.Init

/-! # While loops with a counted number of rounds

A loop is a step function that either stops, moves to the next state, or fails. `run` executes it
with a budget of rounds and reports a failure of its own when the budget is used up, so that a
result other than `exhausted` is the result of the unbounded loop. The invariant rule turns a
decreasing variant below the budget into termination; the refinement rule transports a whole run
along a map of states.
-/

namespace BoundedLoop

variable {σ τ ε : Type*}

/-- Execute `step` until it stops, for at most `fuel` rounds including the stopping test. -/
def run (exhausted : ε) (step : σ → Except ε (Option σ)) : ℕ → σ → Except ε σ
  | 0, _ => .error exhausted
  | fuel + 1, s =>
    match step s with
    | .error e => .error e
    | .ok none => .ok s
    | .ok (some next) => run exhausted step fuel next

variable {exhausted : ε} {step : σ → Except ε (Option σ)}

theorem run_stop {fuel : ℕ} {s : σ} (stop : step s = .ok none) :
    run exhausted step (fuel + 1) s = .ok s := by
  simp only [run, stop]

theorem run_next {fuel : ℕ} {s next : σ} (moves : step s = .ok (some next)) :
    run exhausted step (fuel + 1) s = run exhausted step fuel next := by
  simp only [run, moves]

theorem run_fail {fuel : ℕ} {s : σ} {e : ε} (fails : step s = .error e) :
    run exhausted step (fuel + 1) s = .error e := by
  simp only [run, fails]

/-- A loop that returns has passed its stopping test. -/
theorem stopped_of_run {fuel : ℕ} {s t : σ} (returned : run exhausted step fuel s = .ok t) :
    step t = .ok none := by
  induction fuel generalizing s with
  | zero => simp [run] at returned
  | succ fuel ih =>
    rcases outcome : step s with e | next
    · rw [run_fail outcome] at returned
      contradiction
    · cases next with
      | none =>
        rw [run_stop outcome] at returned
        cases returned
        exact outcome
      | some next =>
        rw [run_next outcome] at returned
        exact ih returned

/-- What one round may do under an invariant and a variant. -/
def Round (inv : σ → Prop) (variant : σ → ℕ) (failure : ε → Prop) (s : σ) :
    Except ε (Option σ) → Prop
  | .error e => failure e
  | .ok none => True
  | .ok (some next) => inv next ∧ variant next < variant s

/-- Total correctness: with more fuel than the variant, the loop returns in a state of the
invariant that passes the stopping test, or fails in one of the allowed ways. -/
theorem run_rule (exhausted : ε) {inv : σ → Prop} {variant : σ → ℕ} {failure : ε → Prop}
    (rounds : ∀ s, inv s → Round inv variant failure s (step s))
    {fuel : ℕ} {s : σ} (start : inv s) (enough : variant s < fuel) :
    (∃ t, run exhausted step fuel s = .ok t ∧ inv t ∧ step t = .ok none) ∨
      ∃ e, run exhausted step fuel s = .error e ∧ failure e := by
  induction fuel generalizing s with
  | zero => omega
  | succ fuel ih =>
    have allowed := rounds s start
    rcases outcome : step s with e | next
    · rw [outcome] at allowed
      exact .inr ⟨e, run_fail outcome, allowed⟩
    · cases next with
      | none => exact .inl ⟨s, run_stop outcome, start, outcome⟩
      | some next =>
        rw [outcome] at allowed
        obtain ⟨kept, decreases⟩ := allowed
        rw [run_next outcome]
        exact ih kept (by omega)

/-- Partial correctness: what every round keeps holds when the loop returns. -/
theorem invariant_of_run {inv : σ → Prop} (keeps : ∀ s next, inv s → step s = .ok (some next) → inv next)
    {fuel : ℕ} {s t : σ} (start : inv s) (returned : run exhausted step fuel s = .ok t) : inv t := by
  induction fuel generalizing s with
  | zero => simp [run] at returned
  | succ fuel ih =>
    rcases outcome : step s with e | next
    · rw [run_fail outcome] at returned
      contradiction
    · cases next with
      | none =>
        rw [run_stop outcome] at returned
        cases returned
        exact start
      | some next =>
        rw [run_next outcome] at returned
        exact ih (keeps s next start outcome) returned

/-- A step function that follows another one along `concrete`, on states of an invariant of the
abstract loop, has the same runs. -/
theorem run_refines (exhausted : ε) {abstractStep : τ → Except ε (Option τ)} (concrete : τ → σ)
    {inv : τ → Prop}
    (follows : ∀ a, inv a → step (concrete a) = (abstractStep a).map (Option.map concrete))
    (keeps : ∀ a next, inv a → abstractStep a = .ok (some next) → inv next)
    (fuel : ℕ) {a : τ} (start : inv a) :
    run exhausted step fuel (concrete a) = (run exhausted abstractStep fuel a).map concrete := by
  induction fuel generalizing a with
  | zero => rfl
  | succ fuel ih =>
    have here := follows a start
    rcases outcome : abstractStep a with e | next
    · rw [outcome] at here
      rw [run_fail here, run_fail outcome]
      rfl
    · rw [outcome] at here
      cases next with
      | none =>
        rw [run_stop here, run_stop outcome]
        rfl
      | some next =>
        rw [run_next here, run_next outcome]
        exact ih (keeps a next start outcome)

end BoundedLoop
