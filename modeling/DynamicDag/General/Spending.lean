import DynamicDag.General.BoundedLoop
import Mathlib.Logic.Basic

/-! # What a loop spends

Every round of a loop charges for the state in which it starts. A potential that grows by at least the
charge in every round bounds the total of a run, whether it returns or fails; one that grows by exactly
the charge gives the total of a run that returns.
-/

namespace BoundedLoop

variable {σ τ ε : Type*}

/-- The charges of all rounds of a run, a failing round included. The stopping test is free. -/
def spent (charge : σ → ℕ) (step : σ → Except ε (Option σ)) : ℕ → σ → ℕ
  | 0, _ => 0
  | fuel + 1, s =>
    match step s with
    | .error _ => charge s
    | .ok none => 0
    | .ok (some next) => charge s + spent charge step fuel next

variable {charge : σ → ℕ} {step : σ → Except ε (Option σ)}

theorem spent_stop {fuel : ℕ} {s : σ} (stop : step s = .ok none) : spent charge step (fuel + 1) s = 0 := by
  simp only [spent, stop]

theorem spent_next {fuel : ℕ} {s next : σ} (moves : step s = .ok (some next)) :
    spent charge step (fuel + 1) s = charge s + spent charge step fuel next := by
  simp only [spent, moves]

theorem spent_fail {fuel : ℕ} {s : σ} {e : ε} (fails : step s = .error e) :
    spent charge step (fuel + 1) s = charge s := by
  simp only [spent, fails]

/-- A run spends no more than its potential grows, up to the state in which it returns or fails. -/
theorem exists_spent_le (inv : σ → Prop) (potential settled : σ → ℕ)
    (pays : ∀ s next, inv s → step s = .ok (some next) → inv next ∧ potential s + charge s ≤ potential next)
    (fails : ∀ s e, inv s → step s = .error e → potential s + charge s ≤ settled s)
    (below : ∀ s, inv s → potential s ≤ settled s) (exhausted : ε) (fuel : ℕ) {s : σ} (start : inv s) :
    ∃ last, inv last ∧ potential s + spent charge step fuel s ≤ settled last ∧
      ∀ t, run exhausted step fuel s = .ok t → last = t := by
  induction fuel generalizing s with
  | zero => exact ⟨s, start, below s start, fun t returned => by simp [run] at returned⟩
  | succ fuel ih =>
    rcases outcome : step s with e | next
    · rw [spent_fail outcome, run_fail outcome]
      exact ⟨s, start, fails s e start outcome, fun t returned => by contradiction⟩
    · cases next with
      | none =>
        rw [spent_stop outcome, run_stop outcome]
        exact ⟨s, start, below s start, fun t returned => Except.ok.inj returned⟩
      | some next =>
        obtain ⟨kept, growth⟩ := pays s next start outcome
        obtain ⟨last, invLast, bound, same⟩ := ih kept
        rw [spent_next outcome, run_next outcome]
        exact ⟨last, invLast, by omega, same⟩

/-- A run that returns spends what its potential grows. -/
theorem spent_eq {inv : σ → Prop} {potential : σ → ℕ}
    (pays : ∀ s next, inv s → step s = .ok (some next) → inv next ∧ potential s + charge s = potential next)
    {exhausted : ε} {fuel : ℕ} {s t : σ} (start : inv s) (returned : run exhausted step fuel s = .ok t) :
    potential s + spent charge step fuel s = potential t := by
  induction fuel generalizing s with
  | zero => simp [run] at returned
  | succ fuel ih =>
    rcases outcome : step s with e | next
    · rw [run_fail outcome] at returned
      contradiction
    · cases next with
      | none =>
        rw [run_stop outcome] at returned
        cases returned
        rw [spent_stop outcome, Nat.add_zero]
      | some next =>
        obtain ⟨kept, growth⟩ := pays s next start outcome
        rw [run_next outcome] at returned
        rw [spent_next outcome, ← ih kept returned]
        omega

/-- A loop that follows another one spends the same when it charges the same. -/
theorem spent_refines {abstractStep : τ → Except ε (Option τ)} (concrete : τ → σ) {inv : τ → Prop}
    {abstractCharge : τ → ℕ}
    (follows : ∀ a, inv a → step (concrete a) = (abstractStep a).map (Option.map concrete))
    (keeps : ∀ a next, inv a → abstractStep a = .ok (some next) → inv next)
    (same : ∀ a, inv a → charge (concrete a) = abstractCharge a) (fuel : ℕ) {a : τ} (start : inv a) :
    spent charge step fuel (concrete a) = spent abstractCharge abstractStep fuel a := by
  induction fuel generalizing a with
  | zero => rfl
  | succ fuel ih =>
    have here := follows a start
    rcases outcome : abstractStep a with e | next
    · rw [outcome] at here
      rw [spent_fail here, spent_fail outcome, same a start]
    · rw [outcome] at here
      cases next with
      | none => rw [spent_stop here, spent_stop outcome]
      | some next => rw [spent_next here, spent_next outcome, same a start, ih (keeps a next start outcome)]

end BoundedLoop
