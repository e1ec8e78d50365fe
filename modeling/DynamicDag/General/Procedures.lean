import Mathlib.Logic.Basic

/-! # Procedures on a state that outlives a failure

A procedure returns or fails, and both ends carry a state: what was written before a failure stays
written. A sequence of procedures is run from the front; these rules peel off its first one.
-/

namespace Procedures

variable {ε σ α β : Type} {first : EStateM ε σ α} {next : α → EStateM ε σ β} {s t : σ}

theorem get_bind (next : σ → EStateM ε σ β) (s : σ) : (get >>= next) s = next s s := rfl

theorem set_bind (written : σ) (next : PUnit → EStateM ε σ β) (s : σ) :
    (set written >>= next) s = next ⟨⟩ written := rfl

theorem bind_ok {a : α} (returned : first s = .ok a t) : (first >>= next) s = next a t := by
  change EStateM.run (first >>= next) s = _
  rw [EStateM.run_bind, show EStateM.run first s = .ok a t from returned]
  rfl

theorem bind_error {e : ε} (failed : first s = .error e t) : (first >>= next) s = .error e t := by
  change EStateM.run (first >>= next) s = _
  rw [EStateM.run_bind, show EStateM.run first s = .error e t from failed]

/-- The state at the end of a procedure, whether it returned or failed. -/
def endState : EStateM.Result ε σ α → σ
  | .ok _ s => s
  | .error _ s => s

/-- How a procedure ended, without the state. -/
def outcomeOf : EStateM.Result ε σ α → Except ε α
  | .ok a _ => .ok a
  | .error e _ => .error e

section Follows

variable {τ : Type}

/-- The end of a procedure, with its state seen through a map. -/
def mapState (f : σ → τ) : EStateM.Result ε σ α → EStateM.Result ε τ α
  | .ok a s => .ok a (f s)
  | .error e s => .error e (f s)

/-- One procedure does on the images of the states what the other one does on the states. -/
def Follows (other : EStateM ε τ α) (procedure : EStateM ε σ α) (f : σ → τ) : Prop :=
  ∀ s, other (f s) = mapState f (procedure s)

theorem endState_mapState (f : σ → τ) (outcome : EStateM.Result ε σ α) :
    endState (mapState f outcome) = f (endState outcome) := by
  cases outcome <;> rfl

theorem outcomeOf_mapState (f : σ → τ) (outcome : EStateM.Result ε σ α) :
    outcomeOf (mapState f outcome) = outcomeOf outcome := by
  cases outcome <;> rfl

end Follows

end Procedures
