import Mathlib.Data.List.Infix

/-! # Drawing pairs until one is accepted

A stream of random draws is a finite list of which a run may use any prefix. `draw` reads pairs until
the candidate made from one is accepted and returns it with the rest of the stream; running out of
draws is a failure of its own, so that any other outcome is that of every longer stream.
-/

namespace RejectionSampling

variable {δ β ε : Type*}

/-- Read pairs of draws until the candidate made from one is not rejected. -/
def draw (exhausted : ε) (candidate : δ → δ → Except ε β) (rejected : β → Bool) :
    List δ → Except ε (β × List δ)
  | a :: b :: draws =>
    match candidate a b with
    | .error e => .error e
    | .ok c => if rejected c then draw exhausted candidate rejected draws else .ok (c, draws)
  | _ => .error exhausted

/-- What a returned candidate was made from. -/
theorem draw_ok {exhausted : ε} {candidate : δ → δ → Except ε β} {rejected : β → Bool}
    {draws rest : List δ} {c : β} (drawn : draw exhausted candidate rejected draws = .ok (c, rest)) :
    (∃ a ∈ draws, ∃ b ∈ draws, candidate a b = .ok c) ∧ rejected c = false ∧ rest ⊆ draws := by
  induction draws using draw.induct candidate rejected with
  | case1 a b draws e failed => simp [draw, failed] at drawn
  | case2 a b draws next made refused ih =>
    simp only [draw, made, refused, ↓reduceIte] at drawn
    obtain ⟨⟨first, firstMem, second, secondMem, same⟩, accepted, sub⟩ := ih drawn
    refine ⟨⟨first, ?_, second, ?_, same⟩, accepted, fun d member => ?_⟩
    · exact List.mem_cons_of_mem _ (List.mem_cons_of_mem _ firstMem)
    · exact List.mem_cons_of_mem _ (List.mem_cons_of_mem _ secondMem)
    · exact List.mem_cons_of_mem _ (List.mem_cons_of_mem _ (sub member))
  | case3 a b draws next made accepted =>
    simp only [draw, made, accepted, Bool.false_eq_true, ↓reduceIte, Except.ok.injEq,
      Prod.mk.injEq] at drawn
    obtain ⟨rfl, rfl⟩ := drawn
    refine ⟨⟨a, by simp, b, by simp, made⟩, by simpa using accepted, fun d member => ?_⟩
    exact List.mem_cons_of_mem _ (List.mem_cons_of_mem _ member)
  | case4 draws short =>
    rcases draws with _ | ⟨a, _ | ⟨b, draws⟩⟩
    · simp [draw] at drawn
    · simp [draw] at drawn
    · exact (short a b draws rfl).elim

/-- If no candidate fails, drawing can only run out of draws. -/
theorem draw_error {exhausted : ε} {candidate : δ → δ → Except ε β} {rejected : β → Bool}
    {draws : List δ} {e : ε} (total : ∀ a ∈ draws, ∀ b ∈ draws, ∃ c, candidate a b = .ok c)
    (failed : draw exhausted candidate rejected draws = .error e) : e = exhausted := by
  induction draws using draw.induct candidate rejected with
  | case1 a b draws other wrong =>
    obtain ⟨c, made⟩ := total a (by simp) b (by simp)
    simp [made] at wrong
  | case2 a b draws next made refused ih =>
    simp only [draw, made, refused, ↓reduceIte] at failed
    exact ih (fun a left b right => total a (by simp [left]) b (by simp [right])) failed
  | case3 a b draws next made accepted =>
    simp [draw, made, accepted] at failed
  | case4 draws short =>
    rcases draws with _ | ⟨a, _ | ⟨b, draws⟩⟩
    · simpa [draw, eq_comm] using failed
    · simpa [draw, eq_comm] using failed
    · exact (short a b draws rfl).elim

/-- Drawing follows a map of the candidates that the rejection does not see. -/
theorem draw_map {γ : Type*} {exhausted : ε} {candidate : δ → δ → Except ε β}
    {candidate' : δ → δ → Except ε γ} {rejected : β → Bool} {rejected' : γ → Bool} (f : β → γ)
    (made : ∀ a b, candidate' a b = (candidate a b).map f) (same : ∀ c, rejected' (f c) = rejected c)
    (draws : List δ) : draw exhausted candidate' rejected' draws =
      (draw exhausted candidate rejected draws).map fun drawn => (f drawn.1, drawn.2) := by
  induction draws using draw.induct candidate rejected with
  | case1 a b draws e failed => simp [draw, made, failed, Except.map]
  | case2 a b draws next made' refused ih => simpa [draw, made, made', same, refused, Except.map] using ih
  | case3 a b draws next made' accepted => simp [draw, made, made', same, accepted, Except.map]
  | case4 draws short =>
    rcases draws with _ | ⟨a, _ | ⟨b, draws⟩⟩
    · rfl
    · rfl
    · exact (short a b draws rfl).elim

section Fill

variable {σ : Type*} (exhausted : ε) (candidate : δ → δ → Except ε β) (rejected : σ → β → Bool)
  (record : σ → β → Except ε σ)

/-- Draw and record a number of candidates, where those recorded decide which are rejected next. -/
def fill : ℕ → σ → List δ → Except ε (σ × List δ)
  | 0, s, draws => .ok (s, draws)
  | rounds + 1, s, draws =>
    match draw exhausted candidate (rejected s) draws with
    | .error e => .error e
    | .ok (c, rest) =>
      match record s c with
      | .error e => .error e
      | .ok t => fill rounds t rest

/-- The draws so far lead from `rounds` missing candidates in state `s` to `left` in state `t`. -/
inductive Reaches (rounds : ℕ) (s : σ) : List δ → ℕ → σ → Prop
  | start : Reaches rounds s [] rounds s
  | again {draws : List δ} {left : ℕ} {t : σ} {a b : δ} {c : β} :
    Reaches rounds s draws (left + 1) t → candidate a b = .ok c → rejected t c = true →
      Reaches rounds s (draws ++ [a, b]) (left + 1) t
  | accept {draws : List δ} {left : ℕ} {t u : σ} {a b : δ} {c : β} :
    Reaches rounds s draws (left + 1) t → candidate a b = .ok c → rejected t c = false →
      record t c = .ok u → Reaches rounds s (draws ++ [a, b]) left u

variable {exhausted candidate rejected record} {rounds left : ℕ} {s t : σ} {draws : List δ}

/-- A state is reached by the draws exactly as the run reaches it. -/
theorem fill_of_reaches (reached : Reaches candidate rejected record rounds s draws left t)
    (more : List δ) : fill exhausted candidate rejected record rounds s (draws ++ more) =
      fill exhausted candidate rejected record left t more := by
  induction reached generalizing more with
  | start => rfl
  | again _ made refused ih =>
    rw [List.append_assoc, ih]
    simp only [List.cons_append, List.nil_append, fill, draw, made, refused, ↓reduceIte]
  | accept _ made accepted recorded ih =>
    rw [List.append_assoc, ih]
    simp only [List.cons_append, List.nil_append, fill, draw, made, accepted, recorded, Bool.false_eq_true,
      ↓reduceIte]

/-- What every recorded candidate keeps holds in every state reached. -/
theorem Reaches.invariant (inv : ℕ → σ → Prop) {range : δ → Prop}
    (keeps : ∀ left t a b c u, inv (left + 1) t → range a → range b → candidate a b = .ok c →
      rejected t c = false → record t c = .ok u → inv left u)
    (first : inv rounds s) (inRange : ∀ d ∈ draws, range d)
    (reached : Reaches candidate rejected record rounds s draws left t) : inv left t := by
  induction reached with
  | start => exact first
  | again _ _ _ ih => exact ih fun d member => inRange d (List.mem_append_left _ member)
  | accept _ made accepted recorded ih =>
    refine keeps _ _ _ _ _ _ (ih fun d member => inRange d (List.mem_append_left _ member)) ?_ ?_ made accepted
      recorded
    · exact inRange _ (by simp)
    · exact inRange _ (by simp)

/-- If some draws are accepted in every state reached, every state reached can be completed. -/
theorem exists_finish {range : δ → Prop}
    (progress : ∀ draws left t, (∀ d ∈ draws, range d) →
      Reaches candidate rejected record rounds s draws (left + 1) t →
      ∃ a b c u, range a ∧ range b ∧ candidate a b = .ok c ∧ rejected t c = false ∧ record t c = .ok u)
    (inRange : ∀ d ∈ draws, range d)
    (reached : Reaches candidate rejected record rounds s draws left t) :
    ∃ more, (∀ d ∈ more, range d) ∧ ∃ u, Reaches candidate rejected record rounds s (draws ++ more) 0 u := by
  induction left generalizing draws t with
  | zero => exact ⟨[], by simp, t, by simpa using reached⟩
  | succ left ih =>
    obtain ⟨a, b, c, u, left, right, made, accepted, recorded⟩ := progress draws _ t inRange reached
    have pair : ∀ d ∈ [a, b], range d := by simp [left, right]
    obtain ⟨more, moreRange, last, finished⟩ :=
      ih (List.forall_mem_append.mpr ⟨inRange, pair⟩) (reached.accept made accepted recorded)
    refine ⟨[a, b] ++ more, List.forall_mem_append.mpr ⟨pair, moreRange⟩, last, ?_⟩
    rwa [← List.append_assoc]

end Fill

end RejectionSampling
