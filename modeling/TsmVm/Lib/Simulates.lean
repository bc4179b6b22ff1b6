import Mathlib.Data.List.Basic

/-!
# Simulation of computations that may stop

A computation simulates a specification when it returns wherever the
specification does, with a related result. Nothing is said of a specification
that stops, which is how a specification leaves an input open. Simulations
compose along sequences, loops with a counter and loops over a list.
-/

universe v

variable {ε : Type*} {α σ τ σ' τ' : Type v}

/-- Wherever the specification returns, so does the code, with a related
result. -/
def Simulates (R : σ → τ → Prop) (code : Except ε σ) (spec : Except ε τ) : Prop :=
  ∀ t, spec = .ok t → ∃ s, code = .ok s ∧ R s t

/-- `n` rounds of a loop, numbered from `k` on. -/
def loopFrom (round : ℕ → σ → Except ε σ) : ℕ → ℕ → σ → Except ε σ
  | 0, _, s => .ok s
  | n + 1, k, s => round k s >>= loopFrom round n (k + 1)

/-- A loop whose rounds return and keep an invariant returns, and the invariant
holds of the result. -/
theorem loopFrom_run (round : ℕ → σ → Except ε σ) {P : ℕ → σ → Prop} {m : ℕ}
    (hround : ∀ k < m, ∀ s, P k s → ∃ s', round k s = .ok s' ∧ P (k + 1) s') {n k : ℕ}
    (hk : k + n = m) {s : σ} (h : P k s) : ∃ s', loopFrom round n k s = .ok s' ∧ P m s' := by
  induction n generalizing k s with
  | zero => exact ⟨s, rfl, hk ▸ h⟩
  | succ n ih =>
    obtain ⟨s₁, hs₁, h₁⟩ := hround k (by omega) s h
    obtain ⟨s', hs', h'⟩ := ih (by omega) h₁
    refine ⟨s', ?_, h'⟩
    rw [loopFrom, hs₁]
    exact hs'

/-- A loop that returns has run each of its rounds. -/
theorem exists_round_of_loopFrom {round : ℕ → σ → Except ε σ} {n k : ℕ} {s s' : σ}
    (h : loopFrom round n k s = .ok s') {j : ℕ} (hj : j < n) :
    ∃ a b, round (k + j) a = .ok b := by
  induction n generalizing k s j with
  | zero => omega
  | succ n ih =>
    cases hs₁ : round k s with
    | error e =>
      rw [loopFrom, hs₁] at h
      cases h
    | ok s₁ =>
      cases j with
      | zero => exact ⟨s, s₁, hs₁⟩
      | succ j =>
        rw [loopFrom, hs₁] at h
        rw [← Nat.add_assoc, Nat.add_right_comm]
        exact ih h (by omega)

namespace Simulates

variable {R : σ → τ → Prop} {S : σ' → τ' → Prop}

/-- Two results. -/
theorem ok {s : σ} {t : τ} (h : R s t) :
    Simulates R (Except.ok s : Except ε σ) (Except.ok t) := by
  intro t' ht
  obtain rfl := Except.ok.inj ht
  exact ⟨s, rfl, h⟩

/-- A sequence whose first parts simulate and whose second parts do so on related
results. -/
theorem bind {code : Except ε σ} {spec : Except ε τ} {f : σ → Except ε σ'}
    {g : τ → Except ε τ'} (h : Simulates R code spec)
    (hk : ∀ s t, R s t → Simulates S (f s) (g t)) :
    Simulates S (code >>= f) (spec >>= g) := by
  intro t' ht'
  cases spec with
  | error e => cases ht'
  | ok t =>
    obtain ⟨s, rfl, hR⟩ := h t rfl
    exact hk s t hR t' ht'

/-- A sequence with the same first part. -/
theorem bind_same {x : Except ε α} {f : α → Except ε σ} {g : α → Except ε τ}
    (h : ∀ a, x = .ok a → Simulates R (f a) (g a)) : Simulates R (x >>= f) (x >>= g) := by
  cases x with
  | error e => intro t ht; cases ht
  | ok a => exact h a rfl

/-- A loop simulates a loop when each of its rounds simulates the round of the
same number. -/
theorem loop {code : ℕ → σ → Except ε σ} {spec : ℕ → τ → Except ε τ} {m : ℕ}
    (hround : ∀ k < m, ∀ s t, R s t → Simulates R (code k s) (spec k t)) {n k : ℕ} (hk : k + n = m)
    {s : σ} {t : τ} (h : R s t) : Simulates R (loopFrom code n k s) (loopFrom spec n k t) := by
  induction n generalizing k s t with
  | zero => exact ok h
  | succ n ih =>
    refine bind (hround k (by omega) s t h) fun s' t' h' => ?_
    exact ih (by omega) h'

/-- A fold over a list simulates a fold over the same list. -/
theorem foldlM {code : σ → α → Except ε σ} {spec : τ → α → Except ε τ} {as : List α}
    (hstep : ∀ a ∈ as, ∀ s t, R s t → Simulates R (code s a) (spec t a)) {s : σ} {t : τ}
    (h : R s t) : Simulates R (as.foldlM code s) (as.foldlM spec t) := by
  induction as generalizing s t with
  | nil => exact ok h
  | cons a as ih =>
    rw [List.foldlM_cons, List.foldlM_cons]
    refine bind (hstep a (by simp) s t h) fun s' t' h' => ?_
    exact ih (fun b hb => hstep b (by simp [hb])) h'

end Simulates
