import Mathlib.Algebra.BigOperators.Group.Finset.Basic

/-!
# Families one member of which moves

Where one thread of many takes a step, the family of their states changes at one
place. A sum over the family changes by the difference there, and what at most
one member has is still had by at most one if the one that moved has not got it
while another has it.
-/

namespace Families

/-- Changing the value at one place of a finite family changes a sum over the
family by the difference there. -/
theorem sum_update {T β M : Type*} [Fintype T] [DecidableEq T] [AddCommMonoid M] (g : β → M)
    (v : T → β) (t : T) (b : β) :
    (∑ i, g (Function.update v t b i)) + g (v t) = (∑ i, g (v i)) + g b := by
  have hrest : ∑ i ∈ Finset.univ.erase t, g (Function.update v t b i) =
      ∑ i ∈ Finset.univ.erase t, g (v i) := by
    refine Finset.sum_congr rfl fun i hi => ?_
    rw [Function.update_of_ne (Finset.ne_of_mem_erase hi)]
  have hnew := Finset.add_sum_erase Finset.univ (fun i => g (Function.update v t b i))
    (Finset.mem_univ t)
  have hold := Finset.add_sum_erase Finset.univ (fun i => g (v i)) (Finset.mem_univ t)
  simp only [Function.update_self] at hnew
  rw [← hnew, ← hold, hrest]
  exact add_right_comm .. |>.trans (by rw [add_comm (g b), add_right_comm])

/-- What at most one member has, at most one has after one has moved, if no other
has what the moved one has got. -/
theorem unique_update {T β : Type*} [DecidableEq T] {v : T → β} {P : β → Prop} {t : T} {b : β}
    (hold : ∀ i j, P (v i) → P (v j) → i = j) (hnew : P b → ∀ i, i ≠ t → ¬ P (v i)) {i j : T}
    (hi : P (Function.update v t b i)) (hj : P (Function.update v t b j)) : i = j := by
  by_cases hit : i = t <;> by_cases hjt : j = t
  · rw [hit, hjt]
  · rw [hit, Function.update_self] at hi
    rw [Function.update_of_ne hjt] at hj
    exact absurd hj (hnew hi j hjt)
  · rw [hjt, Function.update_self] at hj
    rw [Function.update_of_ne hit] at hi
    exact absurd hi (hnew hj i hit)
  · rw [Function.update_of_ne hit] at hi
    rw [Function.update_of_ne hjt] at hj
    exact hold i j hi hj

end Families
