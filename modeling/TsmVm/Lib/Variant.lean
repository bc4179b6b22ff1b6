import TsmVm.Lib.Lts

/-!
# Goals that are reached in a bounded number of steps

Of the steps of a run some are of interest, those of one thread say. Where each of these
lowers a variant and no other step raises it, a goal is behind the run after as many of
them as the variant was at its start.
-/

namespace Lts

variable {σ ι : Type*} {m : System σ ι} (P goal : σ → Prop) (variant : σ → ℕ) (own : ι → Bool)

/-- As long as a run has not come by the goal, the steps of interest are paid for by the
variant. -/
theorem Run.goal_or_variant (hstep : ∀ {s l t}, P s → ¬ goal s → m.step s l t →
      P t ∧ variant t + (if own l then 1 else 0) ≤ variant s)
    {s t : σ} {ls : List ι} (h : Run m s ls t) (hs : P s) :
    (∃ front back mid, ls = front ++ back ∧ Run m s front mid ∧ Run m mid back t ∧ goal mid ∧
      front.countP own ≤ variant s) ∨
    (P t ∧ variant t + ls.countP own ≤ variant s) := by
  induction h with
  | nil => exact .inr ⟨hs, Nat.le_refl _⟩
  | @snoc t u ls l hrun hl ih =>
    rcases ih with ⟨front, back, mid, rfl, hfront, hback, hgoal, hcount⟩ | ⟨ht, hcount⟩
    · exact .inl ⟨front, back ++ [l], mid, List.append_assoc .., hfront, hback.snoc hl, hgoal,
        hcount⟩
    · by_cases hgoal : goal t
      · exact .inl ⟨ls, [l], t, rfl, hrun, .single hl, hgoal, by omega⟩
      · obtain ⟨hu, hle⟩ := hstep ht hgoal hl
        refine .inr ⟨hu, ?_⟩
        rw [List.countP_append, List.countP_singleton]
        omega

/-- So the goal is behind the run after as many of them as the variant was. -/
theorem Run.goal_of_variant (hstep : ∀ {s l t}, P s → ¬ goal s → m.step s l t →
      P t ∧ variant t + (if own l then 1 else 0) ≤ variant s)
    (hzero : ∀ {s}, P s → variant s = 0 → goal s) {s t : σ} {ls : List ι} (h : Run m s ls t)
    (hs : P s) (hcount : variant s ≤ ls.countP own) :
    ∃ front back mid, ls = front ++ back ∧ Run m s front mid ∧ Run m mid back t ∧ goal mid ∧
      front.countP own ≤ variant s := by
  rcases h.goal_or_variant P goal variant own hstep hs with hgoal | ⟨ht, hle⟩
  · exact hgoal
  · exact ⟨ls, [], t, (List.append_nil ls).symm, h, .nil, hzero ht (by omega), by omega⟩

end Lts
