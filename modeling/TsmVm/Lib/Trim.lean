import Mathlib.Data.List.DropRight

/-!
# Trimming a sequence at both ends

What may be taken off is given by a predicate. A trimmed sequence has lost the longest
prefix and the longest suffix of such elements, and nothing is left to be taken off it.
-/

namespace Trim

variable {α : Type*} {p : α → Bool} {s : List α}

/-- A sequence without its longest prefix and suffix of elements to be taken off. -/
def trim (p : α → Bool) (s : List α) : List α := (s.dropWhile p).rdropWhile p

/-- What is left of the sequence behind the prefix starts with it. -/
theorem trim_heads_dropWhile (p : α → Bool) (s : List α) : trim p s <+: s.dropWhile p :=
  List.rdropWhile_prefix p (s.dropWhile p)

/-- Its elements are elements of the sequence. -/
theorem mem_of_mem_trim {a : α} (h : a ∈ trim p s) : a ∈ s :=
  (List.dropWhile_sublist p).subset ((trim_heads_dropWhile p s).subset h)

/-- Nothing is left to be taken off in front. -/
theorem dropWhile_trim : (trim p s).dropWhile p = trim p s := by
  obtain ⟨back, hback⟩ := trim_heads_dropWhile p s
  cases htrim : trim p s with
  | nil => rfl
  | cons a left =>
    -- it starts with what the sequence starts with behind the prefix
    have ha : ¬ p a = true := by
      intro ha
      have hagain := List.dropWhile_idempotent p s
      rw [← hback, htrim, List.cons_append, List.dropWhile_cons_of_pos ha] at hagain
      have hlength := ((left ++ back).dropWhile_sublist p).length_le
      rw [hagain, List.length_cons] at hlength
      omega
    exact List.dropWhile_cons_of_neg ha

/-- Trimming twice is trimming once. -/
theorem trim_trim : trim p (trim p s) = trim p s := by
  rw [trim, dropWhile_trim]
  exact List.rdropWhile_idempotent p _

end Trim
