import Mathlib.Data.List.Infix

/-!
# Occurrences of a pattern in a text

The first place at which a pattern occurs in a text, and texts that break off in
the middle of a pattern. For the latter no one can tell from the text alone
whether the pattern goes on behind it.
-/

namespace TsmVm

variable {α : Type*} {sub str : List α}

/-- Some end of the text is a beginning of the pattern. -/
def EndsInside (sub str : List α) : Prop := ∃ t ∈ str.tails, t ≠ [] ∧ t <+: sub

@[simp] theorem not_endsInside_nil : ¬ EndsInside sub [] := by
  simp [EndsInside]

/-- A text breaks off inside the pattern as a whole or in its rest. -/
theorem endsInside_cons (sub : List α) (a : α) (str : List α) :
    EndsInside sub (a :: str) ↔ a :: str <+: sub ∨ EndsInside sub str := by
  simp [EndsInside]

variable [DecidableEq α]

instance (sub str : List α) : Decidable (EndsInside sub str) :=
  inferInstanceAs (Decidable (∃ t ∈ str.tails, t ≠ [] ∧ t <+: sub))

/-- The first place at which `sub` occurs in `str`. -/
def firstOccurrence (sub str : List α) : Option ℕ :=
  str.tails.findIdx? fun t => sub <+: t

/-- A pattern occurs at once or in the rest of the text. -/
theorem firstOccurrence_cons (sub : List α) (a : α) (str : List α) :
    firstOccurrence sub (a :: str) =
      if sub <+: a :: str then some 0 else (firstOccurrence sub str).map (· + 1) := by
  simp [firstOccurrence, List.findIdx?_cons]

/-- A pattern of at least one symbol does not occur in the empty text. -/
theorem firstOccurrence_nil (hsub : sub ≠ []) : firstOccurrence sub [] = none := by
  simp [firstOccurrence, List.findIdx?_cons, hsub]

/-- The first occurrence is the least place from which the text goes on with the
pattern. -/
theorem firstOccurrence_eq_some {k : ℕ} :
    firstOccurrence sub str = some k ↔
      k ≤ str.length ∧ sub <+: str.drop k ∧ ∀ j < k, ¬ sub <+: str.drop j := by
  unfold firstOccurrence
  rw [List.findIdx?_eq_some_iff_getElem]
  simp only [List.length_tails, List.getElem_tails, decide_eq_true_eq]
  constructor
  · rintro ⟨hk, hsub, hleast⟩
    exact ⟨by omega, hsub, fun j hj => hleast j hj⟩
  · rintro ⟨hk, hsub, hleast⟩
    exact ⟨by omega, hsub, fun j hj => hleast j hj⟩

/-- There is a first occurrence unless the pattern does not occur at all. -/
theorem firstOccurrence_eq_none : firstOccurrence sub str = none ↔ ¬ sub <:+: str := by
  unfold firstOccurrence
  rw [List.findIdx?_eq_none_iff]
  simp only [List.mem_tails, decide_eq_false_iff_not]
  rw [List.infix_iff_prefix_suffix]
  constructor
  · rintro h ⟨t, hstarts, hsuffix⟩
    exact h t hsuffix hstarts
  · intro h t hsuffix hstarts
    exact h ⟨t, hstarts, hsuffix⟩

/-- A pattern that does not start with one of its own ends occurs behind a text without
it for the first time where it was appended. -/
theorem firstOccurrence_append (hno : ¬ sub <:+: str)
    (hborder : ∀ k < sub.length, 0 < k → ¬ sub.drop k <+: sub) :
    firstOccurrence sub (str ++ sub) = some str.length := by
  rw [firstOccurrence_eq_some, List.drop_left, List.length_append]
  refine ⟨Nat.le_add_right _ _, List.prefix_refl sub, fun j hj hsub => ?_⟩
  rw [List.drop_append_of_le_length hj.le] at hsub
  have hinfix : ¬ sub <+: str.drop j := fun h =>
    hno (h.isInfix.trans (List.drop_suffix j str).isInfix)
  -- the text breaks off inside the pattern, which goes on with a beginning of itself
  obtain ⟨rest, hrest⟩ := (List.prefix_or_prefix_of_prefix hsub
    (List.prefix_append _ sub)).resolve_left hinfix
  have hnil : rest ≠ [] := by
    rintro rfl
    rw [List.append_nil] at hrest
    exact hinfix (hrest ▸ List.prefix_refl _)
  have hlen := congrArg List.length hrest
  have hpos := List.length_pos_iff.mpr hnil
  rw [List.length_append, List.length_drop] at hlen
  have hdrop : sub.drop (str.drop j).length = rest := by
    rw [← hrest, List.drop_left]
  refine hborder (str.drop j).length (by rw [List.length_drop]; omega)
    (by rw [List.length_drop]; omega) ?_
  rw [hdrop]
  refine (List.prefix_append_right_inj (str.drop j)).mp ?_
  rwa [hrest]

end TsmVm
