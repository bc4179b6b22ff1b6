import Mathlib.Data.List.Basic

/-!
# Splitting a sequence into its non-empty fields

A delimiter is given by a predicate. The fields of a sequence are the non-empty
pieces between delimiters; a reader that skips delimiters, takes the next field
and drops the delimiter behind it finds them one after the other.
-/

namespace Fields

variable {α : Type*} (p : α → Bool)

/-- The non-empty pieces between delimiters. -/
def fields (s : List α) : List (List α) := (s.splitOnP p).filter fun piece => !piece.isEmpty

/-- The next field and what is left behind its delimiter. -/
def next (s : List α) : Option (List α × List α) :=
  let s := s.dropWhile p
  if s.isEmpty then none
  else some (s.takeWhile (!p ·), (s.dropWhile (!p ·)).tail)

variable {p}

@[simp] theorem fields_nil : fields p [] = [] := by
  simp [fields]

/-- A delimiter in front starts no field. -/
theorem fields_cons_of_pos {a : α} (ha : p a = true) (s : List α) :
    fields p (a :: s) = fields p s := by
  unfold fields
  rw [List.splitOnP_cons_eq_if_modifyHead, if_pos ha]
  rfl

/-- Delimiters in front start no field. -/
theorem fields_dropWhile (s : List α) : fields p (s.dropWhile p) = fields p s := by
  induction s with
  | nil => rfl
  | cons a s ih =>
    cases ha : p a with
    | true => rw [List.dropWhile_cons_of_pos ha, ih, fields_cons_of_pos ha]
    | false => rw [List.dropWhile_cons_of_neg (by simp [ha])]

/-- A sequence without delimiters is one field. -/
theorem fields_of_forall {s : List α} (hne : s ≠ []) (hs : ∀ a ∈ s, p a = false) :
    fields p s = [s] := by
  unfold fields
  rw [List.splitOnP_eq_singleton hs]
  simp [hne]

/-- A field with its delimiter in front of the rest. -/
theorem fields_append_cons {piece : List α} {d : α} (hne : piece ≠ [])
    (hpiece : ∀ a ∈ piece, p a = false) (hd : p d = true) (rest : List α) :
    fields p (piece ++ d :: rest) = piece :: fields p rest := by
  unfold fields
  rw [List.splitOnP_append_cons_of_forall_mem hpiece d hd]
  simp [hne]

/-- What is behind the elements that are no delimiters is one. -/
theorem delim_of_dropWhile {s rest : List α} {d : α} (h : s.dropWhile (!p ·) = d :: rest) :
    p d = true := by
  have hhead := List.head?_dropWhile_not (fun b => !p b) s
  rw [h] at hhead
  simpa using hhead

/-- What is read where there is a next field: it starts at an element that is no
delimiter. -/
theorem next_eq_some {s piece rest : List α} (h : next p s = some (piece, rest)) :
    ∃ a t, s.dropWhile p = a :: t ∧ p a = false ∧ (a :: t).takeWhile (!p ·) = piece ∧
      ((a :: t).dropWhile (!p ·)).tail = rest := by
  unfold next at h
  generalize hs : s.dropWhile p = t at h
  obtain _ | ⟨a, t⟩ := t
  · cases h
  have ha : p a = false := by
    have hhead := List.head?_dropWhile_not p s
    rw [hs] at hhead
    simpa using hhead
  obtain ⟨hpiece, hrest⟩ := Prod.mk.inj (Option.some.inj h)
  exact ⟨a, t, rfl, ha, hpiece, hrest⟩

/-- The next field is the first one, and the others are behind it. -/
theorem fields_of_next {s piece rest : List α} (h : next p s = some (piece, rest)) :
    fields p s = piece :: fields p rest := by
  obtain ⟨a, t, hs, ha, rfl, rfl⟩ := next_eq_some h
  rw [← fields_dropWhile, hs]
  have hsplit := List.takeWhile_append_dropWhile (p := fun b => !p b) (l := a :: t)
  have hpiece : ∀ b ∈ (a :: t).takeWhile (!p ·), p b = false := by
    intro b hb
    simpa using List.all_eq_true.mp List.all_takeWhile b hb
  have hne : (a :: t).takeWhile (!p ·) ≠ [] := by
    simp [ha]
  cases hrest : (a :: t).dropWhile (!p ·) with
  | nil =>
    rw [hrest, List.append_nil] at hsplit
    rw [hsplit] at hpiece ⊢
    simpa using fields_of_forall (by simp) hpiece
  | cons d rest =>
    rw [hrest] at hsplit
    rw [← hsplit, fields_append_cons hne hpiece (delim_of_dropWhile hrest), hsplit]
    rfl

/-- There is a next field unless there is none at all. -/
theorem next_eq_none_iff {s : List α} : next p s = none ↔ fields p s = [] := by
  constructor
  · intro h
    rw [← fields_dropWhile]
    unfold next at h
    generalize s.dropWhile p = t at h
    cases t with
    | nil => exact fields_nil
    | cons a t => simp at h
  · intro h
    cases hnext : next p s with
    | none => rfl
    | some r =>
      obtain ⟨piece, rest⟩ := r
      rw [fields_of_next hnext] at h
      cases h

/-- Reading a field makes the rest shorter. -/
theorem length_of_next {s piece rest : List α} (h : next p s = some (piece, rest)) :
    rest.length < s.length := by
  obtain ⟨a, t, hs, -, -, rfl⟩ := next_eq_some h
  have hdrop := (List.dropWhile_suffix (l := s) p).length_le
  have hdrop' := (List.dropWhile_suffix (l := a :: t) fun b => !p b).length_le
  rw [hs] at hdrop
  simp only [List.length_tail, List.length_cons] at hdrop hdrop' ⊢
  omega

/-- The next field and the rest are parts of the sequence. -/
theorem subset_of_next {s piece rest : List α} (h : next p s = some (piece, rest)) :
    piece ⊆ s ∧ rest ⊆ s := by
  obtain ⟨a, t, hs, -, rfl, rfl⟩ := next_eq_some h
  have hdrop := (List.dropWhile_suffix (l := s) p).subset
  rw [hs] at hdrop
  constructor
  · exact fun b hb => hdrop ((List.takeWhile_prefix _).subset hb)
  · exact fun b hb => hdrop ((List.dropWhile_suffix _).subset (List.mem_of_mem_tail hb))

/-- A field is not empty. -/
theorem ne_nil_of_next {s piece rest : List α} (h : next p s = some (piece, rest)) :
    piece ≠ [] := by
  obtain ⟨a, t, -, ha, rfl, -⟩ := next_eq_some h
  rw [List.takeWhile_cons_of_pos (by simp [ha])]
  exact List.cons_ne_nil a _

end Fields
