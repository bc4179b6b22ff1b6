import Mathlib.Data.List.Pairwise
import Mathlib.Data.List.Perm.Basic

/-!
# Dictionaries under an equality of keys

A dictionary gives for a key the key and the value stored under an equal one.
What is equal is up to the user of the dictionary; it has to be an equivalence.
A list of pairs without equal keys lists a dictionary, in whatever order, and
adding, replacing and removing a pair of it are writing and erasing a key.
-/

namespace Dictionary

variable {κ ω : Type*}

/-- The pairs stored, by the keys they are found under. -/
abbrev Dict (κ ω : Type*) := κ → Option (κ × ω)

/-- What is asked of an equality of keys. -/
structure Equality (eq : κ → κ → Bool) : Prop where
  refl : ∀ k, eq k k = true
  symm : ∀ {k k'}, eq k k' = true → eq k' k = true
  trans : ∀ {k k' k''}, eq k k' = true → eq k' k'' = true → eq k k'' = true

/-- The dictionary with a pair under every key equal to its own. -/
def write (eq : κ → κ → Bool) (D : Dict κ ω) (k : κ) (v : ω) : Dict κ ω :=
  fun x => if eq x k then some (k, v) else D x

/-- The dictionary without what is stored under a key. -/
def erase (eq : κ → κ → Bool) (D : Dict κ ω) (k : κ) : Dict κ ω :=
  fun x => if eq x k then none else D x

/-- The pairs of a dictionary, each of them once. -/
structure Lists (eq : κ → κ → Bool) (l : List (κ × ω)) (D : Dict κ ω) : Prop where
  /-- A pair is found under the keys equal to its own. -/
  find : ∀ k, D k = l.find? fun w => eq k w.1
  /-- No two keys are equal. -/
  distinct : l.Pairwise fun x y => eq x.1 y.1 = false

variable {eq : κ → κ → Bool} {D : Dict κ ω} {l l' : List (κ × ω)} {k k₀ : κ} {v v₀ : ω}

/-- Where at most one element qualifies, the order does not matter. -/
theorem find?_perm {ε : Type*} {xs ys : List ε} {p : ε → Bool} (h : xs.Perm ys)
    (hp : xs.Pairwise fun x y => ¬ (p x = true ∧ p y = true)) : xs.find? p = ys.find? p := by
  induction h with
  | nil => rfl
  | cons x _ ih => rw [List.find?_cons, List.find?_cons, ih (List.pairwise_cons.mp hp).2]
  | swap x y l =>
    have hxy := (List.pairwise_cons.mp hp).1 x List.mem_cons_self
    cases hx : p x <;> cases hy : p y <;> simp_all
  | trans h₁ _ ih₁ ih₂ =>
    refine (ih₁ hp).trans (ih₂ ((h₁.pairwise_iff ?_).mp hp))
    exact fun hxy hyx => hxy hyx.symm

/-- The empty dictionary. -/
theorem lists_nil (eq : κ → κ → Bool) : Lists eq ([] : List (κ × ω)) fun _ => none :=
  ⟨fun _ => rfl, .nil⟩

/-- An element under two equal keys. -/
theorem Equality.congr (heq : Equality eq) {x y k : κ} (h : eq x y = true) : eq x k = eq y k := by
  rw [Bool.eq_iff_iff]
  exact ⟨fun hx => heq.trans (heq.symm h) hx, fun hy => heq.trans h hy⟩

/-- A dictionary does not tell the order of its pairs. -/
theorem Lists.perm (heq : Equality eq) (h : Lists eq l D) (hp : l.Perm l') : Lists eq l' D := by
  refine ⟨fun k => (h.find k).trans (find?_perm hp (h.distinct.imp fun hxy hboth => ?_)),
    (hp.pairwise_iff fun hxy => ?_).mp h.distinct⟩
  · rw [heq.trans (heq.symm hboth.1) hboth.2] at hxy
    cases hxy
  · rw [Bool.eq_false_iff] at hxy ⊢
    exact fun hyx => hxy (heq.symm hyx)

/-- Nothing equal to a key is stored. -/
theorem Lists.eq_none_iff (h : Lists eq l D) (k : κ) :
    D k = none ↔ ∀ w ∈ l, eq k w.1 = false := by
  simp only [h.find, List.find?_eq_none, Bool.not_eq_true]

/-- Another pair is written. -/
theorem Lists.add (h : Lists eq l D) (hk : D k = none) :
    Lists eq ((k, v) :: l) (write eq D k v) := by
  refine ⟨fun x => ?_, List.pairwise_cons.mpr ⟨(h.eq_none_iff k).mp hk, h.distinct⟩⟩
  rw [List.find?_cons, write]
  cases hx : eq x k with
  | true => rfl
  | false => exact h.find x

/-- The pair stored under an equal key is removed. -/
theorem Lists.remove (heq : Equality eq) (h : Lists eq ((k₀, v₀) :: l) D) (hk : eq k k₀ = true) :
    Lists eq l (erase eq D k) := by
  obtain ⟨hhead, htail⟩ := List.pairwise_cons.mp h.distinct
  refine ⟨fun x => ?_, htail⟩
  have hfind := h.find x
  rw [List.find?_cons] at hfind
  rw [erase]
  cases hx : eq x k with
  | true =>
    have hnone : l.find? (fun w => eq x w.1) = none := by
      rw [List.find?_eq_none]
      intro w hw hxw
      have hw' := hhead w hw
      rw [heq.trans (heq.symm (heq.trans hx hk)) hxw] at hw'
      cases hw'
    rw [hnone]
    rfl
  | false =>
    have hx₀ : eq x k₀ = false := by
      rw [Bool.eq_false_iff] at hx ⊢
      exact fun hx₀ => hx (heq.trans hx₀ (heq.symm hk))
    rw [hx₀] at hfind
    exact hfind

/-- The pair stored under an equal key is overwritten. -/
theorem Lists.replace (heq : Equality eq) (h : Lists eq ((k₀, v₀) :: l) D)
    (hk : eq k k₀ = true) : Lists eq ((k, v) :: l) (write eq D k v) := by
  have hrest := h.remove heq hk
  have hnone : erase eq D k k = none := by rw [erase, heq.refl, if_pos rfl]
  have hwrite : write eq (erase eq D k) k v = write eq D k v := by
    funext x
    rw [write, write, erase]
    cases eq x k <;> rfl
  exact hwrite ▸ hrest.add hnone

/-- Erasing a key that is not there changes nothing. -/
theorem erase_of_none (heq : Equality eq) (h : Lists eq l D) (hk : D k = none) :
    erase eq D k = D := by
  funext x
  rw [erase]
  cases hx : eq x k with
  | true =>
    refine Eq.symm ((h.eq_none_iff x).mpr fun w hw => ?_)
    exact (heq.congr hx).trans ((h.eq_none_iff k).mp hk w hw)
  | false => rfl

/-- A pair that is listed is found under its key. -/
theorem Lists.mem_iff (heq : Equality eq) (h : Lists eq l D) (w : κ × ω) :
    w ∈ l ↔ D w.1 = some w := by
  rw [h.find]
  constructor
  · intro hw
    obtain ⟨front, back, rfl⟩ := List.append_of_mem hw
    have hfront : ∀ x ∈ front, ¬ eq w.1 x.1 = true := by
      intro x hx hxw
      have hdistinct := (List.pairwise_append.mp h.distinct).2.2 x hx w List.mem_cons_self
      rw [heq.symm hxw] at hdistinct
      cases hdistinct
    rw [List.find?_append, List.find?_eq_none.mpr hfront, Option.none_or, List.find?_cons,
      heq.refl]
  · exact List.mem_of_find?_eq_some

/-- A dictionary has one list, up to the order. -/
theorem Lists.unique (heq : Equality eq) (h : Lists eq l D) (h' : Lists eq l' D) : l.Perm l' := by
  have hnodup : ∀ {l : List (κ × ω)}, Lists eq l D → l.Nodup := by
    intro l h
    refine h.distinct.imp fun hxy hsame => ?_
    rw [hsame, heq.refl] at hxy
    cases hxy
  refine (List.perm_ext_iff_of_nodup (hnodup h) (hnodup h')).mpr fun w => ?_
  rw [h.mem_iff heq, h'.mem_iff heq]

/-- The pair under an equal key is overwritten where it stands. -/
theorem Lists.map_replace (heq : Equality eq) (h : Lists eq l D) (hk : D k ≠ none) (v : ω) :
    Lists eq (l.map fun w => if eq k w.1 then (k, v) else w) (write eq D k v) := by
  obtain ⟨w, hw⟩ := Option.ne_none_iff_exists'.mp hk
  rw [h.find] at hw
  obtain ⟨hkw, front, back, rfl, hfront⟩ := List.find?_eq_some_iff_append.mp hw
  have hback : ∀ x ∈ back, eq k x.1 = false := by
    intro x hx
    have hdistinct := (List.pairwise_append.mp h.distinct).2.1
    rw [heq.congr hkw]
    exact (List.pairwise_cons.mp hdistinct).1 x hx
  have hmap : ∀ xs : List (κ × ω), (∀ x ∈ xs, eq k x.1 = false) →
      xs.map (fun w => if eq k w.1 then (k, v) else w) = xs := by
    intro xs hxs
    refine (List.map_congr_left fun x hx => ?_).trans (List.map_id xs)
    rw [hxs x hx]
    rfl
  have hfront' : ∀ x ∈ front, eq k x.1 = false := fun x hx => by simpa using hfront x hx
  rw [List.map_append, List.map_cons, hmap front hfront', hmap back hback, if_pos hkw]
  have hmoved := h.perm heq List.perm_middle
  exact (hmoved.replace heq hkw).perm heq List.perm_middle.symm

end Dictionary
