import Mathlib.Data.List.Perm.Basic

/-!
# Items in buckets

A list of buckets and a place for every item: an item lies in the bucket its
place comes to modulo their number. A search that can only find items of one
place need not look into the other buckets, and spreading all items over another
number of buckets loses and doubles none.
-/

namespace Buckets

variable {ε : Type*}

/-- Every item lies in the bucket of its place. -/
def Placed (place : ε → ℕ) (bs : List (List ε)) : Prop :=
  ∀ i xs, bs[i]? = some xs → ∀ x ∈ xs, place x % bs.length = i

/-- An item is put in front of those of its bucket. -/
def push (place : ε → ℕ) (bs : List (List ε)) (x : ε) : List (List ε) :=
  bs.modify (place x % bs.length) (x :: ·)

/-- Items are put one by one into `n` empty buckets. -/
def spread (place : ε → ℕ) (n : ℕ) (l : List ε) : List (List ε) :=
  l.foldl (push place) (List.replicate n [])

variable {place : ε → ℕ} {bs pre post : List (List ε)} {xs ys l : List ε} {x : ε} {n : ℕ}

/-- One bucket among the others. -/
theorem exists_split {i : ℕ} (hi : i < bs.length) :
    ∃ pre xs post, bs = pre ++ xs :: post ∧ pre.length = i := by
  refine ⟨bs.take i, bs[i], bs.drop (i + 1), ?_, ?_⟩
  · rw [← List.drop_eq_getElem_cons hi, List.take_append_drop]
  · rw [List.length_take]
    omega

/-- The bucket of a place. -/
theorem exists_bucket (hbs : bs ≠ []) (k : ℕ) :
    ∃ pre xs post, bs = pre ++ xs :: post ∧ pre.length = k % bs.length :=
  exists_split (Nat.mod_lt k (List.length_pos_iff.mpr hbs))

theorem modify_split (f : List ε → List ε) :
    (pre ++ xs :: post).modify pre.length f = pre ++ f xs :: post := by
  induction pre with
  | nil => rfl
  | cons ws pre ih => rw [List.cons_append, List.length_cons, List.modify_succ_cons, ih,
      List.cons_append]

/-- One more item, in its bucket. -/
theorem push_split (hi : pre.length = place x % (pre ++ xs :: post).length) :
    push place (pre ++ xs :: post) x = pre ++ (x :: xs) :: post := by
  rw [push, ← hi, modify_split]

/-- A bucket is replaced by another one whose items have the same place. -/
theorem Placed.replace (h : Placed place (pre ++ xs :: post))
    (hys : ∀ y ∈ ys, place y % (pre ++ xs :: post).length = pre.length) :
    Placed place (pre ++ ys :: post) := by
  have hlength : (pre ++ ys :: post).length = (pre ++ xs :: post).length := by simp
  intro i zs hzs y hy
  rw [hlength]
  rcases Nat.lt_trichotomy i pre.length with hi | rfl | hi
  · refine h i zs ?_ y hy
    rwa [List.getElem?_append_left hi] at hzs ⊢
  · rw [List.getElem?_append_right (Nat.le_refl _), Nat.sub_self, List.getElem?_cons_zero] at hzs
    exact hys y (Option.some.inj hzs ▸ hy)
  · refine h i zs ?_ y hy
    obtain ⟨j, rfl⟩ := Nat.exists_eq_add_of_lt hi
    rwa [List.getElem?_append_right (by omega), Nat.add_assoc, Nat.add_sub_cancel_left,
      List.getElem?_cons_succ] at hzs ⊢

/-- The items of one bucket. -/
theorem Placed.bucket (h : Placed place (pre ++ xs :: post)) (hx : x ∈ xs) :
    place x % (pre ++ xs :: post).length = pre.length :=
  h pre.length xs (by simp) x hx

/-- The items in front of a bucket and behind it are of other places. -/
theorem Placed.other (h : Placed place (pre ++ xs :: post))
    (hx : x ∈ pre.flatten ∨ x ∈ post.flatten) :
    place x % (pre ++ xs :: post).length ≠ pre.length := by
  rcases hx with hx | hx
  · obtain ⟨ws, hws, hmem⟩ := List.mem_flatten.mp hx
    obtain ⟨i, hi, rfl⟩ := List.getElem_of_mem hws
    rw [h i pre[i] (by rw [List.getElem?_append_left hi, List.getElem?_eq_getElem hi]) x hmem]
    omega
  · obtain ⟨ws, hws, hmem⟩ := List.mem_flatten.mp hx
    obtain ⟨i, hi, rfl⟩ := List.getElem_of_mem hws
    rw [h (pre.length + (i + 1)) post[i] ?_ x hmem]
    · omega
    · rw [List.getElem?_append_right (by omega), Nat.add_sub_cancel_left, List.getElem?_cons_succ,
        List.getElem?_eq_getElem hi]

/-- What is found among all items is found in its bucket. -/
theorem Placed.find? (h : Placed place (pre ++ xs :: post)) {p : ε → Bool} {k : ℕ}
    (hk : pre.length = k % (pre ++ xs :: post).length)
    (hp : ∀ x ∈ (pre ++ xs :: post).flatten, p x = true → place x = k) :
    (pre ++ xs :: post).flatten.find? p = xs.find? p := by
  have hother : ∀ x, x ∈ pre.flatten ∨ x ∈ post.flatten → ¬ p x = true := fun x hx hpx => by
    refine h.other hx ?_
    rw [hp x ?_ hpx, hk]
    rw [List.flatten_append, List.flatten_cons, List.mem_append, List.mem_append]
    exact hx.imp id .inr
  have hpre : pre.flatten.find? p = none :=
    List.find?_eq_none.mpr fun x hx => hother x (.inl hx)
  have hpost : post.flatten.find? p = none :=
    List.find?_eq_none.mpr fun x hx => hother x (.inr hx)
  rw [List.flatten_append, List.flatten_cons, List.find?_append, List.find?_append, hpre, hpost,
    Option.none_or, Option.or_none]

theorem length_push : (push place bs x).length = bs.length := List.length_modify ..

/-- One more item. -/
theorem push_flatten_perm (hbs : bs ≠ []) (x : ε) :
    (push place bs x).flatten.Perm (x :: bs.flatten) := by
  obtain ⟨pre, xs, post, rfl, hi⟩ := exists_bucket hbs (place x)
  rw [push_split hi, List.flatten_append, List.flatten_append, List.flatten_cons,
    List.flatten_cons, List.cons_append]
  exact List.perm_middle

theorem Placed.push (h : Placed place bs) (hbs : bs ≠ []) (x : ε) :
    Placed place (Buckets.push place bs x) := by
  obtain ⟨pre, xs, post, rfl, hi⟩ := exists_bucket hbs (place x)
  rw [push_split hi]
  refine h.replace fun y hy => ?_
  rcases List.mem_cons.mp hy with rfl | hy
  · exact hi.symm
  · exact h.bucket hy

theorem placed_replicate (place : ε → ℕ) (n : ℕ) : Placed place (List.replicate n []) := by
  intro i xs hxs x hx
  obtain rfl : xs = [] := (List.mem_replicate.mp (List.mem_of_getElem? hxs)).2
  cases hx

theorem push_ne_nil (hbs : bs ≠ []) : push place bs x ≠ [] := by
  rwa [← List.length_pos_iff, length_push, List.length_pos_iff]

theorem length_foldl_push (l : List ε) : (l.foldl (push place) bs).length = bs.length := by
  induction l generalizing bs with
  | nil => rfl
  | cons x l ih => exact ih.trans length_push

theorem foldl_push_ne_nil (hbs : bs ≠ []) (l : List ε) : l.foldl (push place) bs ≠ [] := by
  rwa [← List.length_pos_iff, length_foldl_push, List.length_pos_iff]

/-- Putting items into buckets keeps those that are there. -/
theorem foldl_push_perm (hbs : bs ≠ []) (l : List ε) :
    (l.foldl (push place) bs).flatten.Perm (bs.flatten ++ l) := by
  induction l generalizing bs with
  | nil => rw [List.append_nil, List.foldl_nil]
  | cons x l ih =>
    refine (ih (push_ne_nil hbs)).trans (((push_flatten_perm hbs x).append_right l).trans ?_)
    exact List.perm_middle.symm

theorem Placed.foldl_push (h : Placed place bs) (hbs : bs ≠ []) (l : List ε) :
    Placed place (l.foldl (Buckets.push place) bs) := by
  induction l generalizing bs with
  | nil => exact h
  | cons x l ih => exact ih (h.push hbs x) (push_ne_nil hbs)

theorem length_spread (n : ℕ) (l : List ε) : (spread place n l).length = n := by
  rw [spread, length_foldl_push, List.length_replicate]

/-- Spreading loses no item and doubles none. -/
theorem spread_perm (hn : n ≠ 0) (l : List ε) : (spread place n l).flatten.Perm l := by
  refine (foldl_push_perm (by simpa using hn) l).trans ?_
  rw [List.flatten_replicate_nil, List.nil_append]

theorem placed_spread (hn : n ≠ 0) (l : List ε) : Placed place (spread place n l) :=
  (placed_replicate place n).foldl_push (by simpa using hn) l

end Buckets
