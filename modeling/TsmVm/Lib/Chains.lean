import Mathlib.Data.List.Nodup
import Mathlib.Data.List.Perm.Basic
import Mathlib.Logic.Function.Basic

/-!
# Chains of doubly linked nodes

Nodes at addresses, each with an item and links to the nodes around it, where
there are any. A segment is a list of nodes together with what its first node
is linked back to and its last one on to; a chain is a segment linked to nothing.
Cutting a node out and putting one in front are said for the two stores they
consist of.
-/

namespace Chains

variable {α ε : Type*}

/-- A node: its item and the addresses of the nodes around it. -/
structure Node (α ε : Type*) where
  prev : Option α
  next : Option α
  item : ε
  deriving DecidableEq

/-- The nodes there are, by their addresses. -/
abbrev Store (α ε : Type*) := α → Option (Node α ε)

/-- Where a list of nodes begins. -/
def first (xs : List (α × ε)) : Option α := xs.head?.map Prod.fst

/-- Where a list of nodes ends, if not with `p`. -/
def last : Option α → List (α × ε) → Option α
  | p, [] => p
  | _, x :: xs => last (some x.1) xs

/-- The nodes `xs` one after the other, linked back to `p` and on to `n`. -/
def Seg (m : Store α ε) : Option α → List (α × ε) → Option α → Prop
  | _, [], _ => True
  | p, x :: xs, n => m x.1 = some ⟨p, (first xs).or n, x.2⟩ ∧ Seg m (some x.1) xs n

variable {m m' : Store α ε} {p q n k : Option α} {a b : α} {e e' : ε} {x : α × ε}
  {xs ys : List (α × ε)}

@[simp] theorem first_nil : first ([] : List (α × ε)) = none := rfl

@[simp] theorem first_cons (x : α × ε) (xs : List (α × ε)) : first (x :: xs) = some x.1 := rfl

theorem first_append (xs ys : List (α × ε)) : first (xs ++ ys) = (first xs).or (first ys) := by
  cases xs <;> simp

@[simp] theorem last_concat (p : Option α) (xs : List (α × ε)) (x : α × ε) :
    last p (xs ++ [x]) = some x.1 := by
  induction xs generalizing p with
  | nil => rfl
  | cons y ys ih => exact ih (some y.1)

/-- Two segments, the first linked on to the second and the second back to the first. -/
theorem seg_append_iff :
    Seg m p (xs ++ ys) n ↔ Seg m p xs ((first ys).or n) ∧ Seg m (last p xs) ys n := by
  induction xs generalizing p with
  | nil => simp [Seg, last]
  | cons x xs ih =>
    rw [List.cons_append, Seg, Seg, ih, first_append, Option.or_assoc, last, and_assoc]

/-- Only the nodes of a segment matter to it. -/
theorem Seg.congr (h : Seg m p xs n) (hm : ∀ a ∈ xs.map Prod.fst, m' a = m a) :
    Seg m' p xs n := by
  induction xs generalizing p with
  | nil => trivial
  | cons x xs ih =>
    refine ⟨(hm x.1 (by simp)).trans h.1, ih h.2 fun a ha => hm a ?_⟩
    exact List.mem_cons_of_mem x.1 ha

/-- The nodes of a segment are there. -/
theorem Seg.node (h : Seg m p xs n) (hx : x ∈ xs) : (m x.1).map Node.item = some x.2 := by
  induction xs generalizing p with
  | nil => cases hx
  | cons y ys ih =>
    rcases List.mem_cons.mp hx with rfl | hmem
    · rw [h.1, Option.map_some]
    · exact ih h.2 hmem

theorem Seg.isSome (h : Seg m p xs n) (ha : a ∈ xs.map Prod.fst) : (m a).isSome := by
  obtain ⟨x, hx, rfl⟩ := List.mem_map.mp ha
  rw [← Option.isSome_map, h.node hx, Option.isSome_some]

/-- A node within a segment, with its links. -/
theorem Seg.entry (h : Seg m p (xs ++ (a, e) :: ys) n) :
    m a = some ⟨last p xs, (first ys).or n, e⟩ :=
  (seg_append_iff.mp h).2.1

/-- Where a list begins is a place in it. -/
theorem first_ne (hb : b ∉ xs.map Prod.fst) : first xs ≠ some b := by
  cases xs with
  | nil => simp
  | cons x xs =>
    rw [first_cons]
    rintro hx
    exact hb (by simp [Option.some.inj hx])

theorem last_ne (hb : b ∉ xs.map Prod.fst) : last none xs ≠ some b := by
  rcases xs.eq_nil_or_concat' with rfl | ⟨ys, x, rfl⟩
  · simp [last]
  · rw [last_concat]
    rintro hx
    exact hb (by simp [Option.some.inj hx])

section Stores

variable [DecidableEq α]

/-- The node at `a` is linked back to `q`. -/
def setPrev (m : Store α ε) (a : α) (q : Option α) : Store α ε :=
  Function.update m a ((m a).map fun c => { c with prev := q })

/-- The node at `a` is linked on to `k`. -/
def setNext (m : Store α ε) (a : α) (k : Option α) : Store α ε :=
  Function.update m a ((m a).map fun c => { c with next := k })

/-- The node at `a` gets another item. -/
def setItem (m : Store α ε) (a : α) (e : ε) : Store α ε :=
  Function.update m a ((m a).map fun c => { c with item := e })

/-- The node at `a` is gone. -/
def free (m : Store α ε) (a : α) : Store α ε := Function.update m a none

/-- A node is linked back, where there is one. -/
def setPrev? (m : Store α ε) (o : Option α) (q : Option α) : Store α ε :=
  o.elim m fun a => setPrev m a q

/-- A node is linked on, where there is one. -/
def setNext? (m : Store α ε) (o : Option α) (k : Option α) : Store α ε :=
  o.elim m fun a => setNext m a k

@[simp] theorem isSome_setPrev : (setPrev m a q b).isSome = (m b).isSome := by
  unfold setPrev
  by_cases hb : b = a
  · rw [hb, Function.update_self, Option.isSome_map]
  · rw [Function.update_of_ne hb]

@[simp] theorem isSome_setNext : (setNext m a k b).isSome = (m b).isSome := by
  unfold setNext
  by_cases hb : b = a
  · rw [hb, Function.update_self, Option.isSome_map]
  · rw [Function.update_of_ne hb]

@[simp] theorem isSome_setItem : (setItem m a e b).isSome = (m b).isSome := by
  unfold setItem
  by_cases hb : b = a
  · rw [hb, Function.update_self, Option.isSome_map]
  · rw [Function.update_of_ne hb]

@[simp] theorem isSome_setPrev? {o : Option α} :
    (setPrev? m o q b).isSome = (m b).isSome := by
  cases o with
  | none => rfl
  | some a => exact isSome_setPrev

@[simp] theorem isSome_setNext? {o : Option α} :
    (setNext? m o k b).isSome = (m b).isSome := by
  cases o with
  | none => rfl
  | some a => exact isSome_setNext

theorem setPrev?_of_ne {o : Option α} (h : o ≠ some b) : setPrev? m o q b = m b := by
  cases o with
  | none => rfl
  | some a => exact Function.update_of_ne (fun hba => h (by rw [hba])) _ _

theorem setNext?_of_ne {o : Option α} (h : o ≠ some b) : setNext? m o k b = m b := by
  cases o with
  | none => rfl
  | some a => exact Function.update_of_ne (fun hba => h (by rw [hba])) _ _

/-- A segment is linked back to somewhere else. -/
theorem Seg.relinkPrev (h : Seg m p xs n) (hnodup : (xs.map Prod.fst).Nodup) (q : Option α) :
    Seg (setPrev? m (first xs) q) q xs n := by
  cases xs with
  | nil => trivial
  | cons x xs =>
    have hx := (List.nodup_cons.mp hnodup).1
    refine ⟨?_, h.2.congr fun a ha => setPrev?_of_ne ?_⟩
    · change setPrev m x.1 q x.1 = _
      rw [setPrev, Function.update_self, h.1, Option.map_some]
    · rintro hax
      rw [first_cons, Option.some.injEq] at hax
      exact hx (hax ▸ ha)

/-- A segment is linked on to somewhere else. -/
theorem Seg.relinkNext (h : Seg m p xs n) (hnodup : (xs.map Prod.fst).Nodup) (k : Option α) :
    Seg (setNext? m (last none xs) k) p xs k := by
  rcases xs.eq_nil_or_concat' with rfl | ⟨ys, x, rfl⟩
  · trivial
  · obtain ⟨hfront, hlast⟩ := seg_append_iff.mp h
    have hx : ∀ a ∈ ys.map Prod.fst, a ≠ x.1 := by
      intro a ha hax
      rw [List.map_append, List.nodup_append] at hnodup
      exact hnodup.2.2 a ha x.1 (by simp) hax
    rw [last_concat]
    refine seg_append_iff.mpr ⟨?_, ?_, trivial⟩
    · refine (hfront.congr fun a ha => setNext?_of_ne fun hax => ?_)
      exact hx a ha (Option.some.inj hax).symm
    · change setNext m x.1 k x.1 = _
      rw [setNext, Function.update_self, hlast.1]
      rfl

/-- Another item for one node of a segment. -/
theorem Seg.setItem (h : Seg m p (xs ++ (a, e) :: ys) n)
    (hnodup : ((xs ++ (a, e) :: ys).map Prod.fst).Nodup) (e' : ε) :
    Seg (setItem m a e') p (xs ++ (a, e') :: ys) n := by
  obtain ⟨hfront, hnode, hback⟩ := seg_append_iff.mp h
  simp only [List.map_append, List.map_cons, List.nodup_append, List.nodup_cons] at hnodup
  refine seg_append_iff.mpr ⟨hfront.congr fun b hb => ?_, ?_, hback.congr fun b hb => ?_⟩
  · exact Function.update_of_ne (hnodup.2.2 b hb a (by simp)) _ _
  · change Chains.setItem m a e' a = _
    rw [Chains.setItem, Function.update_self, hnode]
    rfl
  · refine Function.update_of_ne (fun hba => hnodup.2.1.1 ?_) _ _
    exact hba ▸ hb

/-- The nodes around the one at `a` are linked to each other, and it goes. -/
def unlink (m : Store α ε) (a : α) (p n : Option α) : Store α ε :=
  free (setNext? (setPrev? m n p) p n) a

/-- A node is cut out of a chain. -/
theorem Seg.unlink (h : Seg m none (xs ++ (a, e) :: ys) none)
    (hnodup : ((xs ++ (a, e) :: ys).map Prod.fst).Nodup) :
    Seg (unlink m a (last none xs) (first ys)) none (xs ++ ys) none := by
  obtain ⟨hfront, hnode, hback⟩ := seg_append_iff.mp h
  simp only [List.map_append, List.map_cons, List.nodup_append, List.nodup_cons] at hnodup
  obtain ⟨hxs, ⟨ha, hys⟩, hdisj⟩ := hnodup
  have hax : a ∉ xs.map Prod.fst := fun hmem => hdisj a hmem a (by simp) rfl
  -- the links of the nodes behind, then those of the nodes in front
  have hback' := hback.relinkPrev hys (last none xs)
  have hfront' : Seg (setPrev? m (first ys) (last none xs)) none xs (some a) := by
    refine hfront.congr fun b hb => setPrev?_of_ne (first_ne fun hby => ?_)
    exact hdisj b hb b (List.mem_cons_of_mem a hby) rfl
  have hjoin : Seg (setNext? (setPrev? m (first ys) (last none xs)) (last none xs) (first ys))
      none (xs ++ ys) none := by
    refine seg_append_iff.mpr ⟨?_, hback'.congr fun b hb => setNext?_of_ne (last_ne fun hbx => ?_)⟩
    · rw [Option.or_none]
      exact hfront'.relinkNext hxs (first ys)
    · exact hdisj b hbx b (List.mem_cons_of_mem a hb) rfl
  refine hjoin.congr fun b hb => Function.update_of_ne ?_ _ _
  rintro rfl
  rw [List.map_append, List.mem_append] at hb
  exact hb.elim hax ha

/-- A node of its own is put in front of a chain. -/
def linkFirst (m : Store α ε) (a : α) (old : Option α) : Store α ε :=
  old.elim m fun b => setNext (setPrev m b (some a)) a (some b)

@[simp] theorem isSome_linkFirst {o : Option α} :
    (linkFirst m a o b).isSome = (m b).isSome := by
  cases o with
  | none => rfl
  | some c => exact isSome_setNext.trans isSome_setPrev

theorem linkFirst_of_ne {o : Option α} (hba : b ≠ a) (hb : o ≠ some b) :
    linkFirst m a o b = m b := by
  cases o with
  | none => rfl
  | some c =>
    refine (Function.update_of_ne hba _ _).trans ?_
    exact Function.update_of_ne (fun hbc => hb (by rw [hbc])) _ _

/-- A node is put in front of a chain. -/
theorem Seg.linkFirst (h : Seg m none xs none) (hnodup : (xs.map Prod.fst).Nodup)
    (ha : m a = some ⟨none, none, e⟩) (hoff : a ∉ xs.map Prod.fst) :
    Seg (linkFirst m a (first xs)) none ((a, e) :: xs) none := by
  cases xs with
  | nil => exact ⟨ha, trivial⟩
  | cons x xs =>
    have hxa : a ≠ x.1 := fun hax => hoff (by simp [hax])
    have hrelinked := h.relinkPrev hnodup (some a)
    refine ⟨?_, hrelinked.congr fun b hb => Function.update_of_ne ?_ _ _⟩
    · change setNext (setPrev m x.1 (some a)) a (some x.1) a = _
      rw [setNext, Function.update_self, setPrev, Function.update_of_ne hxa, ha]
      rfl
    · rintro rfl
      exact hoff hb

end Stores

end Chains
