import Mathlib.Data.List.Chain
import Mathlib.Data.List.Nodup
import Mathlib.Logic.Function.Basic

/-!
# Rings of doubly linked cells

Cells at addresses, each with a link to the next one and one back. A ring is a
head and the cells behind it in order, the last of them linked to the head again.
Every surgery on rings is a sequence of `link`s, so what a ring keeps is said for
one of them, and cutting a piece out, splicing one in and closing one to a ring
of its own are stated for pieces of any length.
-/

namespace Rings

variable {α : Type*}

/-- A cell: the addresses of its neighbours. -/
structure Cell (α : Type*) where
  prev : α
  next : α
  deriving DecidableEq

/-- The cells there are, by their addresses. -/
abbrev Store (α : Type*) := α → Option (Cell α)

/-- There is a cell at `a`. -/
def Live (m : Store α) (a : α) : Prop := (m a).isSome

/-- The cell at `b` follows the one at `a`, and either knows the other. -/
def Linked (m : Store α) (a b : α) : Prop :=
  (m a).map Cell.next = some b ∧ (m b).map Cell.prev = some a

/-- The cells `xs` in a ring with `h`. -/
structure Ring (m : Store α) (h : α) (xs : List α) : Prop where
  /-- No cell comes twice. -/
  nodup : (h :: xs).Nodup
  /-- Each is linked to the one behind it, the last to `h`. -/
  chain : (h :: (xs ++ [h])).IsChain (Linked m)

/-- A cell is what its links are. -/
theorem store_ext {m m' : Store α} (hnext : ∀ x, (m x).map Cell.next = (m' x).map Cell.next)
    (hprev : ∀ x, (m x).map Cell.prev = (m' x).map Cell.prev) : m = m' := by
  funext x
  have hn := hnext x
  have hp := hprev x
  cases hx : m x with
  | none =>
    rw [hx, Option.map_none] at hn
    exact (Option.map_eq_none_iff.mp hn.symm).symm
  | some c =>
    rw [hx] at hn hp
    obtain ⟨c', hc', hcn⟩ := Option.map_eq_some_iff.mp hn.symm
    rw [hc', Option.map_some, Option.map_some] at hp
    obtain ⟨cp, cn⟩ := c
    obtain ⟨cp', cn'⟩ := c'
    obtain rfl : cn' = cn := hcn
    obtain rfl : cp = cp' := Option.some.inj hp
    exact hc'.symm

/-- The cells of neighbours are there. -/
theorem Linked.live {m : Store α} {a b : α} (h : Linked m a b) : Live m a ∧ Live m b := by
  have hnext := congrArg Option.isSome h.1
  have hprev := congrArg Option.isSome h.2
  rw [Option.isSome_map] at hnext hprev
  exact ⟨hnext, hprev⟩

section Links

variable [DecidableEq α]

/-- The cell at `a` gets a new successor. -/
def setNext (m : Store α) (a b : α) : Store α :=
  Function.update m a ((m a).map fun c => { c with next := b })

/-- The cell at `b` gets a new predecessor. -/
def setPrev (m : Store α) (b a : α) : Store α :=
  Function.update m b ((m b).map fun c => { c with prev := a })

/-- `a` and `b` become neighbours. -/
def link (m : Store α) (a b : α) : Store α := setPrev (setNext m a b) b a

variable {m : Store α} {a b c d x y : α} {l : List α}

theorem map_next_setNext (m : Store α) (a b x : α) :
    (setNext m a b x).map Cell.next =
      ((m x).map Cell.next).map fun old => if x = a then b else old := by
  unfold setNext
  by_cases hx : x = a
  · subst x
    simp only [Function.update_self, Option.map_map, if_pos]
    rfl
  · simp only [Function.update_of_ne hx, if_neg hx, Option.map_id']

theorem map_prev_setNext (m : Store α) (a b x : α) :
    (setNext m a b x).map Cell.prev = (m x).map Cell.prev := by
  unfold setNext
  by_cases hx : x = a
  · subst x
    rw [Function.update_self, Option.map_map]
    rfl
  · rw [Function.update_of_ne hx]

theorem map_next_setPrev (m : Store α) (b a x : α) :
    (setPrev m b a x).map Cell.next = (m x).map Cell.next := by
  unfold setPrev
  by_cases hx : x = b
  · subst x
    rw [Function.update_self, Option.map_map]
    rfl
  · rw [Function.update_of_ne hx]

theorem map_prev_setPrev (m : Store α) (b a x : α) :
    (setPrev m b a x).map Cell.prev =
      ((m x).map Cell.prev).map fun old => if x = b then a else old := by
  unfold setPrev
  by_cases hx : x = b
  · subst x
    simp only [Function.update_self, Option.map_map, if_pos]
    rfl
  · simp only [Function.update_of_ne hx, if_neg hx, Option.map_id']

/-- The two links of a cell are stored in either order. -/
theorem setNext_setPrev (m : Store α) (a b c d : α) :
    setNext (setPrev m c d) a b = setPrev (setNext m a b) c d := by
  apply store_ext
  · intro x
    simp only [map_next_setNext, map_next_setPrev]
  · intro x
    simp only [map_prev_setNext, map_prev_setPrev]

theorem map_next_link (m : Store α) (a b x : α) :
    (link m a b x).map Cell.next =
      ((m x).map Cell.next).map fun old => if x = a then b else old := by
  rw [link, map_next_setPrev, map_next_setNext]

theorem map_prev_link (m : Store α) (a b x : α) :
    (link m a b x).map Cell.prev =
      ((m x).map Cell.prev).map fun old => if x = b then a else old := by
  rw [link, map_prev_setPrev, map_prev_setNext]

@[simp] theorem live_setNext : Live (setNext m a b) x ↔ Live m x := by
  have h := congrArg Option.isSome (map_prev_setNext m a b x)
  rw [Option.isSome_map, Option.isSome_map] at h
  rw [Live, h, Live]

@[simp] theorem live_setPrev : Live (setPrev m b a) x ↔ Live m x := by
  have h := congrArg Option.isSome (map_next_setPrev m b a x)
  rw [Option.isSome_map, Option.isSome_map] at h
  rw [Live, h, Live]

@[simp] theorem live_link : Live (link m a b) x ↔ Live m x := by
  rw [link, live_setPrev, live_setNext]

/-- A link touches two cells. -/
theorem link_of_ne (ha : x ≠ a) (hb : x ≠ b) : link m a b x = m x := by
  rw [link, setPrev, Function.update_of_ne hb, setNext, Function.update_of_ne ha]

/-- Links between different cells are made in either order. -/
theorem link_comm (hac : a ≠ c) (hbd : b ≠ d) :
    link (link m a b) c d = link (link m c d) a b := by
  apply store_ext
  · intro x
    simp only [map_next_link, Option.map_map]
    congr 1
    funext old
    simp only [Function.comp_apply]
    grind
  · intro x
    simp only [map_prev_link, Option.map_map]
    congr 1
    funext old
    simp only [Function.comp_apply]
    grind

/-- What a cell is after a link was made depends on what it was. -/
theorem link_congr {m' : Store α} (h : m' x = m x) : link m' a b x = link m a b x := by
  have hnext : setNext m' a b x = setNext m a b x := by
    by_cases hx : x = a
    · subst x
      rw [setNext, setNext, Function.update_self, Function.update_self, h]
    · rw [setNext, setNext, Function.update_of_ne hx, Function.update_of_ne hx, h]
  by_cases hx : x = b
  · subst x
    rw [link, link, setPrev, setPrev, Function.update_self, Function.update_self, hnext]
  · rw [link, link, setPrev, setPrev, Function.update_of_ne hx, Function.update_of_ne hx, hnext]

/-- The predecessors of different cells are stored in either order. -/
theorem setPrev_comm (hbd : b ≠ d) (m : Store α) (a c : α) :
    setPrev (setPrev m b a) d c = setPrev (setPrev m d c) b a := by
  apply store_ext
  · intro x
    simp only [map_next_setPrev]
  · intro x
    simp only [map_prev_setPrev, Option.map_map]
    congr 1
    funext old
    simp only [Function.comp_apply]
    grind

/-- Who is linked after a link was made. -/
theorem linked_link_iff (ha : Live m a) (hb : Live m b) :
    Linked (link m a b) x y ↔ x = a ∧ y = b ∨ x ≠ a ∧ y ≠ b ∧ Linked m x y := by
  obtain ⟨ca, hca⟩ := Option.isSome_iff_exists.mp ha
  obtain ⟨cb, hcb⟩ := Option.isSome_iff_exists.mp hb
  rw [Linked, map_next_link, map_prev_link]
  by_cases hx : x = a
  · by_cases hy : y = b
    · simp [hx, hy, hca, hcb]
    · have hne : ¬ b = y := fun h => hy h.symm
      simp [hx, hy, hca, hne]
  · by_cases hy : y = b
    · have hne : ¬ a = x := fun h => hx h.symm
      simp [hx, hy, hcb, hne]
    · simp [hx, hy, Linked]

/-- A link leaves a chain as it is that neither goes on behind `a` nor comes from
somewhere to `b`. -/
theorem isChain_link (ha : Live m a) (hb : Live m b) (hl : l.IsChain (Linked m))
    (hna : a ∉ l.dropLast) (hnb : b ∉ l.tail) : l.IsChain (Linked (link m a b)) := by
  induction hl with
  | nil => exact .nil
  | singleton x => exact .singleton x
  | @cons_cons x y l hxy _ ih =>
    rw [List.dropLast_cons_cons, List.mem_cons, not_or] at hna
    rw [List.tail_cons, List.mem_cons, not_or] at hnb
    refine .cons_cons ?_ (ih hna.2 hnb.2)
    exact (linked_link_iff ha hb).mpr (.inr ⟨Ne.symm hna.1, Ne.symm hnb.1, hxy⟩)

end Links

/-! ## Pieces of a ring -/

variable {m m' : Store α} {R : α → α → Prop} {a b h k w x : α} {l ws xs ys zs : List α}

theorem headD_mem_snoc (zs : List α) (k : α) : zs.headD k ∈ zs ++ [k] := by
  cases zs with
  | nil => exact List.mem_singleton_self k
  | cons z zs => exact List.mem_cons_self

/-- The last of distinct elements is not among those in front of it. -/
theorem getLastD_notMem_dropLast (hnd : (h :: ys).Nodup) :
    ys.getLastD h ∉ (h :: ys).dropLast := by
  have hsplit := List.dropLast_append_getLast (List.cons_ne_nil h ys)
  rw [List.getLast_eq_getLastD] at hsplit
  rw [← hsplit, List.nodup_append] at hnd
  exact fun hmem => hnd.2.2 _ hmem _ (List.mem_singleton_self _) rfl

/-- The first of distinct elements is not among those behind it. -/
theorem headD_notMem_tail (hnd : (zs ++ [k]).Nodup) : zs.headD k ∉ (zs ++ [k]).tail := by
  cases zs with
  | nil => exact List.not_mem_nil
  | cons z zs => exact (List.nodup_cons.mp hnd).1

/-- A chain is parted where one of its elements ends. -/
theorem isChain_gap_iff (h : α) (ys zs : List α) (k : α) :
    (h :: (ys ++ (zs ++ [k]))).IsChain R ↔
      (h :: ys).IsChain R ∧ (zs ++ [k]).IsChain R ∧ R (ys.getLastD h) (zs.headD k) := by
  have hlast : (h :: ys).getLast? = some (ys.getLastD h) := by
    rw [List.getLast?_eq_some_getLast (List.cons_ne_nil h ys), List.getLast_eq_getLastD]
  have hhead : (zs ++ [k]).head? = some (zs.headD k) := by
    cases zs <;> rfl
  rw [← List.cons_append, List.isChain_append, hlast, hhead]
  simp only [Option.mem_def, Option.some.injEq, forall_eq']

/-- A chain with a piece in it. -/
theorem isChain_piece_iff :
    (h :: (ys ++ (w :: ws ++ (zs ++ [k])))).IsChain R ↔
      ((h :: ys).IsChain R ∧ (w :: ws).IsChain R ∧ (zs ++ [k]).IsChain R) ∧
        R (ys.getLastD h) w ∧ R (ws.getLastD w) (zs.headD k) := by
  have hfront := isChain_gap_iff (R := R) h ys (w :: ws ++ zs) k
  have hfirst : (w :: ws ++ zs).headD k = w := rfl
  have hback := isChain_gap_iff (R := R) w ws zs k
  rw [List.append_assoc, hfirst] at hfront
  rw [hfront, List.cons_append, hback]
  constructor
  · rintro ⟨hh, ⟨hw, hz, hb⟩, hf⟩
    exact ⟨⟨hh, hw, hz⟩, hf, hb⟩
  · rintro ⟨⟨hh, hw, hz⟩, hf, hb⟩
    exact ⟨hh, ⟨hw, hz, hb⟩, hf⟩

namespace Ring

/-- The cells of a ring are there. -/
theorem live (hr : Ring m h xs) (ha : a ∈ h :: xs) : Live m a := by
  obtain ⟨front, behind, heq⟩ := List.append_of_mem ha
  cases front with
  | nil =>
    obtain ⟨rfl, rfl⟩ : h = a ∧ xs = behind := by simpa using heq
    have hchain := (isChain_gap_iff h [] xs h).mp hr.chain
    exact hchain.2.2.live.1
  | cons f front =>
    obtain ⟨rfl, rfl⟩ : h = f ∧ xs = front ++ a :: behind := by simpa using heq
    have hchain := hr.chain
    rw [List.append_assoc] at hchain
    exact ((isChain_gap_iff h front (a :: behind) h).mp hchain).2.2.live.2

/-- Neighbours in a ring. -/
theorem linked (ys zs : List α) (hr : Ring m h (ys ++ zs)) :
    Linked m (ys.getLastD h) (zs.headD h) := by
  have hchain := hr.chain
  rw [List.append_assoc] at hchain
  exact ((isChain_gap_iff h ys zs h).mp hchain).2.2

/-- The head and the first entry. -/
theorem linked_first (hr : Ring m h xs) : Linked m h (xs.headD h) := hr.linked [] xs

/-- The last entry and the head. -/
theorem linked_last (hr : Ring m h xs) : Linked m (xs.getLastD h) h :=
  linked xs [] (by simpa using hr)

/-- The entries are linked among themselves. -/
theorem isChain_entries (hr : Ring m h xs) : xs.IsChain (Linked m) :=
  (List.isChain_cons.mp hr.chain).2.left_of_append

/-- The neighbours of an entry. -/
theorem linked_entry (hr : Ring m h (ys ++ a :: zs)) :
    Linked m (ys.getLastD h) a ∧ Linked m a (zs.headD h) := by
  have hbehind := linked (ys ++ [a]) zs (by simpa using hr)
  rw [List.getLastD_concat] at hbehind
  exact ⟨hr.linked ys (a :: zs), hbehind⟩

/-- The last entries, up to the head. -/
theorem todo (ys : List α) (hr : Ring m h (ys ++ zs)) :
    h ∉ zs ∧ (zs ++ [h]).IsChain (Linked m) ∧ Live m h := by
  have hchain := hr.chain
  rw [List.append_assoc, ← List.cons_append] at hchain
  refine ⟨fun hmem => ?_, hchain.right_of_append, hr.live List.mem_cons_self⟩
  exact (List.nodup_cons.mp hr.nodup).1 (List.mem_append_right _ hmem)

/-- A ring is read from each of its cells. -/
theorem rotate (hr : Ring m h (ys ++ a :: zs)) : Ring m a (zs ++ h :: ys) := by
  obtain ⟨hnd, hchain⟩ := hr
  constructor
  · refine (List.Perm.nodup_iff ?_).mp hnd
    have hperm : (h :: ys ++ a :: zs).Perm (a :: zs ++ h :: ys) := List.perm_append_comm
    simpa using hperm
  · have hparts : (h :: ys ++ [a]).IsChain (Linked m) ∧ (a :: (zs ++ [h])).IsChain (Linked m) := by
      rw [← List.isChain_split]
      simpa using hchain
    have hturned : (a :: zs ++ h :: (ys ++ [a])).IsChain (Linked m) := by
      rw [List.isChain_split]
      exact ⟨hparts.2, hparts.1⟩
    simpa using hturned

/-- Other cells do not matter. -/
theorem congr (hr : Ring m h xs) (heq : ∀ x ∈ h :: xs, m' x = m x) : Ring m' h xs := by
  refine ⟨hr.nodup, ?_⟩
  refine List.IsChain.imp_of_mem_imp (fun x y hx hy hxy => ?_) hr.chain
  have hring {z : α} (hz : z ∈ h :: (xs ++ [h])) : m' z = m z := heq z (by grind)
  rw [Linked, hring hx, hring hy]
  exact hxy

end Ring

section Surgery

variable [DecidableEq α]

/-- A link between cells off the chain. -/
theorem isChain_link_off (ha : Live m a) (hb : Live m b) (hl : l.IsChain (Linked m))
    (hna : a ∉ l) (hnb : b ∉ l) : l.IsChain (Linked (link m a b)) :=
  isChain_link ha hb hl (fun hmem => hna (List.dropLast_subset _ hmem))
    fun hmem => hnb (List.mem_of_mem_tail hmem)

/-- Three pieces become a ring by two links. -/
theorem ring_of_pieces (ys zs : List α) (hys : (h :: ys).IsChain (Linked m))
    (hws : (w :: ws).IsChain (Linked m))
    (hzs : (zs ++ [h]).IsChain (Linked m)) (hnd : (h :: (ys ++ (w :: ws ++ zs))).Nodup)
    (hlive : ∀ x ∈ h :: (ys ++ (w :: ws ++ zs)), Live m x) :
    Ring (link (link m (ys.getLastD h) w) (ws.getLastD w) (zs.headD h)) h
      (ys ++ (w :: ws ++ zs)) := by
  have hp : ys.getLastD h ∈ h :: ys := List.getLastD_mem_cons
  have hq : ws.getLastD w ∈ w :: ws := List.getLastD_mem_cons
  have hn := headD_mem_snoc zs h
  have hys_nd : (h :: ys).Nodup := by
    rw [← List.cons_append] at hnd
    exact (List.nodup_append.mp hnd).1
  have hws_nd : (w :: ws).Nodup := by
    rw [← List.cons_append] at hnd
    exact (List.nodup_append.mp (List.nodup_append.mp hnd).2.1).1
  have hzs_nd : (zs ++ [h]).Nodup := by
    grind
  generalize hpeq : ys.getLastD h = p at hp ⊢
  generalize hqeq : ws.getLastD w = q at hq ⊢
  generalize hneq : zs.headD h = n at hn ⊢
  have hp_last : p ∉ (h :: ys).dropLast := hpeq ▸ getLastD_notMem_dropLast hys_nd
  have hq_last : q ∉ (w :: ws).dropLast := hqeq ▸ getLastD_notMem_dropLast hws_nd
  have hn_tail : n ∉ (zs ++ [h]).tail := hneq ▸ headD_notMem_tail hzs_nd
  have hp_live : Live m p := hlive p (by grind)
  have hq_live : Live m q := hlive q (by grind)
  have hn_live : Live m n := hlive n (by grind)
  have hw_live : Live m w := hlive w (by grind)
  -- the first link leaves the pieces as they are
  have hys₁ := isChain_link hp_live hw_live hys hp_last (by grind)
  have hws₁ := isChain_link hp_live hw_live hws
    (fun hmem => by have := List.dropLast_subset _ hmem; grind) (by grind)
  have hzs₁ := isChain_link hp_live hw_live hzs (by grind)
    (fun hmem => by have := List.mem_of_mem_tail hmem; grind)
  have hq₁ : Live (link m p w) q := live_link.mpr hq_live
  have hn₁ : Live (link m p w) n := live_link.mpr hn_live
  have hlinked : Linked (link m p w) p w := (linked_link_iff hp_live hw_live).mpr (.inl ⟨rfl, rfl⟩)
  -- so does the second, and it leaves the first
  have hys₂ := isChain_link hq₁ hn₁ hys₁
    (fun hmem => by have := List.dropLast_subset _ hmem; grind) (by grind)
  have hws₂ := isChain_link hq₁ hn₁ hws₁ hq_last (by grind)
  have hzs₂ := isChain_link hq₁ hn₁ hzs₁ (by grind) hn_tail
  refine ⟨hnd, ?_⟩
  rw [List.append_assoc, List.append_assoc, isChain_piece_iff, hpeq, hqeq, hneq]
  refine ⟨⟨hys₂, hws₂, hzs₂⟩, ?_, (linked_link_iff hq₁ hn₁).mpr (.inl ⟨rfl, rfl⟩)⟩
  exact (linked_link_iff hq₁ hn₁).mpr (.inr ⟨by grind, by grind, hlinked⟩)

/-- A piece is spliced into a ring. -/
theorem Ring.splice (ys zs : List α) (hr : Ring m h (ys ++ zs)) (hws : (w :: ws).IsChain (Linked m))
    (hlive : ∀ x ∈ w :: ws, Live m x) (hnd : (h :: (ys ++ (w :: ws ++ zs))).Nodup) :
    Ring (link (link m (ys.getLastD h) w) (ws.getLastD w) (zs.headD h)) h
      (ys ++ (w :: ws ++ zs)) := by
  have hchain := hr.chain
  rw [List.append_assoc] at hchain
  obtain ⟨hys, hzs, -⟩ := (isChain_gap_iff h ys zs h).mp hchain
  refine ring_of_pieces ys zs hys hws hzs hnd fun x hx => ?_
  by_cases hmem : x ∈ w :: ws
  · exact hlive x hmem
  · exact hr.live (by grind)

/-- A piece is closed to a ring. -/
theorem ring_close (hws : (w :: ws).IsChain (Linked m)) (hnd : (h :: w :: ws).Nodup)
    (hlive : ∀ x ∈ h :: w :: ws, Live m x) :
    Ring (link (link m h w) (ws.getLastD w) h) h (w :: ws) := by
  have hring := ring_of_pieces [] [] (.singleton h) hws (.singleton h)
    (by simpa using hnd) (by simpa using hlive)
  simpa using hring

/-- A cell alone. -/
theorem ring_self (ha : Live m a) : Ring (link m a a) a [] :=
  ⟨List.nodup_singleton a,
    .cons_cons ((linked_link_iff ha ha).mpr (.inl ⟨rfl, rfl⟩)) (.singleton a)⟩

/-- A piece is cut out of a ring. -/
theorem Ring.cut (ys : List α) (w : α) (ws zs : List α) (hr : Ring m h (ys ++ (w :: ws ++ zs))) :
    Ring (link m (ys.getLastD h) (zs.headD h)) h (ys ++ zs) ∧
      (w :: ws).IsChain (Linked (link m (ys.getLastD h) (zs.headD h))) := by
  obtain ⟨hnd, hchain⟩ := id hr
  rw [List.append_assoc, List.append_assoc, isChain_piece_iff] at hchain
  obtain ⟨⟨hys, hws, hzs⟩, -, -⟩ := hchain
  have hp : ys.getLastD h ∈ h :: ys := List.getLastD_mem_cons
  have hn := headD_mem_snoc zs h
  have hys_nd : (h :: ys).Nodup := by
    grind
  have hzs_nd : (zs ++ [h]).Nodup := by
    grind
  have hp_last := getLastD_notMem_dropLast hys_nd
  have hn_tail := headD_notMem_tail hzs_nd
  have hp_live : Live m (ys.getLastD h) := hr.live (by grind)
  have hn_live : Live m (zs.headD h) := hr.live (by grind)
  have hys' := isChain_link hp_live hn_live hys hp_last (by grind)
  have hzs' := isChain_link hp_live hn_live hzs (by grind) hn_tail
  have hws' := isChain_link_off hp_live hn_live hws (by grind) (by grind)
  have hlinked := (linked_link_iff hp_live hn_live).mpr (.inl ⟨rfl, rfl⟩)
  refine ⟨⟨by grind, ?_⟩, hws'⟩
  rw [List.append_assoc]
  exact (isChain_gap_iff h ys zs h).mpr ⟨hys', hzs', hlinked⟩

/-- A link between cells off a ring. -/
theorem Ring.link_off (hr : Ring m h xs) (ha : a ∉ h :: xs) (hb : b ∉ h :: xs) :
    Ring (link m a b) h xs :=
  hr.congr fun _ hx => link_of_ne (fun heq => ha (heq ▸ hx)) fun heq => hb (heq ▸ hx)

end Surgery

end Rings
