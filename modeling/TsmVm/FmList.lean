import TsmVm.Base
import TsmVm.Lib.Rings
import TsmVm.Lib.Lts

/-!
# Linked lists (`fm_List.h`)

The `struct list_head`s lie at addresses, inside the structures they link. An
address without one cannot be read or written: `NULL`, the poison `list_del`
leaves, freed memory. The operations are taken over store by store; what they do
to the rings is said for the rings they are given and for all other cells.
-/

namespace TsmVm

open Rings

/-- The `struct list_head`s there are. -/
abbrev Links := Rings.Store ℕ

/-- Reading the `struct list_head` at an address. -/
def readLinks (m : Links) (a : ℕ) : Res (Rings.Cell ℕ) :=
  match m a with
  | some c => .ok c
  | none => .error (if a = 0 then .nullDeref else .wildAccess)

/-- `a->next`. -/
def nextOf (m : Links) (a : ℕ) : Res ℕ := do
  return (← readLinks m a).next

/-- `a->prev`. -/
def prevOf (m : Links) (a : ℕ) : Res ℕ := do
  return (← readLinks m a).prev

/-- `a->next = b`. -/
def storeNext (m : Links) (a b : ℕ) : Res Links := do
  let _ ← readLinks m a
  return Rings.setNext m a b

/-- `a->prev = b`. -/
def storePrev (m : Links) (a b : ℕ) : Res Links := do
  let _ ← readLinks m a
  return Rings.setPrev m a b

/-- `LIST_POISON1`. -/
def listPoison1 : ℕ := 0x00100100

/-- `LIST_POISON2`. -/
def listPoison2 : ℕ := 0x00200200

/-- `INIT_LIST_HEAD`. -/
def initListHead (m : Links) (list : ℕ) : Res Links := do
  let m ← storeNext m list list
  storePrev m list list

/-- `__list_add`. -/
def rawListAdd (m : Links) (new prev next : ℕ) : Res Links := do
  let m ← storePrev m next new
  let m ← storeNext m new next
  let m ← storePrev m new prev
  storeNext m prev new

/-- `list_add_tail`. -/
def listAddTail (m : Links) (new head : ℕ) : Res Links := do
  rawListAdd m new (← prevOf m head) head

/-- `__list_del`. -/
def rawListDel (m : Links) (prev next : ℕ) : Res Links := do
  let m ← storePrev m next prev
  storeNext m prev next

/-- `__list_del_entry`. -/
def rawListDelEntry (m : Links) (entry : ℕ) : Res Links := do
  rawListDel m (← prevOf m entry) (← nextOf m entry)

/-- `list_del`. -/
def listDel (m : Links) (entry : ℕ) : Res Links := do
  let m ← rawListDel m (← prevOf m entry) (← nextOf m entry)
  let m ← storeNext m entry listPoison1
  storePrev m entry listPoison2

/-- `list_replace`. -/
def listReplace (m : Links) (old new : ℕ) : Res Links := do
  let m ← storeNext m new (← nextOf m old)
  let m ← storePrev m (← nextOf m new) new
  let m ← storePrev m new (← prevOf m old)
  storeNext m (← prevOf m new) new

/-- `list_replace_init`. -/
def listReplaceInit (m : Links) (old new : ℕ) : Res Links := do
  initListHead (← listReplace m old new) old

/-- `list_del_init`. -/
def listDelInit (m : Links) (entry : ℕ) : Res Links := do
  initListHead (← rawListDelEntry m entry) entry

/-- `list_move_tail`. -/
def listMoveTail (m : Links) (list head : ℕ) : Res Links := do
  listAddTail (← rawListDelEntry m list) list head

/-- `list_is_last`. -/
def listIsLast (m : Links) (list head : ℕ) : Res Bool := do
  return (← nextOf m list) = head

/-- `list_empty`. -/
def listEmpty (m : Links) (head : ℕ) : Res Bool := do
  return (← nextOf m head) = head

/-- `list_empty_careful`. -/
def listEmptyCareful (m : Links) (head : ℕ) : Res Bool := do
  let next ← nextOf m head
  if next = head then
    return next = (← prevOf m head)
  else return false

/-- `list_rotate_left`. -/
def listRotateLeft (m : Links) (head : ℕ) : Res Links := do
  if ← listEmpty m head then return m
  let first ← nextOf m head
  listMoveTail m first head

/-- `list_is_singular`. -/
def listIsSingular (m : Links) (head : ℕ) : Res Bool := do
  if ← listEmpty m head then return false
  return (← nextOf m head) = (← prevOf m head)

/-- `__list_cut_position`. -/
def rawListCutPosition (m : Links) (list head entry : ℕ) : Res Links := do
  let newFirst ← nextOf m entry
  let m ← storeNext m list (← nextOf m head)
  let m ← storePrev m (← nextOf m list) list
  let m ← storePrev m list entry
  let m ← storeNext m entry list
  let m ← storeNext m head newFirst
  storePrev m newFirst head

/-- `list_cut_position`. -/
def listCutPosition (m : Links) (list head entry : ℕ) : Res Links := do
  if ← listEmpty m head then return m
  if ← listIsSingular m head then
    if (← nextOf m head) ≠ entry ∧ head ≠ entry then return m
  if entry = head then initListHead m list
  else rawListCutPosition m list head entry

/-- `__list_splice`. -/
def rawListSplice (m : Links) (list prev next : ℕ) : Res Links := do
  let first ← nextOf m list
  let last ← prevOf m list
  let m ← storePrev m first prev
  let m ← storeNext m prev first
  let m ← storeNext m last next
  storePrev m next last

/-- `list_splice`. -/
def listSplice (m : Links) (list head : ℕ) : Res Links := do
  if ← listEmpty m list then return m
  rawListSplice m list head (← nextOf m head)

/-- `list_splice_tail`. -/
def listSpliceTail (m : Links) (list head : ℕ) : Res Links := do
  if ← listEmpty m list then return m
  rawListSplice m list (← prevOf m head) head

/-- `list_splice_init`. -/
def listSpliceInit (m : Links) (list head : ℕ) : Res Links := do
  if ← listEmpty m list then return m
  let m ← rawListSplice m list head (← nextOf m head)
  initListHead m list

/-- `list_splice_tail_init`. -/
def listSpliceTailInit (m : Links) (list head : ℕ) : Res Links := do
  if ← listEmpty m list then return m
  let m ← rawListSplice m list (← prevOf m head) head
  initListHead m list

/-! ## Reading and storing links -/

variable {m m₁ m₂ : Links} {a b e h k new : ℕ} {l l' ws xs ys zs : List ℕ}

theorem readLinks_live (ha : Live m a) : ∃ c, m a = some c ∧ readLinks m a = .ok c := by
  obtain ⟨c, hc⟩ := Option.isSome_iff_exists.mp ha
  exact ⟨c, hc, by rw [readLinks, hc]⟩

/-- A link that is read. -/
theorem nextOf_eq_ok_iff : nextOf m a = .ok b ↔ (m a).map Cell.next = some b := by
  rw [nextOf, readLinks]
  cases m a <;> simp

theorem prevOf_eq_ok_iff : prevOf m a = .ok b ↔ (m a).map Cell.prev = some b := by
  rw [prevOf, readLinks]
  cases m a <;> simp

theorem nextOf_eq (hab : Linked m a b) : nextOf m a = .ok b := nextOf_eq_ok_iff.mpr hab.1

theorem prevOf_eq (hab : Linked m a b) : prevOf m b = .ok a := prevOf_eq_ok_iff.mpr hab.2

theorem storeNext_eq (ha : Live m a) (b : ℕ) : storeNext m a b = .ok (Rings.setNext m a b) := by
  obtain ⟨c, -, hread⟩ := readLinks_live ha
  rw [storeNext, hread]
  rfl

theorem storePrev_eq (ha : Live m a) (b : ℕ) : storePrev m a b = .ok (Rings.setPrev m a b) := by
  obtain ⟨c, -, hread⟩ := readLinks_live ha
  rw [storePrev, hread]
  rfl

/-- The cells that are stored to are among those of `l`. -/
structure Touches (l : List ℕ) (m m' : Links) : Prop where
  /-- No cell comes or goes. -/
  live : ∀ x, Live m' x ↔ Live m x
  /-- The others are as they were. -/
  off : ∀ x, x ∉ l → m' x = m x

theorem Touches.mono (h : Touches l m m₁) (hl : l ⊆ l') : Touches l' m m₁ :=
  ⟨h.live, fun x hx => h.off x fun hmem => hx (hl hmem)⟩

theorem Touches.trans (h₁ : Touches l m m₁) (h₂ : Touches l m₁ m₂) : Touches l m m₂ :=
  ⟨fun x => (h₂.live x).trans (h₁.live x), fun x hx => (h₂.off x hx).trans (h₁.off x hx)⟩

/-- A ring off the cells that are stored to. -/
theorem Touches.ring (h : Touches l m m₁) (hr : Ring m k xs) (hoff : ∀ x ∈ k :: xs, x ∉ l) :
    Ring m₁ k xs :=
  hr.congr fun x hx => h.off x (hoff x hx)

theorem touches_link (m : Links) (a b : ℕ) : Touches [a, b] m (link m a b) :=
  ⟨fun _ => live_link, fun x hx => by
    rw [List.mem_cons, List.mem_singleton, not_or] at hx
    exact link_of_ne hx.1 hx.2⟩

/-- `__list_add` makes two links. -/
theorem rawListAdd_eq {prev next : ℕ} (hnew : Live m new) (hprev : Live m prev)
    (hnext : Live m next) :
    rawListAdd m new prev next = .ok (link (link m new next) prev new) := by
  rw [rawListAdd, storePrev_eq hnext, ok_bind, storeNext_eq (by simpa using hnew), ok_bind,
    setNext_setPrev, storePrev_eq (by simpa using hnew), ok_bind,
    storeNext_eq (by simpa using hprev),
    setNext_setPrev]
  rfl

/-- `__list_del` makes one. -/
theorem rawListDel_eq {prev next : ℕ} (hprev : Live m prev) (hnext : Live m next) :
    rawListDel m prev next = .ok (link m prev next) := by
  rw [rawListDel, storePrev_eq hnext, ok_bind, storeNext_eq (by simpa using hprev), setNext_setPrev]
  rfl

/-- `INIT_LIST_HEAD` makes a list without entries. -/
theorem initListHead_ring (ha : Live m a) :
    ∃ m', initListHead m a = .ok m' ∧ Ring m' a [] ∧ Touches [a] m m' := by
  refine ⟨link m a a, ?_, ring_self ha, (touches_link m a a).mono (by simp)⟩
  rw [initListHead, storeNext_eq ha, ok_bind, storePrev_eq (by simpa using ha)]
  rfl

/-- `list_add_tail` puts an entry behind the others. -/
theorem listAddTail_ring (hr : Ring m h xs) (hnew : Live m new) (hoff : new ∉ h :: xs) :
    ∃ m', listAddTail m new h = .ok m' ∧ Ring m' h (xs ++ [new]) ∧
      Touches (new :: h :: xs) m m' := by
  have hlast : xs.getLastD h ∈ h :: xs := List.getLastD_mem_cons
  have hlinked := hr.linked_last
  refine ⟨link (link m new h) (xs.getLastD h) new, ?_, ?_, ?_⟩
  · rw [listAddTail, prevOf_eq hlinked, ok_bind]
    exact rawListAdd_eq hnew hlinked.live.1 hlinked.live.2
  · have hspliced := Ring.splice xs [] (by simpa using hr)
      (List.IsChain.singleton new) (by simpa using hnew) (by grind [hr.nodup])
    rw [link_comm (by grind) (by grind)]
    simpa using hspliced
  · refine ((touches_link m new h).mono ?_).trans ((touches_link _ (xs.getLastD h) new).mono ?_)
    · simp
    · grind

/-- `__list_del_entry` takes an entry out. -/
theorem rawListDelEntry_ring (hr : Ring m h (xs ++ e :: ys)) :
    ∃ m', rawListDelEntry m e = .ok m' ∧ Ring m' h (xs ++ ys) ∧
      Touches (h :: (xs ++ ys)) m m' := by
  obtain ⟨hprev, hnext⟩ := hr.linked_entry
  refine ⟨link m (xs.getLastD h) (ys.headD h), ?_, ?_, ?_⟩
  · rw [rawListDelEntry, prevOf_eq hprev, ok_bind, nextOf_eq hnext, ok_bind]
    exact rawListDel_eq hprev.live.1 hnext.live.2
  · exact (Ring.cut xs e [] ys (by simpa using hr)).1
  · refine (touches_link m _ _).mono ?_
    have hlast : xs.getLastD h ∈ h :: xs := List.getLastD_mem_cons
    have hhead := headD_mem_snoc ys h
    grind

theorem touches_setNext (m : Links) (a b : ℕ) : Touches [a] m (Rings.setNext m a b) :=
  ⟨fun _ => live_setNext, fun _ hx => Function.update_of_ne (by simpa using hx) _ _⟩

theorem touches_setPrev (m : Links) (a b : ℕ) : Touches [a] m (Rings.setPrev m a b) :=
  ⟨fun _ => live_setPrev, fun _ hx => Function.update_of_ne (by simpa using hx) _ _⟩

theorem listDel_eq (m : Links) (e : ℕ) :
    listDel m e = (do
      let m ← rawListDelEntry m e
      let m ← storeNext m e listPoison1
      storePrev m e listPoison2) := by
  simp only [listDel, rawListDelEntry, bind_assoc]

/-- `list_del` takes an entry out and leaves it poisoned. -/
theorem listDel_ring (hr : Ring m h (xs ++ e :: ys)) :
    ∃ m', listDel m e = .ok m' ∧ Ring m' h (xs ++ ys) ∧ Touches (h :: (xs ++ e :: ys)) m m' := by
  obtain ⟨m₁, hdel, hring, htouches⟩ := rawListDelEntry_ring hr
  have he : Live m₁ e := (htouches.live e).mpr (hr.live (by simp))
  have hpoison := ((touches_setNext m₁ e listPoison1)).trans
    (touches_setPrev (Rings.setNext m₁ e listPoison1) e listPoison2)
  refine ⟨Rings.setPrev (Rings.setNext m₁ e listPoison1) e listPoison2, ?_, ?_, ?_⟩
  · rw [listDel_eq, hdel, ok_bind, storeNext_eq he, ok_bind, storePrev_eq (by simpa using he)]
  · exact hpoison.ring hring (by grind [hr.nodup])
  · exact (htouches.mono (by grind)).trans (hpoison.mono (by simp))

/-- An entry in a list of its own is taken out of it. -/
theorem rawListDelEntry_self (hr : Ring m e []) :
    ∃ m', rawListDelEntry m e = .ok m' ∧ Touches [e] m m' := by
  have hlinked : Linked m e e := hr.linked_first
  refine ⟨link m e e, ?_, (touches_link m e e).mono (by simp)⟩
  rw [rawListDelEntry, prevOf_eq hlinked, ok_bind, nextOf_eq hlinked, ok_bind]
  exact rawListDel_eq hlinked.live.1 hlinked.live.1

/-- `list_del_init` takes an entry out and makes it a list of its own. -/
theorem listDelInit_ring (hr : Ring m h (xs ++ e :: ys)) :
    ∃ m', listDelInit m e = .ok m' ∧ Ring m' h (xs ++ ys) ∧ Ring m' e [] ∧
      Touches (h :: (xs ++ e :: ys)) m m' := by
  obtain ⟨m₁, hdel, hring, htouches⟩ := rawListDelEntry_ring hr
  have he : Live m₁ e := (htouches.live e).mpr (hr.live (by simp))
  obtain ⟨m₂, hinit, hself, htouches'⟩ := initListHead_ring he
  refine ⟨m₂, ?_, htouches'.ring hring (by grind [hr.nodup]), hself, ?_⟩
  · rw [listDelInit, hdel, ok_bind, hinit]
  · exact (htouches.mono (by grind)).trans (htouches'.mono (by simp))

/-- `list_move_tail` to another list. -/
theorem listMoveTail_ring (hr : Ring m h (xs ++ e :: ys)) (hk : Ring m k zs)
    (hoff : (h :: (xs ++ e :: ys)).Disjoint (k :: zs)) :
    ∃ m', listMoveTail m e k = .ok m' ∧ Ring m' h (xs ++ ys) ∧ Ring m' k (zs ++ [e]) ∧
      Touches (h :: (xs ++ e :: ys) ++ k :: zs) m m' := by
  obtain ⟨m₁, hdel, hring, htouches⟩ := rawListDelEntry_ring hr
  have he : Live m₁ e := (htouches.live e).mpr (hr.live (by simp))
  have hk₁ : Ring m₁ k zs := htouches.ring hk fun x hx hmem => hoff (by grind) hx
  have hek : e ∉ k :: zs := fun hmem => hoff (by grind) hmem
  obtain ⟨m₂, hadd, hring₂, htouches₂⟩ := listAddTail_ring hk₁ he hek
  refine ⟨m₂, ?_, htouches₂.ring hring fun x hx hmem => ?_, hring₂, ?_⟩
  · rw [listMoveTail, hdel, ok_bind, hadd]
  · obtain rfl | hmem := List.mem_cons.mp hmem
    · grind [hr.nodup]
    · exact hoff (by grind) hmem
  · exact (htouches.mono (by grind)).trans (htouches₂.mono (by grind))

/-- `list_move_tail` to the end of the same list. -/
theorem listMoveTail_ring_same (hr : Ring m h (xs ++ e :: ys)) :
    ∃ m', listMoveTail m e h = .ok m' ∧ Ring m' h (xs ++ ys ++ [e]) ∧
      Touches (h :: (xs ++ e :: ys)) m m' := by
  obtain ⟨m₁, hdel, hring, htouches⟩ := rawListDelEntry_ring hr
  have he : Live m₁ e := (htouches.live e).mpr (hr.live (by simp))
  obtain ⟨m₂, hadd, hring₂, htouches₂⟩ := listAddTail_ring hring he (by grind [hr.nodup])
  refine ⟨m₂, ?_, hring₂, ?_⟩
  · rw [listMoveTail, hdel, ok_bind, hadd]
  · exact (htouches.mono (by grind)).trans (htouches₂.mono (by grind))

/-- `list_move_tail` of an entry in a list of its own. -/
theorem listMoveTail_self (hr : Ring m e []) (hk : Ring m k zs) (hek : e ∉ k :: zs) :
    ∃ m', listMoveTail m e k = .ok m' ∧ Ring m' k (zs ++ [e]) ∧ Touches (e :: k :: zs) m m' := by
  obtain ⟨m₁, hdel, htouches⟩ := rawListDelEntry_self hr
  have he : Live m₁ e := (htouches.live e).mpr (hr.live (by simp))
  have hk₁ : Ring m₁ k zs := htouches.ring hk (by grind)
  obtain ⟨m₂, hadd, hring₂, htouches₂⟩ := listAddTail_ring hk₁ he hek
  refine ⟨m₂, ?_, hring₂, (htouches.mono (by simp)).trans htouches₂⟩
  rw [listMoveTail, hdel, ok_bind, hadd]

/-- `list_replace`: the new cell takes the place of the old one. -/
theorem listReplace_ring {old : ℕ} (hr : Ring m old xs) (hnew : Live m new)
    (hoff : new ∉ old :: xs) :
    ∃ m', listReplace m old new = .ok m' ∧ Ring m' new xs ∧ Touches (new :: old :: xs) m m' := by
  have hold : Live m old := hr.live List.mem_cons_self
  have hlinked := hr.linked_first
  have hprev := hr.linked_last
  -- the first two stores link the new cell to the first entry
  have hfirst : Live m (xs.headD old) := hlinked.live.2
  have hread : nextOf (Rings.setNext m new (xs.headD old)) new = .ok (xs.headD old) := by
    obtain ⟨c, hc, -⟩ := readLinks_live hnew
    rw [nextOf_eq_ok_iff, map_next_setNext, hc, Option.map_some, Option.map_some, if_pos rfl]
  have hfront : listReplace m old new =
      (do
        let m₁ ← storePrev (link m new (xs.headD old)) new
          (← prevOf (link m new (xs.headD old)) old)
        storeNext m₁ (← prevOf m₁ new) new) := by
    rw [listReplace, nextOf_eq hlinked, ok_bind, storeNext_eq hnew, ok_bind, hread, ok_bind,
      storePrev_eq (by simpa using hfirst), ok_bind]
    rfl
  have hread₂ {p : ℕ} (m₁ : Links) (hm₁ : Live m₁ new) :
      prevOf (Rings.setPrev m₁ new p) new = .ok p := by
    obtain ⟨c, hc, -⟩ := readLinks_live hm₁
    rw [prevOf_eq_ok_iff, map_prev_setPrev, hc, Option.map_some, Option.map_some, if_pos rfl]
  have hnew₁ (b : ℕ) : Live (link m new b) new := live_link.mpr hnew
  cases xs with
  | nil =>
    have hself : prevOf (link m new old) old = .ok new := by
      obtain ⟨c, hc, -⟩ := readLinks_live hold
      rw [prevOf_eq_ok_iff, map_prev_link, hc, Option.map_some, Option.map_some, if_pos rfl]
    refine ⟨link (link m new old) new new, ?_, ring_self (hnew₁ old), ?_⟩
    · rw [hfront, List.headD_nil, hself, ok_bind, storePrev_eq (hnew₁ _), ok_bind,
        hread₂ _ (hnew₁ _),
        ok_bind, storeNext_eq (by simpa using hnew), setNext_setPrev]
      rfl
    · exact ((touches_link m new old).mono (by simp)).trans
        ((touches_link _ new new).mono (by simp))
  | cons x rest =>
    have hlast : prevOf (link m new x) old = .ok (rest.getLastD x) := by
      rw [prevOf_eq_ok_iff, map_prev_link, hprev.2, Option.map_some, if_neg (by grind [hr.nodup]),
        List.getLastD_cons]
    have hlastLive : Live m (rest.getLastD x) := hr.live (by
      have hmem : rest.getLastD x ∈ x :: rest := List.getLastD_mem_cons
      exact List.mem_cons_of_mem old hmem)
    refine ⟨link (link m new x) (rest.getLastD x) new, ?_, ?_, ?_⟩
    · rw [hfront, List.headD_cons, hlast, ok_bind, storePrev_eq (hnew₁ _), ok_bind,
        hread₂ _ (hnew₁ _),
        ok_bind, storeNext_eq (by simpa using hlastLive), setNext_setPrev]
      rfl
    · exact ring_close hr.isChain_entries (by grind [hr.nodup]) (by grind [hr.live])
    · have hmem : rest.getLastD x ∈ x :: rest := List.getLastD_mem_cons
      exact ((touches_link m new x).mono (by simp)).trans ((touches_link _ _ new).mono (by grind))

/-- `list_replace` of an entry. -/
theorem listReplace_entry {old : ℕ} (hr : Ring m h (xs ++ old :: ys)) (hnew : Live m new)
    (hoff : new ∉ h :: (xs ++ old :: ys)) :
    ∃ m', listReplace m old new = .ok m' ∧ Ring m' h (xs ++ new :: ys) ∧
      Touches (new :: h :: (xs ++ old :: ys)) m m' := by
  obtain ⟨m', hreplace, hring, htouches⟩ := listReplace_ring hr.rotate hnew (by grind)
  exact ⟨m', hreplace, hring.rotate, htouches.mono (by grind)⟩

/-- `list_replace_init` of a head. -/
theorem listReplaceInit_ring {old : ℕ} (hr : Ring m old xs) (hnew : Live m new)
    (hoff : new ∉ old :: xs) :
    ∃ m', listReplaceInit m old new = .ok m' ∧ Ring m' new xs ∧ Ring m' old [] ∧
      Touches (new :: old :: xs) m m' := by
  obtain ⟨m₁, hreplace, hring, ht⟩ := listReplace_ring hr hnew hoff
  have hold : Live m₁ old := (ht.live old).mpr (hr.live List.mem_cons_self)
  obtain ⟨m₂, hinit, hself, ht'⟩ := initListHead_ring hold
  refine ⟨m₂, ?_, ht'.ring hring (by grind [hr.nodup]), hself, ht.trans (ht'.mono (by simp))⟩
  rw [listReplaceInit, hreplace, ok_bind, hinit]

/-- `list_replace_init` of an entry. -/
theorem listReplaceInit_entry {old : ℕ} (hr : Ring m h (xs ++ old :: ys)) (hnew : Live m new)
    (hoff : new ∉ h :: (xs ++ old :: ys)) :
    ∃ m', listReplaceInit m old new = .ok m' ∧ Ring m' h (xs ++ new :: ys) ∧ Ring m' old [] ∧
      Touches (new :: h :: (xs ++ old :: ys)) m m' := by
  obtain ⟨m', hreplace, hring, hself, ht⟩ := listReplaceInit_ring hr.rotate hnew (by grind)
  exact ⟨m', hreplace, hring.rotate, hself, ht.mono (by grind)⟩

/-- `list_empty` tells the lists without entries. -/
theorem listEmpty_ring (hr : Ring m h xs) : listEmpty m h = .ok (decide (xs = [])) := by
  rw [listEmpty, nextOf_eq hr.linked_first, ok_bind, pure_eq_ok]
  cases xs with
  | nil => simp
  | cons x xs =>
    have hne : x ≠ h := by grind [hr.nodup]
    simp [hne]

/-- `list_empty_careful` tells them, too. -/
theorem listEmptyCareful_ring (hr : Ring m h xs) :
    listEmptyCareful m h = .ok (decide (xs = [])) := by
  rw [listEmptyCareful, nextOf_eq hr.linked_first, ok_bind]
  cases xs with
  | nil => simp [prevOf_eq hr.linked_last]
  | cons x xs =>
    have hne : x ≠ h := by grind [hr.nodup]
    simp [hne]

/-- `list_is_singular` tells the lists of one entry. -/
theorem listIsSingular_ring (hr : Ring m h xs) :
    listIsSingular m h = .ok (decide (xs.length = 1)) := by
  rw [listIsSingular, listEmpty_ring hr, ok_bind, nextOf_eq hr.linked_first,
    prevOf_eq hr.linked_last]
  cases xs with
  | nil => rfl
  | cons x xs =>
    cases xs with
    | nil => simp
    | cons y xs =>
      have hmem : xs.getLastD y ∈ y :: xs := List.getLastD_mem_cons
      have hne : x ≠ xs.getLastD y := by grind [hr.nodup]
      rw [List.headD_cons, List.getLastD_cons, List.getLastD_cons]
      simp [hne, -List.getLastD_eq_getLast?]

/-- `list_is_last` tells the last entry. -/
theorem listIsLast_ring (hr : Ring m h (xs ++ e :: ys)) :
    listIsLast m e h = .ok (decide (ys = [])) := by
  rw [listIsLast, nextOf_eq hr.linked_entry.2, ok_bind, pure_eq_ok]
  cases ys with
  | nil => simp
  | cons y ys =>
    have hne : y ≠ h := by grind [hr.nodup]
    simp [hne]

theorem mem_of_mem_rotated {x : ℕ} (hx : x ∈ xs.tail ++ xs.head?.toList) : x ∈ xs := by
  cases xs with
  | nil => exact hx
  | cons y ys => grind

/-- `list_rotate_left` puts the first entry behind the others. -/
theorem listRotateLeft_ring (hr : Ring m h xs) :
    ∃ m', listRotateLeft m h = .ok m' ∧ Ring m' h (xs.tail ++ xs.head?.toList) ∧
      Touches (h :: xs) m m' := by
  rw [listRotateLeft, listEmpty_ring hr, ok_bind]
  cases xs with
  | nil => exact ⟨m, rfl, hr, fun _ => Iff.rfl, fun _ _ => rfl⟩
  | cons x xs =>
    obtain ⟨m', hmove, hring, htouches⟩ :=
      listMoveTail_ring_same (show Ring m h ([] ++ x :: xs) from hr)
    refine ⟨m', ?_, hring, htouches⟩
    have hnext := nextOf_eq hr.linked_first
    simp only [List.headD_cons] at hnext
    simp [hnext, hmove]

/-- `__list_cut_position` parts a list behind an entry. -/
theorem rawListCutPosition_ring {list : ℕ} (hr : Ring m h (xs ++ e :: ys)) (hlist : Live m list)
    (hoff : list ∉ h :: (xs ++ e :: ys)) :
    ∃ m', rawListCutPosition m list h e = .ok m' ∧ Ring m' list (xs ++ [e]) ∧ Ring m' h ys ∧
      Touches (list :: h :: (xs ++ e :: ys)) m m' := by
  obtain ⟨w, ws, hfront⟩ : ∃ w ws, xs ++ [e] = w :: ws :=
    List.exists_cons_of_ne_nil (by simp)
  have hentries : xs ++ e :: ys = w :: ws ++ ys := by rw [← hfront, List.append_assoc]; rfl
  have hlast : ws.getLastD w = e := by
    rw [← List.getLastD_cons (a := h), ← hfront, List.getLastD_concat]
  have hnd := hr.nodup
  have hfirst : Linked m h w := by
    have hlinked := hr.linked_first
    rwa [hentries] at hlinked
  have hnext := hr.linked_entry.2
  have hne_first : list ≠ w := by grind
  have hne_head : list ≠ h := by grind
  have hne_last : h ≠ e := by grind
  have hhead := headD_mem_snoc ys h
  have hne_next : list ≠ ys.headD h := by grind
  have hw_next : w ≠ ys.headD h := by
    rw [hentries] at hnd
    grind
  -- the ring without the piece, then the piece as a ring
  obtain ⟨hring, hchain⟩ := Ring.cut [] w ws ys (by
    rw [List.nil_append, ← hentries]; exact hr)
  rw [List.getLastD_nil] at hring hchain
  rw [hentries] at hnd hoff
  have hlive : ∀ x ∈ list :: w :: ws, Live (link m h (ys.headD h)) x := by
    intro x hx
    rw [live_link]
    obtain rfl | hx := List.mem_cons.mp hx
    · exact hlist
    · refine hr.live ?_
      rw [hentries]
      grind
  have hclosed := ring_close hchain (h := list) (by grind) hlive
  refine ⟨link (link (link m h (ys.headD h)) list w) e list, ?_, ?_, ?_, ?_⟩
  · have hread : nextOf (Rings.setNext m list w) list = .ok w := by
      obtain ⟨c, hc, -⟩ := readLinks_live hlist
      rw [nextOf_eq_ok_iff, map_next_setNext, hc, Option.map_some, Option.map_some, if_pos rfl]
    rw [rawListCutPosition, nextOf_eq hnext, ok_bind, nextOf_eq hfirst, ok_bind,
      storeNext_eq hlist, ok_bind, hread, ok_bind, storePrev_eq (by simpa using hfirst.live.2),
      ok_bind]
    change (do
      let m' ← storePrev (link m list w) list e
      let m' ← storeNext m' e list
      let m' ← storeNext m' h (ys.headD h)
      storePrev m' (ys.headD h) h) = _
    rw [storePrev_eq (by simpa using hlist), ok_bind, storeNext_eq (by simpa using hnext.live.1),
      ok_bind, setNext_setPrev]
    change (do
      let m' ← storeNext (link (link m list w) e list) h (ys.headD h)
      storePrev m' (ys.headD h) h) = _
    rw [storeNext_eq (by simpa using hfirst.live.1), ok_bind,
      storePrev_eq (by simpa using hnext.live.2)]
    change Except.ok (link (link (link m list w) e list) h (ys.headD h)) = _
    rw [link_comm (Ne.symm hne_last) hne_next, link_comm hne_head hw_next]
  · rw [hfront]
    rwa [hlast] at hclosed
  · have he : e ∈ w :: ws := hfront ▸ List.mem_append_right _ (List.mem_singleton_self e)
    exact (hring.link_off (by grind) (by grind)).link_off (by grind) (by grind)
  · have he : e ∈ w :: ws := hfront ▸ List.mem_append_right _ (List.mem_singleton_self e)
    rw [hentries]
    exact (((touches_link m h _).mono (by grind)).trans
      ((touches_link _ list w).mono (by grind))).trans ((touches_link _ e list).mono (by grind))

/-- `__list_splice` puts the entries of a list between two neighbours. -/
theorem rawListSplice_ring (xs ys : List ℕ) {list w : ℕ} (hlist : Ring m list (w :: ws))
    (hr : Ring m h (xs ++ ys)) (hoff : (list :: w :: ws).Disjoint (h :: (xs ++ ys))) :
    ∃ m', rawListSplice m list (xs.getLastD h) (ys.headD h) = .ok m' ∧
      Ring m' h (xs ++ (w :: ws ++ ys)) ∧ Touches (w :: ws ++ h :: (xs ++ ys)) m m' := by
  have hfirst : Linked m list w := hlist.linked_first
  have hlast : Linked m (ws.getLastD w) list := by
    have hlinked := hlist.linked_last
    rwa [List.getLastD_cons] at hlinked
  have hgap := hr.linked xs ys
  have hprev : xs.getLastD h ∈ h :: xs := List.getLastD_mem_cons
  have hnext := headD_mem_snoc ys h
  have hmem : ws.getLastD w ∈ w :: ws := List.getLastD_mem_cons
  refine ⟨link (link m (xs.getLastD h) w) (ws.getLastD w) (ys.headD h), ?_, ?_, ?_⟩
  · rw [rawListSplice, nextOf_eq hfirst, ok_bind, prevOf_eq hlast, ok_bind,
      storePrev_eq hfirst.live.2, ok_bind, storeNext_eq (by simpa using hgap.live.1), ok_bind,
      setNext_setPrev]
    change (do
      let m' ← storeNext (link m (xs.getLastD h) w) (ws.getLastD w) (ys.headD h)
      storePrev m' (ys.headD h) (ws.getLastD w)) = _
    rw [storeNext_eq (by simpa using hlast.live.1), ok_bind,
      storePrev_eq (by simpa using hgap.live.2)]
    rfl
  · refine hr.splice xs ys hlist.isChain_entries
      (fun x hx => hlist.live (List.mem_cons_of_mem _ hx)) ?_
    have hperm : ((h :: xs) ++ (w :: ws ++ ys)).Perm (w :: ws ++ ((h :: xs) ++ ys)) :=
      List.perm_append_comm_assoc _ _ _
    refine hperm.nodup_iff.mpr (List.nodup_append'.mpr ⟨?_, hr.nodup, fun x hx hx' => ?_⟩)
    · exact (List.nodup_cons.mp hlist.nodup).2
    · exact hoff (List.mem_cons_of_mem _ hx) hx'
  · exact ((touches_link m _ w).mono (by grind)).trans ((touches_link _ _ _).mono (by grind))

/-- `list_splice` puts the entries of a list in front of those of another. -/
theorem listSplice_ring {list : ℕ} (hlist : Ring m list ws) (hr : Ring m h xs)
    (hoff : (list :: ws).Disjoint (h :: xs)) :
    ∃ m', listSplice m list h = .ok m' ∧ Ring m' h (ws ++ xs) ∧ (ws = [] → m' = m) ∧
      Touches (ws ++ h :: xs) m m' := by
  rw [listSplice, listEmpty_ring hlist, ok_bind]
  cases ws with
  | nil => exact ⟨m, rfl, hr, fun _ => rfl, fun _ => Iff.rfl, fun _ _ => rfl⟩
  | cons w ws =>
    obtain ⟨m', hsplice, hring, htouches⟩ := rawListSplice_ring [] xs hlist hr hoff
    refine ⟨m', ?_, hring, fun h => absurd h (List.cons_ne_nil w ws), htouches⟩
    rw [if_neg (by simp), nextOf_eq hr.linked_first, ok_bind]
    exact hsplice

/-- `list_splice_tail` puts them behind. -/
theorem listSpliceTail_ring {list : ℕ} (hlist : Ring m list ws) (hr : Ring m h xs)
    (hoff : (list :: ws).Disjoint (h :: xs)) :
    ∃ m', listSpliceTail m list h = .ok m' ∧ Ring m' h (xs ++ ws) ∧ (ws = [] → m' = m) ∧
      Touches (ws ++ h :: xs) m m' := by
  rw [listSpliceTail, listEmpty_ring hlist, ok_bind]
  cases ws with
  | nil => exact ⟨m, rfl, by simpa using hr, fun _ => rfl, fun _ => Iff.rfl, fun _ _ => rfl⟩
  | cons w ws =>
    obtain ⟨m', hsplice, hring, htouches⟩ := rawListSplice_ring xs [] hlist
      (by simpa using hr) (by simpa using hoff)
    refine ⟨m', ?_, by simpa using hring, fun h => absurd h (List.cons_ne_nil w ws), ?_⟩
    · rw [if_neg (by simp), prevOf_eq hr.linked_last, ok_bind]
      exact hsplice
    · simpa using htouches

theorem listSpliceInit_eq {list : ℕ} (hempty : listEmpty m list = .ok false) :
    listSpliceInit m list h = (do initListHead (← listSplice m list h) list) := by
  simp only [listSpliceInit, listSplice, hempty, ok_bind, Bool.false_eq_true, if_false, bind_assoc]

theorem listSpliceTailInit_eq {list : ℕ} (hempty : listEmpty m list = .ok false) :
    listSpliceTailInit m list h = (do initListHead (← listSpliceTail m list h) list) := by
  simp only [listSpliceTailInit, listSpliceTail, hempty, ok_bind, Bool.false_eq_true, if_false,
    bind_assoc]

/-- A list whose entries went to another starts anew. -/
theorem initListHead_spliced {list : ℕ} (hlist : Ring m list ws) (hoff : list ∉ h :: (ws ++ xs))
    (hring : Ring m₁ h l) (hl : l ⊆ ws ++ xs) (htouches : Touches (ws ++ h :: xs) m m₁) :
    ∃ m', initListHead m₁ list = .ok m' ∧ Ring m' list [] ∧ Ring m' h l ∧
      Touches (list :: ws ++ h :: xs) m m' := by
  have hlive : Live m₁ list := (htouches.live list).mpr (hlist.live List.mem_cons_self)
  obtain ⟨m₂, hinit, hself, htouches'⟩ := initListHead_ring hlive
  refine ⟨m₂, hinit, hself, htouches'.ring hring fun x hx hmem => ?_, ?_⟩
  · obtain rfl := List.mem_singleton.mp hmem
    obtain rfl | hx := List.mem_cons.mp hx
    · exact hoff List.mem_cons_self
    · exact hoff (List.mem_cons_of_mem _ (hl hx))
  · exact (htouches.mono (by grind)).trans (htouches'.mono (by grind))

/-- The first list starts anew after `list_splice_init`. -/
theorem listSpliceInit_ring {list : ℕ} (hlist : Ring m list ws) (hr : Ring m h xs)
    (hoff : (list :: ws).Disjoint (h :: xs)) :
    ∃ m', listSpliceInit m list h = .ok m' ∧ Ring m' list [] ∧ Ring m' h (ws ++ xs) ∧
      Touches (list :: ws ++ h :: xs) m m' := by
  have hempty := listEmpty_ring hlist
  obtain ⟨m₁, hsplice, hring, -, htouches⟩ := listSplice_ring hlist hr hoff
  cases ws with
  | nil =>
    refine ⟨m, ?_, hlist, hr, fun _ => Iff.rfl, fun _ _ => rfl⟩
    rw [listSpliceInit, hempty]
    rfl
  | cons w ws =>
    rw [listSpliceInit_eq (by simpa using hempty), hsplice, ok_bind]
    have hnot : list ∉ h :: (w :: ws ++ xs) := by
      have hout : list ∉ h :: xs := hoff List.mem_cons_self
      grind [hlist.nodup]
    exact initListHead_spliced hlist hnot hring (fun _ => id) htouches

/-- The first list starts anew after `list_splice_tail_init`. -/
theorem listSpliceTailInit_ring {list : ℕ} (hlist : Ring m list ws) (hr : Ring m h xs)
    (hoff : (list :: ws).Disjoint (h :: xs)) :
    ∃ m', listSpliceTailInit m list h = .ok m' ∧ Ring m' list [] ∧ Ring m' h (xs ++ ws) ∧
      Touches (list :: ws ++ h :: xs) m m' := by
  have hempty := listEmpty_ring hlist
  obtain ⟨m₁, hsplice, hring, -, htouches⟩ := listSpliceTail_ring hlist hr hoff
  cases ws with
  | nil =>
    refine ⟨m, ?_, hlist, by simpa using hr, fun _ => Iff.rfl, fun _ _ => rfl⟩
    rw [listSpliceTailInit, hempty]
    rfl
  | cons w ws =>
    rw [listSpliceTailInit_eq (by simpa using hempty), hsplice, ok_bind]
    have hnot : list ∉ h :: (w :: ws ++ xs) := by
      have hout : list ∉ h :: xs := hoff List.mem_cons_self
      grind [hlist.nodup]
    exact initListHead_spliced hlist hnot hring (by grind) htouches

/-- `list_cut_position` of a list with entries, behind one of them. -/
theorem listCutPosition_ring {list : ℕ} (hr : Ring m h (xs ++ e :: ys)) (hlist : Live m list)
    (hoff : list ∉ h :: (xs ++ e :: ys)) :
    ∃ m', listCutPosition m list h e = .ok m' ∧ Ring m' list (xs ++ [e]) ∧ Ring m' h ys ∧
      Touches (list :: h :: (xs ++ e :: ys)) m m' := by
  obtain ⟨m', hcut, hfront, hback, htouches⟩ := rawListCutPosition_ring hr hlist hoff
  refine ⟨m', ?_, hfront, hback, htouches⟩
  have hne : e ≠ h := by grind [hr.nodup]
  have hfirst : (xs ++ e :: ys).length = 1 → (xs ++ e :: ys).headD h = e := by
    cases xs with
    | nil => exact fun _ => rfl
    | cons x xs => simp
  rw [listCutPosition, listEmpty_ring hr, ok_bind, if_neg (by simp), listIsSingular_ring hr]
  simp only [ok_bind, pure_eq_ok]
  by_cases hone : (xs ++ e :: ys).length = 1
  · rw [if_pos (by simpa using hone), nextOf_eq hr.linked_first, hfirst hone, ok_bind,
      if_neg (fun hand => hand.1 rfl), if_neg hne]
    exact hcut
  · rw [if_neg (by simpa using hone), if_neg hne]
    exact hcut

/-- A list that is cut at its head keeps its entries. -/
theorem listCutPosition_head {list : ℕ} (hr : Ring m h xs) (hne : xs ≠ []) :
    listCutPosition m list h h = initListHead m list := by
  rw [listCutPosition, listEmpty_ring hr, ok_bind, if_neg (by simpa using hne),
    listIsSingular_ring hr, nextOf_eq hr.linked_first]
  simp

/-- There is nothing to cut in a list without entries, or where the only entry is
another one. -/
theorem listCutPosition_none {list : ℕ} (hr : Ring m h xs)
    (hnone : xs = [] ∨ xs.length = 1 ∧ e ∉ h :: xs) : listCutPosition m list h e = .ok m := by
  rw [listCutPosition, listEmpty_ring hr, ok_bind]
  by_cases hnil : xs = []
  · rw [if_pos (by simpa using hnil)]
    rfl
  · obtain ⟨hone, hother⟩ := hnone.resolve_left hnil
    obtain ⟨x, rfl⟩ := List.length_eq_one_iff.mp hone
    have hx : x ≠ e := by grind
    have hh : h ≠ e := by grind
    rw [if_neg (by simp), listIsSingular_ring hr, nextOf_eq hr.linked_first]
    simp [hx, hh]

/-! ## Going through a list -/

/-- `list_for_each`: the entries it comes to. -/
def forEachLoop (m : Links) (head : ℕ) : ℕ → ℕ → Res (List ℕ)
  | 0, _ => .error .hang
  | fuel + 1, pos =>
    if pos = head then .ok [] else do
      let rest ← forEachLoop m head fuel (← nextOf m pos)
      return pos :: rest

/-- `list_for_each`. -/
def forEach (fuel : ℕ) (m : Links) (head : ℕ) : Res (List ℕ) := do
  forEachLoop m head fuel (← nextOf m head)

/-- `list_for_each_prev`: the entries it comes to. -/
def forEachPrevLoop (m : Links) (head : ℕ) : ℕ → ℕ → Res (List ℕ)
  | 0, _ => .error .hang
  | fuel + 1, pos =>
    if pos = head then .ok [] else do
      let rest ← forEachPrevLoop m head fuel (← prevOf m pos)
      return pos :: rest

/-- `list_for_each_prev`. -/
def forEachPrev (fuel : ℕ) (m : Links) (head : ℕ) : Res (List ℕ) := do
  forEachPrevLoop m head fuel (← prevOf m head)

/-- `list_for_each_safe` with a body that works on the state `σ`, of which `links`
are the cells. The next position is read before the body is run. -/
def forEachSafeLoop {σ : Type} (links : σ → Links) (body : ℕ → σ → Res σ) (head : ℕ) :
    ℕ → ℕ → ℕ → σ → Res σ
  | 0, _, _, _ => .error .hang
  | fuel + 1, pos, n, s =>
    if pos = head then .ok s else do
      let s ← body pos s
      forEachSafeLoop links body head fuel n (← nextOf (links s) n) s

/-- `list_for_each_safe`. -/
def forEachSafe {σ : Type} (links : σ → Links) (body : ℕ → σ → Res σ) (fuel head : ℕ) (s : σ) :
    Res σ := do
  let pos ← nextOf (links s) head
  forEachSafeLoop links body head fuel pos (← nextOf (links s) pos) s

/-- From an entry on `list_for_each` comes to those behind it. -/
theorem forEachLoop_ring (xs : List ℕ) (hr : Ring m h (xs ++ ys)) {fuel : ℕ}
    (hfuel : ys.length < fuel) :
    forEachLoop m h fuel (ys.headD h) = .ok ys := by
  induction ys generalizing xs fuel with
  | nil =>
    obtain ⟨fuel, rfl⟩ := Nat.exists_eq_add_of_lt hfuel
    simp [forEachLoop]
  | cons y ys ih =>
    obtain ⟨fuel, rfl⟩ := Nat.exists_eq_add_of_lt hfuel
    have hne : y ≠ h := by grind [hr.nodup]
    have hrest := ih (xs ++ [y]) (by simpa using hr)
      (show ys.length < ys.length + 1 + fuel by omega)
    rw [List.headD_cons, List.length_cons, forEachLoop, if_neg hne,
      nextOf_eq hr.linked_entry.2, ok_bind, hrest]
    rfl

/-- `list_for_each` comes to every entry, in order. -/
theorem forEach_ring (hr : Ring m h xs) {fuel : ℕ} (hfuel : xs.length < fuel) :
    forEach fuel m h = .ok xs := by
  rw [forEach, nextOf_eq hr.linked_first, ok_bind]
  exact forEachLoop_ring [] hr hfuel

/-- From an entry on `list_for_each_prev` comes to those in front of it. -/
theorem forEachPrevLoop_ring (ys : List ℕ) (hr : Ring m h (xs ++ ys)) {fuel : ℕ}
    (hfuel : xs.length < fuel) :
    forEachPrevLoop m h fuel (xs.getLastD h) = .ok xs.reverse := by
  induction xs using List.reverseRecOn generalizing ys fuel with
  | nil =>
    obtain ⟨fuel, rfl⟩ := Nat.exists_eq_add_of_lt hfuel
    simp [forEachPrevLoop]
  | append_singleton xs x ih =>
    obtain ⟨fuel, rfl⟩ := Nat.exists_eq_add_of_lt hfuel
    have hr' : Ring m h (xs ++ x :: ys) := by simpa using hr
    have hne : x ≠ h := by grind [hr'.nodup]
    have hrest := ih (x :: ys) hr' (show xs.length < xs.length + 1 + fuel by omega)
    rw [List.getLastD_concat, List.length_append, List.length_singleton, forEachPrevLoop,
      if_neg hne, prevOf_eq hr'.linked_entry.1, ok_bind, hrest]
    simp

/-- `list_for_each_prev` comes to every entry, the last one first. -/
theorem forEachPrev_ring (hr : Ring m h xs) {fuel : ℕ} (hfuel : xs.length < fuel) :
    forEachPrev fuel m h = .ok xs.reverse := by
  rw [forEachPrev, prevOf_eq hr.linked_last, ok_bind]
  exact forEachPrevLoop_ring [] (by simpa using hr) hfuel

/-- The next position of a loop that has `todo` in front of it. -/
theorem nextOf_todo {todo : List ℕ} (hlive : Live m h) (hchain : (todo ++ [h]).IsChain (Linked m)) :
    ∃ n, nextOf m (todo.headD h) = .ok n ∧ ∀ e rest, todo = e :: rest → n = rest.headD h := by
  cases todo with
  | nil =>
    obtain ⟨c, -, hread⟩ := readLinks_live hlive
    exact ⟨c.next, by rw [List.headD_nil, nextOf, hread]; rfl, fun _ _ heq => by cases heq⟩
  | cons e rest =>
    have hlinked : Linked m e (rest.headD h) :=
      ((isChain_gap_iff e [] rest h).mp hchain).2.2
    refine ⟨rest.headD h, nextOf_eq hlinked, fun e' rest' heq => ?_⟩
    rw [(List.cons.inj heq).2]

/-- A loop that has come to its end would do so with more rounds to spare. -/
theorem forEachSafeLoop_mono {σ : Type} {links : σ → Links} {body : ℕ → σ → Res σ} {head : ℕ}
    {fuel fuel' pos n : ℕ} {s s' : σ} (h : forEachSafeLoop links body head fuel pos n s = .ok s')
    (hle : fuel ≤ fuel') : forEachSafeLoop links body head fuel' pos n s = .ok s' := by
  induction fuel generalizing fuel' pos n s with
  | zero => cases h
  | succ fuel ih =>
    obtain ⟨fuel', rfl⟩ := Nat.exists_eq_add_of_le' hle
    rw [← Nat.add_assoc, forEachSafeLoop]
    rw [forEachSafeLoop] at h
    split at h
    · rw [if_pos ‹_›, h]
    · obtain ⟨s₁, hbody, h⟩ := bind_eq_ok.mp h
      obtain ⟨n', hnext, h⟩ := bind_eq_ok.mp h
      rw [if_neg ‹_›, hbody, ok_bind, hnext, ok_bind]
      exact ih h (by omega)

theorem forEachSafe_mono {σ : Type} {links : σ → Links} {body : ℕ → σ → Res σ} {head : ℕ}
    {fuel fuel' : ℕ} {s s' : σ} (h : forEachSafe links body fuel head s = .ok s')
    (hle : fuel ≤ fuel') : forEachSafe links body fuel' head s = .ok s' := by
  obtain ⟨pos, hpos, h⟩ := bind_eq_ok.mp h
  obtain ⟨n, hn, h⟩ := bind_eq_ok.mp h
  rw [forEachSafe, hpos, ok_bind, hn, ok_bind]
  exact forEachSafeLoop_mono h hle

section Safe

variable {σ : Type} (links : σ → Links) (body : ℕ → σ → Res σ) (I : List ℕ → List ℕ → σ → Prop)

/-- The rounds of `list_for_each_safe` that are in front of it. -/
theorem forEachSafeLoop_rule
    (hchain : ∀ {done todo s}, I done todo s → h ∉ todo ∧
      (todo ++ [h]).IsChain (Linked (links s)) ∧ Live (links s) h)
    (hbody : ∀ {done e todo s}, I done (e :: todo) s → ∃ s', body e s = .ok s' ∧
      I (done ++ [e]) todo s')
    {done todo : List ℕ} {s : σ} (hs : I done todo s) {fuel n : ℕ} (hfuel : todo.length < fuel)
    (hn : ∀ e rest, todo = e :: rest → n = rest.headD h) :
    ∃ s', forEachSafeLoop links body h fuel (todo.headD h) n s = .ok s' ∧
      I (done ++ todo) [] s' := by
  induction todo generalizing done s fuel n with
  | nil =>
    obtain ⟨fuel, rfl⟩ := Nat.exists_eq_add_of_lt hfuel
    exact ⟨s, by simp [forEachSafeLoop], by simpa using hs⟩
  | cons e rest ih =>
    obtain ⟨fuel, rfl⟩ := Nat.exists_eq_add_of_lt hfuel
    have hne : e ≠ h := fun heq => (hchain hs).1 (heq ▸ List.mem_cons_self)
    obtain ⟨s₁, hrun, hs₁⟩ := hbody hs
    obtain ⟨-, hlinked, hlive⟩ := hchain hs₁
    obtain ⟨n', hnext, hn'⟩ := nextOf_todo hlive hlinked
    obtain ⟨s₂, hloop, hs₂⟩ := ih hs₁ (show rest.length < rest.length + 1 + fuel by omega) hn'
    refine ⟨s₂, ?_, by simpa using hs₂⟩
    rw [List.headD_cons, List.length_cons, forEachSafeLoop, if_neg hne, hrun, ok_bind,
      hn e rest rfl, hnext, ok_bind]
    exact hloop

/-- The rule of `list_for_each_safe`. Its invariant speaks of the entries behind the
loop and of those in front of it; the latter are linked as they were when it began,
whatever the body does to the entry it is given. -/
theorem forEachSafe_rule
    (hchain : ∀ {done todo s}, I done todo s → h ∉ todo ∧
      (todo ++ [h]).IsChain (Linked (links s)) ∧ Live (links s) h)
    (hbody : ∀ {done e todo s}, I done (e :: todo) s → ∃ s', body e s = .ok s' ∧
      I (done ++ [e]) todo s')
    {s : σ} (hs : I [] xs s) (hr : Ring (links s) h xs) {fuel : ℕ} (hfuel : xs.length < fuel) :
    ∃ s', forEachSafe links body fuel h s = .ok s' ∧ I xs [] s' := by
  obtain ⟨n, hnext, hn⟩ :=
    nextOf_todo (hr.live List.mem_cons_self) (List.isChain_cons.mp hr.chain).2
  rw [forEachSafe, nextOf_eq hr.linked_first, ok_bind, hnext, ok_bind]
  exact forEachSafeLoop_rule links body I hchain hbody hs hfuel hn

end Safe

end TsmVm
