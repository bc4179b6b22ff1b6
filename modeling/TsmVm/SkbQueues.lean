import TsmVm.FmSkbuff
import TsmVm.ListFamilies

/-!
# Queues of socket buffers (`fm_skbuff.c`)

A `struct sk_buff` and a `struct sk_buff_head` begin with the same two links, so a
queue is a ring of buffers through its head. The operations are taken over store by
store, with the counter `qlen` of the head; what is below the links of a buffer is
the `Skb` of `TsmVm.FmSkbuff`. Any number of queues shares one memory.
-/

namespace TsmVm

open Rings

/-- The memory of the queues. -/
structure SkbHeap where
  /-- The links of buffers and heads. -/
  links : Links
  /-- The heads, by their `qlen`. -/
  qlens : ℕ → Option UInt32
  /-- The buffers. -/
  bufs : ℕ → Option Skb
  glbSkbIndex : ℕ

namespace SkbHeap

/-- `list->qlen++` and `list->qlen--`. -/
def addQlen (h : SkbHeap) (list : ℕ) (n : UInt32) : Res SkbHeap :=
  match h.qlens list with
  | some qlen => .ok { h with qlens := Function.update h.qlens list (some (qlen + n)) }
  | none => .error .wildAccess

/-- `skb_peek`. -/
def skbPeek (h : SkbHeap) (list : ℕ) : Res (Option ℕ) := do
  let skb ← nextOf h.links list
  return if skb = list then none else some skb

/-- `skb_peek_tail`. -/
def skbPeekTail (h : SkbHeap) (list : ℕ) : Res (Option ℕ) := do
  let skb ← prevOf h.links list
  return if skb = list then none else some skb

/-- The stores of `__skb_unlink` to the links. -/
def unlinkStores (m : Links) (skb : ℕ) : Res Links := do
  let next ← nextOf m skb
  let prev ← prevOf m skb
  let m ← storePrev m skb 0
  let m ← storeNext m skb 0
  let m ← storePrev m next prev
  storeNext m prev next

/-- `__skb_unlink`. -/
def skbUnlink (h : SkbHeap) (skb list : ℕ) : Res SkbHeap := do
  let h ← h.addQlen list (-1)
  return { h with links := ← unlinkStores h.links skb }

/-- `__skb_dequeue`. -/
def skbDequeue (h : SkbHeap) (list : ℕ) : Res (SkbHeap × Option ℕ) := do
  match ← h.skbPeek list with
  | some skb => return (← h.skbUnlink skb list, some skb)
  | none => return (h, none)

/-- `__skb_dequeue_tail`. -/
def skbDequeueTail (h : SkbHeap) (list : ℕ) : Res (SkbHeap × Option ℕ) := do
  match ← h.skbPeekTail list with
  | some skb => return (← h.skbUnlink skb list, some skb)
  | none => return (h, none)

/-- The stores of `__skb_insert` to the links. -/
def insertStores (m : Links) (newsk prev next : ℕ) : Res Links := do
  let m ← storeNext m newsk next
  let m ← storePrev m newsk prev
  let m ← storeNext m prev newsk
  storePrev m next newsk

/-- `__skb_insert`. -/
def skbInsert (h : SkbHeap) (newsk prev next list : ℕ) : Res SkbHeap := do
  let links ← insertStores h.links newsk prev next
  { h with links := links }.addQlen list 1

/-- `__skb_queue_after`. -/
def skbQueueAfter (h : SkbHeap) (list prev newsk : ℕ) : Res SkbHeap := do
  h.skbInsert newsk prev (← nextOf h.links prev) list

/-- `__skb_queue_before`. -/
def skbQueueBefore (h : SkbHeap) (list next newsk : ℕ) : Res SkbHeap := do
  h.skbInsert newsk (← prevOf h.links next) next list

/-- `skb_queue_head`. -/
def skbQueueHead (h : SkbHeap) (list newsk : ℕ) : Res SkbHeap := h.skbQueueAfter list list newsk

/-- `skb_queue_tail`. -/
def skbQueueTail (h : SkbHeap) (list newsk : ℕ) : Res SkbHeap := h.skbQueueBefore list list newsk

/-- `skb_del`. -/
def skbDel (h : SkbHeap) (skb : ℕ) : Res SkbHeap := do
  let m ← storeNext h.links (← prevOf h.links skb) (← nextOf h.links skb)
  let m ← storePrev m (← nextOf m skb) (← prevOf m skb)
  return { h with links := m }

/-- `skb_queue_head_init`. -/
def skbQueueHeadInit (h : SkbHeap) (list : ℕ) : Res SkbHeap := do
  let m ← storeNext h.links list list
  let m ← storePrev m list list
  match h.qlens list with
  | some _ => return { h with links := m, qlens := Function.update h.qlens list (some 0) }
  | none => .error .wildAccess

/-- `alloc_skb`: where `fm_malloc` puts the buffer, if it has room for it, and whether it
has room for the block. Of the links `memset` clears the first. -/
def allocSkb (h : SkbHeap) (tmp : Option ℕ) (block : Bool) (junk : Skb) (prev size : ℕ) :
    SkbHeap × Option ℕ :=
  match tmp, block with
  | some tmp, true =>
    ({ h with
      links := Function.update h.links tmp (some ⟨prev, 0⟩)
      bufs := Function.update h.bufs tmp
        (some { TsmVm.allocSkb junk size with index := h.glbSkbIndex })
      glbSkbIndex := h.glbSkbIndex + 1 }, some tmp)
  | _, _ => (h, none)

/-- `kfree_skb`. -/
def kfreeSkb (h : SkbHeap) : Option ℕ → Res SkbHeap
  | none => .ok h
  | some skb =>
    match h.bufs skb with
    | none => .error .wildAccess
    | some s => do
      TsmVm.kfreeSkb s
      return { h with
        links := Function.update h.links skb none
        bufs := Function.update h.bufs skb none }

/-- `skb_queue_purge`. -/
def skbQueuePurge : ℕ → SkbHeap → ℕ → Res SkbHeap
  | 0, _, _ => .error .hang
  | fuel + 1, h, list => do
    match ← h.skbDequeue list with
    | (h, none) => return h
    | (h, some skb) => skbQueuePurge fuel (← h.kfreeSkb (some skb)) list

/-- `skb_queue_len`. -/
def skbQueueLen (h : SkbHeap) (list : ℕ) : Res UInt32 :=
  match h.qlens list with
  | some qlen => .ok qlen
  | none => .error .wildAccess

/-- `skb_queue_empty`. -/
def skbQueueEmpty (h : SkbHeap) (list : ℕ) : Res Bool := do
  return (← nextOf h.links list) = list

end SkbHeap

/-! ## What they do to a ring -/

variable {m : Links} {e h new : ℕ} {xs ys : List ℕ}

/-- `__skb_unlink` takes a buffer out of its ring. -/
theorem unlinkStores_ring (hr : Ring m h (xs ++ e :: ys)) :
    ∃ m', SkbHeap.unlinkStores m e = .ok m' ∧ Ring m' h (xs ++ ys) ∧
      Touches (h :: (xs ++ e :: ys)) m m' := by
  obtain ⟨hprev, hnext⟩ := hr.linked_entry
  have hlast : xs.getLastD h ∈ h :: xs := List.getLastD_mem_cons
  have hhead := headD_mem_snoc ys h
  have he := hnext.live.1
  let m₁ := Rings.setNext (Rings.setPrev m e 0) e 0
  have ht : Touches [e] m m₁ := (touches_setPrev m e 0).trans (touches_setNext _ e 0)
  refine ⟨link m₁ (xs.getLastD h) (ys.headD h), ?_, ?_, ?_⟩
  · rw [SkbHeap.unlinkStores, nextOf_eq hnext, ok_bind, prevOf_eq hprev, ok_bind, storePrev_eq he,
      ok_bind, storeNext_eq (live_setPrev.mpr he), ok_bind]
    exact rawListDel_eq ((ht.live _).mpr hprev.live.1) ((ht.live _).mpr hnext.live.2)
  · -- the cleared links are those of the buffer alone
    refine (hr.cut xs e [] ys).1.congr fun x hx => link_congr (ht.off x ?_)
    have hnd := hr.nodup
    grind
  · exact (ht.mono (by grind)).trans ((touches_link m₁ _ _).mono (by grind))

/-- `__skb_insert` puts a buffer between two neighbours. -/
theorem insertStores_ring (hr : Ring m h (xs ++ ys)) (hnew : Live m new)
    (hoff : new ∉ h :: (xs ++ ys)) :
    ∃ m', SkbHeap.insertStores m new (xs.getLastD h) (ys.headD h) = .ok m' ∧
      Ring m' h (xs ++ new :: ys) ∧ Touches (new :: h :: (xs ++ ys)) m m' := by
  have hgap := hr.linked xs ys
  have hlast : xs.getLastD h ∈ h :: xs := List.getLastD_mem_cons
  have hhead := headD_mem_snoc ys h
  have hne_prev : xs.getLastD h ≠ new := by grind
  have hne_next : ys.headD h ≠ new := by grind
  refine ⟨link (link m new (ys.headD h)) (xs.getLastD h) new, ?_, ?_, ?_⟩
  · rw [SkbHeap.insertStores, storeNext_eq hnew, ok_bind, storePrev_eq (live_setNext.mpr hnew),
      ok_bind, storeNext_eq (by simpa using hgap.live.1), ok_bind,
      storePrev_eq (by simpa using hgap.live.2)]
    -- the stores of the two links, in another order
    rw [setNext_setPrev, setPrev_comm (Ne.symm hne_next), ← setNext_setPrev]
    rfl
  · have hspliced := hr.splice xs ys (List.IsChain.singleton new) (by simpa using hnew)
      (by grind [hr.nodup])
    rw [link_comm (Ne.symm hne_prev) hne_next]
    simpa using hspliced
  · exact ((touches_link m new _).mono (by grind)).trans ((touches_link _ _ new).mono (by grind))

/-- `skb_del` takes a buffer out of its ring, too. -/
theorem skbDel_ring {heap : SkbHeap} (hr : Ring heap.links h (xs ++ e :: ys)) :
    ∃ m', heap.skbDel e = .ok { heap with links := m' } ∧ Ring m' h (xs ++ ys) ∧
      Touches (h :: (xs ++ e :: ys)) heap.links m' := by
  obtain ⟨hprev, hnext⟩ := hr.linked_entry
  have hlast : xs.getLastD h ∈ h :: xs := List.getLastD_mem_cons
  have hhead := headD_mem_snoc ys h
  have hnd := hr.nodup
  have hne : e ≠ xs.getLastD h := by grind
  refine ⟨link heap.links (xs.getLastD h) (ys.headD h), ?_, (hr.cut xs e [] ys).1, ?_⟩
  · have hnext' : nextOf (Rings.setNext heap.links (xs.getLastD h) (ys.headD h)) e =
        .ok (ys.headD h) := by
      rw [nextOf_eq_ok_iff, map_next_setNext, hnext.1, Option.map_some, if_neg hne]
    have hprev' : prevOf (Rings.setNext heap.links (xs.getLastD h) (ys.headD h)) e =
        .ok (xs.getLastD h) := by
      rw [prevOf_eq_ok_iff, map_prev_setNext, hprev.2]
    rw [SkbHeap.skbDel, prevOf_eq hprev, ok_bind, nextOf_eq hnext, ok_bind,
      storeNext_eq hprev.live.1, ok_bind, hnext', ok_bind, hprev', ok_bind,
      storePrev_eq (live_setNext.mpr hnext.live.2)]
    rfl
  · exact (touches_link _ _ _).mono (by grind)

/-! ## What they are for -/

/-- Queues of buffers, the buffers there are, and how many of each queue `skb_del` has
taken out behind the back of its counter. -/
structure SkbQueues where
  lists : ListFamily
  bufs : ℕ → Option Skb
  lost : ℕ → ℕ
  glbSkbIndex : ℕ

/-- A call of an operation. -/
inductive SkbCall
  | headInit (list : ℕ)
  | queueHead (list newsk : ℕ)
  | queueTail (list newsk : ℕ)
  | dequeue (list : ℕ)
  | dequeueTail (list : ℕ)
  | unlink (skb list : ℕ)
  | del (skb : ℕ)
  | peek (list : ℕ)
  | purge (list : ℕ)
  | alloc (tmp : Option ℕ) (block : Bool) (junk : Skb) (prev size : ℕ)
  | kfree (skb : Option ℕ)

/-- What a call does to the memory, and what it returns: a buffer or `NULL`. -/
def SkbCall.run (fuel : ℕ) : SkbCall → SkbHeap → Res (SkbHeap × Option ℕ)
  | .headInit list, h => return (← h.skbQueueHeadInit list, none)
  | .queueHead list newsk, h => return (← h.skbQueueHead list newsk, none)
  | .queueTail list newsk, h => return (← h.skbQueueTail list newsk, none)
  | .dequeue list, h => h.skbDequeue list
  | .dequeueTail list, h => h.skbDequeueTail list
  | .unlink skb list, h => return (← h.skbUnlink skb list, none)
  | .del skb, h => return (← h.skbDel skb, none)
  | .peek list, h => return (h, ← h.skbPeek list)
  | .purge list, h => return (← SkbHeap.skbQueuePurge fuel h list, none)
  | .alloc tmp block junk prev size, h => return h.allocSkb tmp block junk prev size
  | .kfree skb, h => return (← h.kfreeSkb skb, none)

/-- The calls a caller may make, with what they return. `H` are the queue heads. A
buffer is queued when it is in no queue, taken out of the queue that is named, and
freed when it is in none and its agent is set. -/
inductive SkbStep (H : Set ℕ) : SkbQueues → SkbCall × Option ℕ → SkbQueues → Prop
  | headInit {q : SkbQueues} {rest : ListFamily} {list : ℕ} :
      list ∈ H → Spare list q.lists rest →
      SkbStep H q (.headInit list, none)
        { q with lists := (list, []) :: rest, lost := Function.update q.lost list 0 }
  | queueHead {q : SkbQueues} {rest : ListFamily} {list new : ℕ} {xs : List ℕ} :
      (q.bufs new).isSome → new ∉ familyCells q.lists → q.lists.Perm ((list, xs) :: rest) →
      SkbStep H q (.queueHead list new, none) { q with lists := (list, new :: xs) :: rest }
  | queueTail {q : SkbQueues} {rest : ListFamily} {list new : ℕ} {xs : List ℕ} :
      (q.bufs new).isSome → new ∉ familyCells q.lists → q.lists.Perm ((list, xs) :: rest) →
      SkbStep H q (.queueTail list new, none) { q with lists := (list, xs ++ [new]) :: rest }
  | dequeue {q : SkbQueues} {rest : ListFamily} {list : ℕ} {xs : List ℕ} :
      q.lists.Perm ((list, xs) :: rest) →
      SkbStep H q (.dequeue list, xs.head?) { q with lists := (list, xs.tail) :: rest }
  | dequeueTail {q : SkbQueues} {rest : ListFamily} {list : ℕ} {xs : List ℕ} :
      q.lists.Perm ((list, xs) :: rest) →
      SkbStep H q (.dequeueTail list, xs.getLast?) { q with lists := (list, xs.dropLast) :: rest }
  | unlink {q : SkbQueues} {rest : ListFamily} {list e : ℕ} {xs ys : List ℕ} :
      q.lists.Perm ((list, xs ++ e :: ys) :: rest) →
      SkbStep H q (.unlink e list, none) { q with lists := (list, xs ++ ys) :: rest }
  | del {q : SkbQueues} {rest : ListFamily} {list e : ℕ} {xs ys : List ℕ} :
      q.lists.Perm ((list, xs ++ e :: ys) :: rest) →
      SkbStep H q (.del e, none)
        { q with lists := (list, xs ++ ys) :: rest
                 lost := Function.update q.lost list (q.lost list + 1) }
  | peek {q : SkbQueues} {rest : ListFamily} {list : ℕ} {xs : List ℕ} :
      q.lists.Perm ((list, xs) :: rest) → SkbStep H q (.peek list, xs.head?) q
  | purge {q : SkbQueues} {rest : ListFamily} {list : ℕ} {xs : List ℕ} :
      q.lists.Perm ((list, xs) :: rest) →
      (∀ x ∈ xs, ∀ s, q.bufs x = some s → s.agent ≠ .wild) →
      SkbStep H q (.purge list, none)
        { q with lists := (list, []) :: rest
                 bufs := fun a => if a ∈ xs then none else q.bufs a }
  | alloc {q : SkbQueues} {a : ℕ} {junk : Skb} {prev size : ℕ} :
      a ∉ H → q.bufs a = none →
      SkbStep H q (.alloc (some a) true junk prev size, some a)
        { q with bufs := Function.update q.bufs a
                   (some { allocSkb junk size with index := q.glbSkbIndex })
                 glbSkbIndex := q.glbSkbIndex + 1 }
  | allocFailed {q : SkbQueues} {tmp : Option ℕ} {block : Bool} {junk : Skb} {prev size : ℕ} :
      tmp = none ∨ block = false → SkbStep H q (.alloc tmp block junk prev size, none) q
  | kfree {q : SkbQueues} {a : ℕ} {s : Skb} :
      q.bufs a = some s → s.agent ≠ .wild → a ∉ familyCells q.lists →
      SkbStep H q (.kfree (some a), none) { q with bufs := Function.update q.bufs a none }
  | kfreeNull {q : SkbQueues} : SkbStep H q (.kfree none, none) q

/-- The queues under calls of the operations. -/
def skbQueues (H : Set ℕ) : Lts.System SkbQueues (SkbCall × Option ℕ) where
  init q := q.lists = [] ∧ ∀ a, q.bufs a = none
  step := SkbStep H

/-- The memory holds the queues, and their heads count the buffers in them and those
that were lost, as `unsigned int`s count. -/
structure SkbHolds (H : Set ℕ) (heap : SkbHeap) (q : SkbQueues) : Prop where
  links : Holds {a | a ∈ H ∨ (q.bufs a).isSome} heap.links q.lists
  bufs : heap.bufs = q.bufs
  index : heap.glbSkbIndex = q.glbSkbIndex
  apart : ∀ a ∈ H, q.bufs a = none
  queues : ∀ p ∈ q.lists, p.1 ∈ H ∧ ∀ x ∈ p.2, (q.bufs x).isSome
  qlens : ∀ a ∈ H, (heap.qlens a).isSome
  counted : ∀ p ∈ q.lists, heap.qlens p.1 = some (UInt32.ofNat (p.2.length + q.lost p.1))

variable {H : Set ℕ} {heap : SkbHeap} {q : SkbQueues} {rest : ListFamily} {list : ℕ}

/-- `skb_peek` returns the first buffer. -/
theorem skbPeek_ring (hr : Ring heap.links list xs) : heap.skbPeek list = .ok xs.head? := by
  rw [SkbHeap.skbPeek, nextOf_eq hr.linked_first, ok_bind, pure_eq_ok]
  cases xs with
  | nil => simp
  | cons x xs =>
    have hne : x ≠ list := by grind [hr.nodup]
    simp [hne]

/-- `skb_peek_tail` returns the last one. -/
theorem skbPeekTail_ring (hr : Ring heap.links list xs) :
    heap.skbPeekTail list = .ok xs.getLast? := by
  rw [SkbHeap.skbPeekTail, prevOf_eq hr.linked_last, ok_bind, pure_eq_ok]
  cases xs with
  | nil => simp
  | cons x xs =>
    have hmem : xs.getLastD x ∈ x :: xs := List.getLastD_mem_cons
    have hne : xs.getLastD x ≠ list := by grind [hr.nodup]
    rw [List.getLastD_cons, if_neg hne, List.getLast?_eq_some_getLast (List.cons_ne_nil x xs),
      List.getLast_eq_getLastD]

namespace SkbHolds

/-- The order of the queues does not matter. -/
theorem perm (hq : SkbHolds H heap q) {lists : ListFamily} (hp : q.lists.Perm lists) :
    SkbHolds H heap { q with lists := lists } :=
  { hq with
    links := hq.links.perm hp
    queues := fun p hmem => hq.queues p (hp.mem_iff.mpr hmem)
    counted := fun p hmem => hq.counted p (hp.mem_iff.mpr hmem) }

/-- One queue gets other buffers, and its head another count. -/
theorem relist (hq : SkbHolds H heap q) {m' : Links} {l : List ℕ} {n : UInt32} {lost : ℕ → ℕ}
    (hsub : rest ⊆ q.lists) (hrest : Holds {a | a ∈ H ∨ (q.bufs a).isSome} heap.links rest)
    (hlist : list ∈ H) (hnot : list ∉ familyCells rest) (hring : Ring m' list xs)
    (ht : Touches l heap.links m') (hl : ∀ x ∈ l, x ∉ familyCells rest)
    (hxs : ∀ x ∈ xs, x ∉ familyCells rest ∧ (q.bufs x).isSome)
    (hcount : n = UInt32.ofNat (xs.length + lost list))
    (hlost : ∀ a, a ≠ list → lost a = q.lost a) :
    SkbHolds H { heap with links := m', qlens := Function.update heap.qlens list (some n) }
      { q with lists := (list, xs) :: rest, lost := lost } := by
  refine { hq with
    links := .cons hring (hrest.touch ht hl) ?_
    queues := List.forall_mem_cons.mpr
      ⟨⟨hlist, fun x hx => (hxs x hx).2⟩, fun p hp => hq.queues p (hsub hp)⟩
    qlens := fun a ha => ?_
    counted := List.forall_mem_cons.mpr ⟨?_, fun p hp => ?_⟩ }
  · exact List.forall_mem_cons.mpr ⟨hnot, fun x hx => (hxs x hx).1⟩
  · by_cases heq : a = list
    · subst a
      simp
    · simp [heq, hq.qlens a ha]
  · simp [hcount]
  · have hne : p.1 ≠ list := by
      rintro rfl
      exact hnot (List.mem_flatMap.mpr ⟨p, hp, List.mem_cons_self⟩)
    dsimp only
    rw [Function.update_of_ne hne, hq.counted p (hsub hp), hlost p.1 hne]

/-- One queue and the others. -/
theorem one (hq : SkbHolds H heap q) (hp : q.lists.Perm ((list, xs) :: rest)) :
    Ring heap.links list xs ∧ Holds {a | a ∈ H ∨ (q.bufs a).isSome} heap.links rest ∧
      (∀ x ∈ list :: xs, x ∉ familyCells rest) ∧ list ∈ H ∧ (∀ x ∈ xs, (q.bufs x).isSome) ∧
      rest ⊆ q.lists ∧ heap.qlens list = some (UInt32.ofNat (xs.length + q.lost list)) := by
  obtain ⟨hr, hrest, hoff⟩ := holds_cons_iff.mp (hq.links.perm hp)
  have hmem : (list, xs) ∈ q.lists := hp.mem_iff.mpr List.mem_cons_self
  obtain ⟨hlist, hxs⟩ := hq.queues _ hmem
  exact ⟨hr, hrest, hoff, hlist, hxs, fun p hp' => hp.mem_iff.mpr (List.mem_cons_of_mem _ hp'),
    hq.counted _ hmem⟩

theorem addQlen_eq {n : UInt32} (h : heap.qlens list = some n) (k : UInt32) :
    heap.addQlen list k =
      .ok { heap with qlens := Function.update heap.qlens list (some (n + k)) } := by
  rw [SkbHeap.addQlen, h]

theorem ofNat_succ_sub (n : ℕ) : UInt32.ofNat (n + 1) + -1 = UInt32.ofNat n := by
  rw [UInt32.ofNat_add]
  grind

/-- `__skb_unlink` of a buffer of the queue. -/
theorem unlink (hq : SkbHolds H heap q) (hp : q.lists.Perm ((list, xs ++ e :: ys) :: rest)) :
    ∃ heap', heap.skbUnlink e list = .ok heap' ∧
      SkbHolds H heap' { q with lists := (list, xs ++ ys) :: rest } := by
  obtain ⟨hr, hrest, hoff, hlist, hxs, hsub, hcount⟩ := hq.one hp
  obtain ⟨m', hstores, hring, ht⟩ := unlinkStores_ring hr
  have hlength : (xs ++ e :: ys).length + q.lost list = (xs ++ ys).length + q.lost list + 1 := by
    simp only [List.length_append, List.length_cons]
    omega
  refine ⟨_, ?_, hq.relist hsub hrest hlist (hoff _ List.mem_cons_self) hring ht hoff
    (fun x hx => ⟨hoff x (by grind), hxs x (by grind)⟩) (ofNat_succ_sub _) fun _ _ => rfl⟩
  rw [SkbHeap.skbUnlink, addQlen_eq hcount, ok_bind, hlength]
  change (do return { heap with links := ← SkbHeap.unlinkStores heap.links e, qlens := _ }) = _
  rw [hstores]
  rfl

/-- `__skb_insert` of a buffer that is in no queue. -/
theorem insert (hq : SkbHolds H heap q) (hp : q.lists.Perm ((list, xs ++ ys) :: rest))
    (hnew : (q.bufs new).isSome) (hfree : new ∉ familyCells q.lists) :
    ∃ heap', heap.skbInsert new (xs.getLastD list) (ys.headD list) list = .ok heap' ∧
      SkbHolds H heap' { q with lists := (list, xs ++ new :: ys) :: rest } := by
  obtain ⟨hr, hrest, hoff, hlist, hxs, hsub, hcount⟩ := hq.one hp
  have hfree' : new ∉ familyCells ((list, xs ++ ys) :: rest) := fun hmem =>
    hfree ((hp.flatMap_right _).mem_iff.mpr hmem)
  rw [familyCells_cons, List.mem_append, not_or] at hfree'
  have hlive : Live heap.links new := (hq.links.live new).mpr (.inr hnew)
  obtain ⟨m', hstores, hring, ht⟩ := insertStores_ring hr hlive hfree'.1
  have hlength : (xs ++ new :: ys).length + q.lost list =
      (xs ++ ys).length + q.lost list + 1 := by
    simp only [List.length_append, List.length_cons]
    omega
  refine ⟨_, ?_, hq.relist hsub hrest hlist (hoff _ List.mem_cons_self) hring ht (by grind)
    (fun x hx => ?_) (n := UInt32.ofNat ((xs ++ ys).length + q.lost list) + 1) ?_
    fun _ _ => rfl⟩
  · have hcount' : ({ heap with links := m' } : SkbHeap).qlens list =
        some (UInt32.ofNat ((xs ++ ys).length + q.lost list)) := hcount
    rw [SkbHeap.skbInsert, hstores, ok_bind]
    exact addQlen_eq hcount' 1
  · obtain rfl | hx : x = new ∨ x ∈ xs ++ ys := by grind
    · exact ⟨hfree'.2, hnew⟩
    · exact ⟨hoff x (List.mem_cons_of_mem _ hx), hxs x hx⟩
  · rw [hlength]
    exact (UInt32.ofNat_add _ 1).symm

/-- A buffer in no queue is freed. -/
theorem free (hq : SkbHolds H heap q) {a : ℕ} {s : Skb} (ha : q.bufs a = some s)
    (hagent : s.agent ≠ .wild) (hfree : a ∉ familyCells q.lists) :
    ∃ heap', heap.kfreeSkb (some a) = .ok heap' ∧
      SkbHolds H heap' { q with bufs := Function.update q.bufs a none } := by
  have hkfree : kfreeSkb s = .ok () := by
    unfold kfreeSkb
    split
    · exact absurd ‹_› hagent
    · rfl
  have hnotH : a ∉ H := by
    intro hmem
    have hnone := hq.apart a hmem
    rw [ha] at hnone
    cases hnone
  refine ⟨{ heap with links := Function.update heap.links a none
                      bufs := Function.update heap.bufs a none }, ?_, { hq with
    links := ⟨fun b => ?_, fun p hp => (hq.links.rings p hp).congr fun x hx => ?_, hq.links.nodup⟩
    bufs := by dsimp only; rw [hq.bufs]
    apart := fun b hb => ?_
    queues := fun p hp => ⟨(hq.queues p hp).1, fun x hx => ?_⟩ }⟩
  · rw [SkbHeap.kfreeSkb, hq.bufs, ha]
    dsimp only
    rw [hkfree]
    rfl
  · by_cases hb : b = a
    · subst b
      simp [Live, hnotH]
    · have hlive := hq.links.live b
      simp only [Live, Set.mem_ofPred_eq] at hlive ⊢
      rw [Function.update_of_ne hb, Function.update_of_ne hb, hlive]
  · refine Function.update_of_ne (fun heq => hfree ?_) _ _
    exact heq ▸ List.mem_flatMap.mpr ⟨p, hp, hx⟩
  · have hne : b ≠ a := by
      rintro rfl
      exact hnotH hb
    dsimp only
    rw [Function.update_of_ne hne, hq.apart b hb]
  · have hne : x ≠ a := fun heq =>
      hfree (heq ▸ List.mem_flatMap.mpr ⟨p, hp, List.mem_cons_of_mem _ hx⟩)
    dsimp only
    rw [Function.update_of_ne hne]
    exact (hq.queues p hp).2 x hx

/-- A buffer is made where nothing was. -/
theorem alloc (hq : SkbHolds H heap q) {a : ℕ} (s : Skb) (c : Rings.Cell ℕ) (ha : a ∉ H)
    (hnone : q.bufs a = none) :
    SkbHolds H { heap with links := Function.update heap.links a (some c)
                           bufs := Function.update heap.bufs a (some s)
                           glbSkbIndex := heap.glbSkbIndex + 1 }
      { q with bufs := Function.update q.bufs a (some s), glbSkbIndex := q.glbSkbIndex + 1 } := by
  have hdead : ¬ Live heap.links a := by
    rw [hq.links.live]
    simp [ha, hnone]
  have hoff {x : ℕ} (hx : Live heap.links x) : x ≠ a := by
    rintro rfl
    exact hdead hx
  refine { hq with
    links := ⟨fun b => ?_, fun p hp => (hq.links.rings p hp).congr fun x hx => ?_, hq.links.nodup⟩
    bufs := by dsimp only; rw [hq.bufs]
    index := by dsimp only; rw [hq.index]
    apart := fun b hb => ?_
    queues := fun p hp => ⟨(hq.queues p hp).1, fun x hx => ?_⟩ }
  · by_cases hb : b = a
    · subst b
      simp [Live]
    · have hlive := hq.links.live b
      simp only [Live, Set.mem_ofPred_eq] at hlive ⊢
      rw [Function.update_of_ne hb, Function.update_of_ne hb, hlive]
  · exact Function.update_of_ne (hoff ((hq.links.rings p hp).live hx)) _ _
  · have hne : b ≠ a := by
      rintro rfl
      exact ha hb
    dsimp only
    rw [Function.update_of_ne hne, hq.apart b hb]
  · have hsome := (hq.queues p hp).2 x hx
    have hne : x ≠ a := by
      rintro rfl
      rw [hnone] at hsome
      cases hsome
    dsimp only
    rwa [Function.update_of_ne hne]

/-- `skb_dequeue` returns the first buffer and takes it out. -/
theorem dequeue (hq : SkbHolds H heap q) (hp : q.lists.Perm ((list, xs) :: rest)) :
    ∃ heap', heap.skbDequeue list = .ok (heap', xs.head?) ∧
      SkbHolds H heap' { q with lists := (list, xs.tail) :: rest } := by
  rw [SkbHeap.skbDequeue, skbPeek_ring (hq.one hp).1, ok_bind]
  cases xs with
  | nil => exact ⟨heap, rfl, hq.perm hp⟩
  | cons x xs =>
    obtain ⟨heap', hunlink, hq'⟩ :=
      hq.unlink (show q.lists.Perm ((list, [] ++ x :: xs) :: rest) from hp)
    refine ⟨heap', ?_, hq'⟩
    simp only [List.head?_cons]
    rw [hunlink]
    rfl

/-- `skb_dequeue_tail` returns the last one and takes it out. -/
theorem dequeueTail (hq : SkbHolds H heap q) (hp : q.lists.Perm ((list, xs) :: rest)) :
    ∃ heap', heap.skbDequeueTail list = .ok (heap', xs.getLast?) ∧
      SkbHolds H heap' { q with lists := (list, xs.dropLast) :: rest } := by
  rw [SkbHeap.skbDequeueTail, skbPeekTail_ring (hq.one hp).1, ok_bind]
  induction xs using List.reverseRecOn with
  | nil => exact ⟨heap, rfl, hq.perm hp⟩
  | append_singleton xs x =>
    obtain ⟨heap', hunlink, hq'⟩ := hq.unlink hp
    refine ⟨heap', ?_, by simpa using hq'⟩
    rw [List.getLast?_concat]
    dsimp only
    rw [hunlink]
    rfl

/-- `skb_queue_purge` frees every buffer of the queue. -/
theorem purge (hq : SkbHolds H heap q) (hp : q.lists.Perm ((list, xs) :: rest))
    (hagent : ∀ x ∈ xs, ∀ s, q.bufs x = some s → s.agent ≠ .wild) :
    ∃ heap', (∀ fuel, xs.length < fuel → SkbHeap.skbQueuePurge fuel heap list = .ok heap') ∧
      SkbHolds H heap' { q with lists := (list, []) :: rest
                                bufs := fun a => if a ∈ xs then none else q.bufs a } := by
  induction xs generalizing heap q with
  | nil =>
    obtain ⟨heap', hdequeue, hq'⟩ := hq.dequeue hp
    refine ⟨heap', fun fuel hfuel => ?_, by simpa using hq'⟩
    obtain ⟨fuel, rfl⟩ := Nat.exists_eq_add_of_lt hfuel
    rw [SkbHeap.skbQueuePurge, hdequeue]
    rfl
  | cons x xs ih =>
    obtain ⟨hr, -, hoff, -, hxs, -⟩ := hq.one hp
    obtain ⟨heap₁, hdequeue, hq₁⟩ := hq.dequeue hp
    obtain ⟨s, hs⟩ := Option.isSome_iff_exists.mp (hxs x List.mem_cons_self)
    have hx : x ∉ familyCells ((list, xs) :: rest) := by
      rw [familyCells_cons, List.mem_append, not_or]
      exact ⟨by grind [hr.nodup], hoff x (by simp)⟩
    obtain ⟨heap₂, hfree, hq₂⟩ := hq₁.free hs (hagent x List.mem_cons_self s hs) hx
    obtain ⟨heap₃, hpurge, hq₃⟩ := ih hq₂ (.refl _) fun y hy s' hs' => by
      by_cases hyx : y = x
      · subst y
        dsimp only at hs'
        rw [Function.update_self] at hs'
        cases hs'
      · dsimp only at hs'
        rw [Function.update_of_ne hyx] at hs'
        exact hagent y (List.mem_cons_of_mem _ hy) s' hs'
    refine ⟨heap₃, fun fuel hfuel => ?_, ?_⟩
    · obtain ⟨fuel, rfl⟩ := Nat.exists_eq_add_of_lt hfuel
      rw [SkbHeap.skbQueuePurge, hdequeue, ok_bind]
      dsimp only [List.head?_cons]
      rw [hfree, ok_bind]
      exact hpurge _ (by rw [List.length_cons]; omega)
    · have hbufs : (fun a => if a ∈ xs then none else Function.update q.bufs x none a) =
          fun a => if a ∈ x :: xs then none else q.bufs a := by
        funext a
        by_cases hax : a = x
        · simp [hax]
        · simp [hax]
      rw [← hbufs]
      exact hq₃

/-- `skb_queue_head_init` makes a queue without buffers. -/
theorem headInit (hq : SkbHolds H heap q) (hlist : list ∈ H) (hs : Spare list q.lists rest) :
    ∃ heap', heap.skbQueueHeadInit list = .ok heap' ∧
      SkbHolds H heap' { q with lists := (list, []) :: rest
                                lost := Function.update q.lost list 0 } := by
  obtain ⟨hrest, hoff⟩ := hq.links.spare hs
  obtain ⟨m', hinit, hring, ht⟩ := initListHead_ring ((hq.links.live list).mpr (.inl hlist))
  obtain ⟨n, hn⟩ := Option.isSome_iff_exists.mp (hq.qlens list hlist)
  have hsub : rest ⊆ q.lists := by
    cases hs with
    | loose _ => exact fun _ => id
    | head hp => exact fun p hp' => hp.mem_iff.mpr (List.mem_cons_of_mem _ hp')
  refine ⟨{ heap with links := m', qlens := Function.update heap.qlens list (some 0) }, ?_,
    hq.relist hsub hrest hlist hoff hring ht (by grind) (by simp) ?_ ?_⟩
  · obtain ⟨m₁, hnext, hprev⟩ := bind_eq_ok.mp hinit
    rw [SkbHeap.skbQueueHeadInit, hnext, ok_bind, hprev, ok_bind, hn]
    rfl
  · rw [Function.update_self]
    rfl
  · exact fun a ha => Function.update_of_ne ha _ _

/-- `skb_del` takes a buffer out and leaves the count. -/
theorem del (hq : SkbHolds H heap q) (hp : q.lists.Perm ((list, xs ++ e :: ys) :: rest)) :
    ∃ heap', heap.skbDel e = .ok heap' ∧
      SkbHolds H heap' { q with lists := (list, xs ++ ys) :: rest
                                lost := Function.update q.lost list (q.lost list + 1) } := by
  obtain ⟨hr, hrest, hoff, hlist, hxs, hsub, hcount⟩ := hq.one hp
  obtain ⟨m', hdel, hring, ht⟩ := skbDel_ring hr
  have hsame : UInt32.ofNat ((xs ++ e :: ys).length + q.lost list) =
      UInt32.ofNat ((xs ++ ys).length +
        Function.update q.lost list (q.lost list + 1) list) := by
    rw [Function.update_self]
    congr 1
    simp only [List.length_append, List.length_cons]
    omega
  have hq' := hq.relist hsub hrest hlist (hoff _ List.mem_cons_self) hring ht hoff
    (fun x hx => ⟨hoff x (by grind), hxs x (by grind)⟩) hsame
    fun a ha => Function.update_of_ne ha _ _
  refine ⟨_, hdel, ?_⟩
  rw [← hcount, Function.update_eq_self] at hq'
  exact hq'

/-- A call that may be made returns what it should and leaves the queues it should. -/
theorem step {c : SkbCall} {ans : Option ℕ} {q' : SkbQueues} (hq : SkbHolds H heap q)
    (hstep : SkbStep H q (c, ans) q') :
    ∃ rounds heap', (∀ fuel, rounds < fuel → c.run fuel heap = .ok (heap', ans)) ∧
      SkbHolds H heap' q' := by
  cases hstep with
  | headInit hlist hs =>
    obtain ⟨heap', hrun, hq'⟩ := hq.headInit hlist hs
    exact ⟨0, heap', fun fuel _ => by rw [SkbCall.run, hrun]; rfl, hq'⟩
  | @queueHead rest list new xs hnew hfree hp =>
    have hr := (hq.one hp).1
    obtain ⟨heap', hrun, hq'⟩ :=
      hq.insert (show q.lists.Perm ((list, [] ++ xs) :: rest) from hp) hnew hfree
    refine ⟨0, heap', fun fuel _ => ?_, hq'⟩
    rw [SkbCall.run, SkbHeap.skbQueueHead, SkbHeap.skbQueueAfter, nextOf_eq hr.linked_first,
      ok_bind]
    exact (congrArg (· >>= _) hrun).trans rfl
  | @queueTail rest list new xs hnew hfree hp =>
    have hr := (hq.one hp).1
    obtain ⟨heap', hrun, hq'⟩ :=
      hq.insert (show q.lists.Perm ((list, xs ++ []) :: rest) by simpa using hp) hnew hfree
    refine ⟨0, heap', fun fuel _ => ?_, hq'⟩
    rw [SkbCall.run, SkbHeap.skbQueueTail, SkbHeap.skbQueueBefore, prevOf_eq hr.linked_last,
      ok_bind]
    exact (congrArg (· >>= _) hrun).trans rfl
  | dequeue hp =>
    obtain ⟨heap', hrun, hq'⟩ := hq.dequeue hp
    exact ⟨0, heap', fun fuel _ => hrun, hq'⟩
  | dequeueTail hp =>
    obtain ⟨heap', hrun, hq'⟩ := hq.dequeueTail hp
    exact ⟨0, heap', fun fuel _ => hrun, hq'⟩
  | unlink hp =>
    obtain ⟨heap', hrun, hq'⟩ := hq.unlink hp
    exact ⟨0, heap', fun fuel _ => by rw [SkbCall.run, hrun]; rfl, hq'⟩
  | del hp =>
    obtain ⟨heap', hrun, hq'⟩ := hq.del hp
    exact ⟨0, heap', fun fuel _ => by rw [SkbCall.run, hrun]; rfl, hq'⟩
  | peek hp =>
    exact ⟨0, heap, fun fuel _ => by rw [SkbCall.run, skbPeek_ring (hq.one hp).1]; rfl, hq⟩
  | @purge rest list xs hp hagent =>
    obtain ⟨heap', hrun, hq'⟩ := hq.purge hp hagent
    exact ⟨xs.length, heap', fun fuel hfuel => by rw [SkbCall.run, hrun fuel hfuel]; rfl, hq'⟩
  | @alloc a junk prev size ha hnone =>
    refine ⟨0, _, fun fuel _ => ?_,
      hq.alloc { allocSkb junk size with index := q.glbSkbIndex } ⟨prev, 0⟩ ha hnone⟩
    rw [← hq.index]
    rfl
  | @allocFailed tmp block junk prev size hfailed =>
    refine ⟨0, heap, fun fuel _ => ?_, hq⟩
    obtain rfl | rfl := hfailed
    · rfl
    · cases tmp <;> rfl
  | kfree ha hagent hfree =>
    obtain ⟨heap', hrun, hq'⟩ := hq.free ha hagent hfree
    exact ⟨0, heap', fun fuel _ => by rw [SkbCall.run, hrun]; rfl, hq'⟩
  | kfreeNull => exact ⟨0, heap, fun _ _ => rfl, hq⟩

end SkbHolds

/-- The calls one after the other, with what they return. -/
def runSkbCalls (fuel : ℕ) (calls : List SkbCall) (h : SkbHeap) :
    Res (SkbHeap × List (Option ℕ)) :=
  calls.foldlM (fun s c => do
    let (h, ans) ← c.run fuel s.1
    return (h, s.2 ++ [ans])) (h, [])

/-- Calls that may be made return what they should and leave the queues they should. -/
theorem SkbHolds.run {q' : SkbQueues} {labels : List (SkbCall × Option ℕ)}
    (hq : SkbHolds H heap q) (hrun : Lts.Run (skbQueues H) q labels q') :
    ∃ rounds heap', (∀ fuel, rounds < fuel →
        runSkbCalls fuel (labels.map Prod.fst) heap = .ok (heap', labels.map Prod.snd)) ∧
      SkbHolds H heap' q' := by
  induction hrun with
  | nil => exact ⟨0, heap, fun _ _ => rfl, hq⟩
  | @snoc q₁ q₂ labels label _ hstep ih =>
    obtain ⟨c, ans⟩ := label
    obtain ⟨rounds, heap₁, hcalls, hq₁⟩ := ih
    obtain ⟨rounds', heap₂, hcall, hq₂⟩ := hq₁.step hstep
    refine ⟨max rounds rounds', heap₂, fun fuel hfuel => ?_, hq₂⟩
    have hbefore := hcalls fuel (by omega)
    rw [runSkbCalls] at hbefore ⊢
    rw [List.map_append, List.foldlM_append, hbefore, ok_bind, List.map_append]
    simp only [List.map_singleton, List.foldlM_cons, List.foldlM_nil]
    rw [hcall fuel (by omega)]
    rfl

/-- **Queues of buffers.** Whatever calls are made in turn on any number of queues, for
buffers that are where the calls need them, no freed buffer is touched, every dequeue
returns the buffer its queue stands for, and in the end each buffer there is is in one
queue at most: walked and asked, a queue has its buffers in order, with the contents
they were given, and its counter is their number and that of those `skb_del` took. -/
theorem skb_queues_refine (H : Set ℕ) {heap : SkbHeap} (lost : ℕ → ℕ) {q : SkbQueues}
    {labels : List (SkbCall × Option ℕ)} (hlive : ∀ a, Live heap.links a ↔ a ∈ H)
    (hqlens : ∀ a ∈ H, (heap.qlens a).isSome) (hbufs : ∀ a, heap.bufs a = none)
    (hrun : Lts.Run (skbQueues H) ⟨[], fun _ => none, lost, heap.glbSkbIndex⟩ labels q) :
    ∃ rounds heap', (∀ fuel, rounds < fuel →
        runSkbCalls fuel (labels.map Prod.fst) heap = .ok (heap', labels.map Prod.snd)) ∧
      heap'.bufs = q.bufs ∧ (familyCells q.lists).Nodup ∧
      ∀ list xs fuel, (list, xs) ∈ q.lists → xs.length < fuel →
        forEach fuel heap'.links list = .ok xs ∧ (∀ x ∈ xs, (heap'.bufs x).isSome) ∧
        heap'.skbQueueLen list = .ok (UInt32.ofNat (xs.length + q.lost list)) ∧
        heap'.skbQueueEmpty list = .ok (decide (xs = [])) := by
  have hq : SkbHolds H heap ⟨[], fun _ => none, lost, heap.glbSkbIndex⟩ :=
    { links := ⟨fun a => by simp [hlive], by simp, List.nodup_nil⟩
      bufs := funext hbufs
      index := rfl
      apart := fun _ _ => rfl
      queues := by simp
      qlens := hqlens
      counted := by simp }
  obtain ⟨rounds, heap', hcalls, hq'⟩ := hq.run hrun
  refine ⟨rounds, heap', hcalls, hq'.bufs, hq'.links.nodup, fun list xs fuel hmem hfuel => ?_⟩
  have hr : Ring heap'.links list xs := hq'.links.rings _ hmem
  refine ⟨forEach_ring hr hfuel, ?_, ?_, listEmpty_ring hr⟩
  · rw [hq'.bufs]
    exact (hq'.queues _ hmem).2
  · rw [SkbHeap.skbQueueLen, hq'.counted _ hmem]

/-- Two heads and no buffer. -/
def twoHeads : SkbHeap :=
  { links := fun a => if a = 1 ∨ a = 2 then some ⟨0, 0⟩ else none
    qlens := fun a => if a = 1 ∨ a = 2 then some 0 else none
    bufs := fun _ => none
    glbSkbIndex := 0 }

/-- What `alloc_skb` finds in the memory it gets. -/
def clearedSkb : Skb := ⟨0, false, 0, 0, 0, .null, [], 0, 0, 0⟩

/-- A buffer that goes from one queue to the other. -/
theorem skb_queues_refine_two : ∃ rounds heap', (∀ fuel, rounds < fuel →
      runSkbCalls fuel [.headInit 1, .headInit 2, .alloc (some 3) true clearedSkb 0 8,
        .queueTail 1 3, .dequeue 1, .queueTail 2 3] twoHeads =
          .ok (heap', [none, none, some 3, none, some 3, none])) ∧
      forEach 2 heap'.links 2 = .ok [3] ∧ heap'.skbQueueLen 2 = .ok 1 := by
  have hlive (a : ℕ) : Live twoHeads.links a ↔ a ∈ ({a | a = 1 ∨ a = 2} : Set ℕ) := by
    change _ ↔ a = 1 ∨ a = 2
    unfold Live twoHeads
    dsimp only
    split <;> simp [*]
  have hqlens : ∀ a ∈ ({a | a = 1 ∨ a = 2} : Set ℕ), (twoHeads.qlens a).isSome := by
    intro a ha
    change (if a = 1 ∨ a = 2 then some (0 : UInt32) else none).isSome = true
    rw [if_pos (by exact ha)]
    rfl
  have hdequeue {q : SkbQueues} (hq : q.lists.Perm [(1, [3]), (2, [])]) :
      SkbStep {a | a = 1 ∨ a = 2} q (.dequeue 1, some 3)
        { q with lists := [(1, []), (2, [])] } := by
    have hstep := SkbStep.dequeue (H := {a | a = 1 ∨ a = 2}) hq
    exact hstep
  have hrun : ∃ q, Lts.Run (skbQueues {a | a = 1 ∨ a = 2})
      ⟨[], fun _ => none, fun _ => 0, twoHeads.glbSkbIndex⟩
      [(.headInit 1, none), (.headInit 2, none), (.alloc (some 3) true clearedSkb 0 8, some 3),
        (.queueTail 1 3, none), (.dequeue 1, some 3), (.queueTail 2 3, none)] q ∧
      q.lists = [(2, [3]), (1, [])] ∧ q.lost 2 = 0 := by
    refine ⟨_, .cons (.headInit (by simp) (.loose (by simp [familyCells])))
      (.cons (.headInit (by simp) (.loose (by simp [familyCells])))
        (.cons (.alloc (by simp) rfl)
          (.cons (.queueTail (by simp) (by simp [familyCells]) (List.Perm.swap _ _ _))
            (.cons (hdequeue (.refl _))
              (.single (.queueTail (by simp) (by simp [familyCells]) (List.Perm.swap _ _ _))))))),
      rfl, rfl⟩
  obtain ⟨q, hrun, hlists, hlost⟩ := hrun
  obtain ⟨rounds, heap', hcalls, -, -, hread⟩ :=
    skb_queues_refine {a | a = 1 ∨ a = 2} (fun _ => 0) hlive hqlens (fun _ => rfl) hrun
  obtain ⟨hwalk, -, hlen, -⟩ := hread 2 [3] 2 (by simp [hlists]) (by simp)
  rw [hlost] at hlen
  exact ⟨rounds, heap', hcalls, hwalk, hlen⟩

end TsmVm
