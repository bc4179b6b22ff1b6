import TsmVm.FmList

/-!
# Families of linked lists

What the operations of `fm_List.h` are for, on lists of addresses: any number of
lists lie in one memory, each known by its head, and an operation moves entries
within one of them or from one to another. The calls a caller may make are those
that name the cells they are documented for. Every sequence of them leaves in
memory the lists it stands for, whatever other lists there are.
-/

namespace TsmVm

open Rings

/-- Lists, each with its head. Their order does not matter. -/
abbrev ListFamily := List (ℕ × List ℕ)

/-- The cells of the lists. -/
def familyCells (L : ListFamily) : List ℕ := L.flatMap fun p => p.1 :: p.2

/-- The memory has the cells `A` and holds the lists `L`. -/
structure Holds (A : Set ℕ) (m : Links) (L : ListFamily) : Prop where
  /-- The cells there are. -/
  live : ∀ a, Live m a ↔ a ∈ A
  /-- Each list is linked. -/
  rings : ∀ p ∈ L, Ring m p.1 p.2
  /-- No cell is in two of them. -/
  nodup : (familyCells L).Nodup

/-- A call of an operation. -/
inductive ListCall
  | initHead (list : ℕ)
  | addTail (new head : ℕ)
  | del (entry : ℕ)
  | delInit (entry : ℕ)
  | moveTail (list head : ℕ)
  | replace (old new : ℕ)
  | replaceInit (old new : ℕ)
  | rotateLeft (head : ℕ)
  | cutPosition (list head entry : ℕ)
  | splice (list head : ℕ)
  | spliceTail (list head : ℕ)
  | spliceInit (list head : ℕ)
  | spliceTailInit (list head : ℕ)

/-- What the call does to the memory. -/
def ListCall.run : ListCall → Links → Res Links
  | .initHead list, m => initListHead m list
  | .addTail new head, m => listAddTail m new head
  | .del entry, m => listDel m entry
  | .delInit entry, m => listDelInit m entry
  | .moveTail list head, m => listMoveTail m list head
  | .replace old new, m => listReplace m old new
  | .replaceInit old new, m => listReplaceInit m old new
  | .rotateLeft head, m => listRotateLeft m head
  | .cutPosition list head entry, m => listCutPosition m list head entry
  | .splice list head, m => listSplice m list head
  | .spliceTail list head, m => listSpliceTail m list head
  | .spliceInit list head, m => listSpliceInit m list head
  | .spliceTailInit list head, m => listSpliceTailInit m list head

/-- The cell at `a` is free to be used: it is in no list, or it is the head of one
whose entries are given up. `rest` are the other lists. -/
inductive Spare (a : ℕ) : ListFamily → ListFamily → Prop
  | loose {L : ListFamily} : a ∉ familyCells L → Spare a L L
  | head {L rest : ListFamily} {ws : List ℕ} : L.Perm ((a, ws) :: rest) → Spare a L rest

/-- The calls a caller may make, with what they are for. -/
inductive ListStep (A : Set ℕ) : ListFamily → ListCall → ListFamily → Prop
  | initHead {L rest : ListFamily} {a : ℕ} :
      a ∈ A → Spare a L rest → ListStep A L (.initHead a) ((a, []) :: rest)
  | addTail {L L₁ rest : ListFamily} {new h : ℕ} {xs : List ℕ} :
      new ∈ A → Spare new L L₁ → L₁.Perm ((h, xs) :: rest) →
      ListStep A L (.addTail new h) ((h, xs ++ [new]) :: rest)
  | del {L rest : ListFamily} {h e : ℕ} {xs ys : List ℕ} :
      L.Perm ((h, xs ++ e :: ys) :: rest) → ListStep A L (.del e) ((h, xs ++ ys) :: rest)
  | delInit {L rest : ListFamily} {h e : ℕ} {xs ys : List ℕ} :
      L.Perm ((h, xs ++ e :: ys) :: rest) →
      ListStep A L (.delInit e) ((e, []) :: (h, xs ++ ys) :: rest)
  /-- To the end of its own list. -/
  | moveTail {L rest : ListFamily} {h e : ℕ} {xs ys : List ℕ} :
      L.Perm ((h, xs ++ e :: ys) :: rest) →
      ListStep A L (.moveTail e h) ((h, xs ++ ys ++ [e]) :: rest)
  /-- To the end of another list. -/
  | moveTailOther {L rest : ListFamily} {h k e : ℕ} {xs ys zs : List ℕ} :
      L.Perm ((h, xs ++ e :: ys) :: (k, zs) :: rest) →
      ListStep A L (.moveTail e k) ((h, xs ++ ys) :: (k, zs ++ [e]) :: rest)
  /-- An entry that is initialised and in no list. -/
  | moveTailSelf {L rest : ListFamily} {k e : ℕ} {zs : List ℕ} :
      L.Perm ((e, []) :: (k, zs) :: rest) → ListStep A L (.moveTail e k) ((k, zs ++ [e]) :: rest)
  | replaceEntry {L L₁ rest : ListFamily} {h old new : ℕ} {xs ys : List ℕ} :
      new ∈ A → Spare new L L₁ → L₁.Perm ((h, xs ++ old :: ys) :: rest) →
      ListStep A L (.replace old new) ((h, xs ++ new :: ys) :: rest)
  | replaceHead {L L₁ rest : ListFamily} {old new : ℕ} {xs : List ℕ} :
      new ∈ A → Spare new L L₁ → L₁.Perm ((old, xs) :: rest) →
      ListStep A L (.replace old new) ((new, xs) :: rest)
  | replaceInitEntry {L L₁ rest : ListFamily} {h old new : ℕ} {xs ys : List ℕ} :
      new ∈ A → Spare new L L₁ → L₁.Perm ((h, xs ++ old :: ys) :: rest) →
      ListStep A L (.replaceInit old new) ((old, []) :: (h, xs ++ new :: ys) :: rest)
  | replaceInitHead {L L₁ rest : ListFamily} {old new : ℕ} {xs : List ℕ} :
      new ∈ A → Spare new L L₁ → L₁.Perm ((old, xs) :: rest) →
      ListStep A L (.replaceInit old new) ((old, []) :: (new, xs) :: rest)
  | rotateLeft {L rest : ListFamily} {h : ℕ} {xs : List ℕ} :
      L.Perm ((h, xs) :: rest) →
      ListStep A L (.rotateLeft h) ((h, xs.tail ++ xs.head?.toList) :: rest)
  /-- The list is parted behind one of its entries. -/
  | cutPosition {L L₁ rest : ListFamily} {list h e : ℕ} {xs ys : List ℕ} :
      list ∈ A → Spare list L L₁ → L₁.Perm ((h, xs ++ e :: ys) :: rest) →
      ListStep A L (.cutPosition list h e) ((list, xs ++ [e]) :: (h, ys) :: rest)
  /-- It is not cut at its head. -/
  | cutPositionHead {L L₁ rest : ListFamily} {list h : ℕ} {xs : List ℕ} :
      list ∈ A → Spare list L L₁ → L₁.Perm ((h, xs) :: rest) → xs ≠ [] →
      ListStep A L (.cutPosition list h h) ((list, []) :: (h, xs) :: rest)
  /-- Nothing to cut. -/
  | cutPositionNone {L rest : ListFamily} {list h e : ℕ} {xs : List ℕ} :
      L.Perm ((h, xs) :: rest) → (xs = [] ∨ xs.length = 1 ∧ e ∉ h :: xs) →
      ListStep A L (.cutPosition list h e) L
  /-- The head of the list that was spliced in is stale, unless it had no entries. -/
  | splice {L rest : ListFamily} {list h : ℕ} {ws xs : List ℕ} :
      L.Perm ((list, ws) :: (h, xs) :: rest) →
      ListStep A L (.splice list h) (if ws = [] then L else (h, ws ++ xs) :: rest)
  | spliceTail {L rest : ListFamily} {list h : ℕ} {ws xs : List ℕ} :
      L.Perm ((list, ws) :: (h, xs) :: rest) →
      ListStep A L (.spliceTail list h) (if ws = [] then L else (h, xs ++ ws) :: rest)
  | spliceInit {L rest : ListFamily} {list h : ℕ} {ws xs : List ℕ} :
      L.Perm ((list, ws) :: (h, xs) :: rest) →
      ListStep A L (.spliceInit list h) ((list, []) :: (h, ws ++ xs) :: rest)
  | spliceTailInit {L rest : ListFamily} {list h : ℕ} {ws xs : List ℕ} :
      L.Perm ((list, ws) :: (h, xs) :: rest) →
      ListStep A L (.spliceTailInit list h) ((list, []) :: (h, xs ++ ws) :: rest)

/-- The lists under calls of the operations. -/
def listCalls (A : Set ℕ) : Lts.System ListFamily ListCall where
  init L := L = []
  step := ListStep A

variable {A : Set ℕ} {m m' : Links} {L L' L₁ rest : ListFamily} {a e h k : ℕ} {l xs ys zs : List ℕ}

theorem familyCells_cons (h : ℕ) (xs : List ℕ) (rest : ListFamily) :
    familyCells ((h, xs) :: rest) = h :: xs ++ familyCells rest := List.flatMap_cons

/-- The order of the lists does not matter. -/
theorem Holds.perm (hL : Holds A m L) (hp : L.Perm L') : Holds A m L' := by
  obtain ⟨hlive, hrings, hnd⟩ := hL
  exact ⟨hlive, fun p hmem => hrings p (hp.mem_iff.mpr hmem), (hp.flatMap_right _).nodup_iff.mp hnd⟩

/-- One list and the others. -/
theorem holds_cons_iff : Holds A m ((h, xs) :: rest) ↔
    Ring m h xs ∧ Holds A m rest ∧ ∀ x ∈ h :: xs, x ∉ familyCells rest := by
  constructor
  · rintro ⟨hlive, hrings, hnd⟩
    rw [familyCells_cons, List.nodup_append'] at hnd
    refine ⟨hrings (h, xs) List.mem_cons_self, ⟨hlive, fun p hp => ?_, hnd.2.1⟩, fun x hx => ?_⟩
    · exact hrings p (List.mem_cons_of_mem _ hp)
    · exact fun hmem => hnd.2.2 hx hmem
  · rintro ⟨hr, ⟨hlive, hrings, hnd⟩, hoff⟩
    refine ⟨hlive, List.forall_mem_cons.mpr ⟨hr, hrings⟩, ?_⟩
    rw [familyCells_cons, List.nodup_append']
    exact ⟨hr.nodup, hnd, fun x hx hmem => hoff x hx hmem⟩

/-- A cell that is free is in none of the other lists. -/
theorem Holds.spare (hL : Holds A m L) (hs : Spare a L rest) :
    Holds A m rest ∧ a ∉ familyCells rest := by
  cases hs with
  | loose hloose => exact ⟨hL, hloose⟩
  | head hp =>
    obtain ⟨-, hrest, hoff⟩ := holds_cons_iff.mp (hL.perm hp)
    exact ⟨hrest, hoff a List.mem_cons_self⟩

/-- Lists off the cells that are stored to. -/
theorem Holds.touch (hL : Holds A m L) (ht : Touches l m m')
    (hoff : ∀ x ∈ l, x ∉ familyCells L) : Holds A m' L := by
  refine ⟨fun a => (ht.live a).trans (hL.live a), fun p hp => ?_, hL.nodup⟩
  refine ht.ring (hL.rings p hp) fun x hx hmem => hoff x hmem ?_
  exact List.mem_flatMap.mpr ⟨p, hp, hx⟩

/-- A free cell and a list. -/
theorem Holds.spare_cons (hL : Holds A m L) (hs : Spare a L L₁)
    (hp : L₁.Perm ((h, xs) :: rest)) :
    Ring m h xs ∧ Holds A m rest ∧ (∀ x ∈ h :: xs, x ∉ familyCells rest) ∧ a ∉ h :: xs ∧
      a ∉ familyCells rest := by
  obtain ⟨hL₁, hoff⟩ := hL.spare hs
  obtain ⟨hr, hrest, hfresh⟩ := holds_cons_iff.mp (hL₁.perm hp)
  have hmem : a ∉ familyCells ((h, xs) :: rest) := fun hmem =>
    hoff ((hp.flatMap_right _).mem_iff.mpr hmem)
  rw [familyCells_cons, List.mem_append, not_or] at hmem
  exact ⟨hr, hrest, hfresh, hmem.1, hmem.2⟩

/-- Two lists. -/
theorem Holds.two (hL : Holds A m L) (hp : L.Perm ((k, zs) :: (h, xs) :: rest)) :
    Ring m k zs ∧ Ring m h xs ∧ Holds A m rest ∧ (∀ x ∈ k :: zs, x ∉ h :: xs) ∧
      (∀ x ∈ k :: zs, x ∉ familyCells rest) ∧ ∀ x ∈ h :: xs, x ∉ familyCells rest := by
  obtain ⟨hk, hL₁, hoff⟩ := holds_cons_iff.mp (hL.perm hp)
  obtain ⟨hr, hrest, hfresh⟩ := holds_cons_iff.mp hL₁
  simp only [familyCells_cons, List.mem_append, not_or] at hoff
  exact ⟨hk, hr, hrest, fun x hx => (hoff x hx).1, fun x hx => (hoff x hx).2, hfresh⟩

/-- A list whose entries are the same and stay off the others. -/
theorem Holds.cons (hr : Ring m h xs) (hrest : Holds A m rest)
    (hoff : ∀ x ∈ h :: xs, x ∉ familyCells rest) : Holds A m ((h, xs) :: rest) :=
  holds_cons_iff.mpr ⟨hr, hrest, hoff⟩

/-- Two lists with the others. -/
theorem Holds.cons_cons (hk : Ring m k zs) (hr : Ring m h xs) (hrest : Holds A m rest)
    (hoff : ∀ x ∈ k :: zs, x ∉ h :: xs) (hk_off : ∀ x ∈ k :: zs, x ∉ familyCells rest)
    (hr_off : ∀ x ∈ h :: xs, x ∉ familyCells rest) : Holds A m ((k, zs) :: (h, xs) :: rest) := by
  refine (hrest.cons hr hr_off).cons hk fun x hx => ?_
  rw [familyCells_cons, List.mem_append, not_or]
  exact ⟨hoff x hx, hk_off x hx⟩

/-- An operation does what it is for. -/
theorem Holds.step {c : ListCall} (hL : Holds A m L) (hstep : ListStep A L c L') :
    ∃ m', c.run m = .ok m' ∧ Holds A m' L' := by
  cases hstep with
  | initHead ha hs =>
    obtain ⟨hrest, hoff⟩ := hL.spare hs
    obtain ⟨m', hrun, hring, ht⟩ := initListHead_ring ((hL.live _).mpr ha)
    exact ⟨m', hrun, .cons hring (hrest.touch ht (by grind)) (by grind)⟩
  | addTail ha hs hp =>
    obtain ⟨hr, hrest, hoff, hnew, hnew_off⟩ := hL.spare_cons hs hp
    obtain ⟨m', hrun, hring, ht⟩ := listAddTail_ring hr ((hL.live _).mpr ha) hnew
    exact ⟨m', hrun, .cons hring (hrest.touch ht (by grind)) (by grind)⟩
  | del hp =>
    obtain ⟨hr, hrest, hoff⟩ := holds_cons_iff.mp (hL.perm hp)
    obtain ⟨m', hrun, hring, ht⟩ := listDel_ring hr
    exact ⟨m', hrun, .cons hring (hrest.touch ht hoff) (by grind)⟩
  | delInit hp =>
    obtain ⟨hr, hrest, hoff⟩ := holds_cons_iff.mp (hL.perm hp)
    obtain ⟨m', hrun, hring, hself, ht⟩ := listDelInit_ring hr
    refine ⟨m', hrun, .cons_cons hself hring (hrest.touch ht hoff) ?_ (by grind) (by grind)⟩
    grind [hr.nodup]
  | moveTail hp =>
    obtain ⟨hr, hrest, hoff⟩ := holds_cons_iff.mp (hL.perm hp)
    obtain ⟨m', hrun, hring, ht⟩ := listMoveTail_ring_same hr
    exact ⟨m', hrun, .cons hring (hrest.touch ht hoff) (by grind)⟩
  | moveTailOther hp =>
    obtain ⟨hr, hk, hrest, hdisj, hr_off, hk_off⟩ := hL.two hp
    obtain ⟨m', hrun, hring, hring', ht⟩ := listMoveTail_ring hr hk fun x => hdisj x
    refine ⟨m', hrun, .cons_cons hring hring' (hrest.touch ht (by grind)) ?_ (by grind) (by grind)⟩
    grind [hr.nodup]
  | moveTailSelf hp =>
    obtain ⟨hr, hk, hrest, hdisj, hr_off, hk_off⟩ := hL.two hp
    obtain ⟨m', hrun, hring, ht⟩ := listMoveTail_self hr hk (hdisj _ List.mem_cons_self)
    exact ⟨m', hrun, .cons hring (hrest.touch ht (by grind)) (by grind)⟩
  | replaceEntry ha hs hp =>
    obtain ⟨hr, hrest, hoff, hnew, hnew_off⟩ := hL.spare_cons hs hp
    obtain ⟨m', hrun, hring, ht⟩ := listReplace_entry hr ((hL.live _).mpr ha) hnew
    exact ⟨m', hrun, .cons hring (hrest.touch ht (by grind)) (by grind)⟩
  | replaceHead ha hs hp =>
    obtain ⟨hr, hrest, hoff, hnew, hnew_off⟩ := hL.spare_cons hs hp
    obtain ⟨m', hrun, hring, ht⟩ := listReplace_ring hr ((hL.live _).mpr ha) hnew
    exact ⟨m', hrun, .cons hring (hrest.touch ht (by grind)) (by grind)⟩
  | replaceInitEntry ha hs hp =>
    obtain ⟨hr, hrest, hoff, hnew, hnew_off⟩ := hL.spare_cons hs hp
    obtain ⟨m', hrun, hring, hself, ht⟩ := listReplaceInit_entry hr ((hL.live _).mpr ha) hnew
    refine ⟨m', hrun, .cons_cons hself hring (hrest.touch ht (by grind)) ?_ (by grind) (by grind)⟩
    grind [hr.nodup]
  | replaceInitHead ha hs hp =>
    obtain ⟨hr, hrest, hoff, hnew, hnew_off⟩ := hL.spare_cons hs hp
    obtain ⟨m', hrun, hring, hself, ht⟩ := listReplaceInit_ring hr ((hL.live _).mpr ha) hnew
    refine ⟨m', hrun, .cons_cons hself hring (hrest.touch ht (by grind)) ?_ (by grind) (by grind)⟩
    grind [hr.nodup]
  | rotateLeft hp =>
    obtain ⟨hr, hrest, hoff⟩ := holds_cons_iff.mp (hL.perm hp)
    obtain ⟨m', hrun, hring, ht⟩ := listRotateLeft_ring hr
    refine ⟨m', hrun, .cons hring (hrest.touch ht hoff) fun x hx => hoff x ?_⟩
    obtain rfl | hx := List.mem_cons.mp hx
    · exact List.mem_cons_self
    · exact List.mem_cons_of_mem _ (mem_of_mem_rotated hx)
  | cutPosition ha hs hp =>
    obtain ⟨hr, hrest, hoff, hnew, hnew_off⟩ := hL.spare_cons hs hp
    obtain ⟨m', hrun, hfront, hback, ht⟩ := listCutPosition_ring hr ((hL.live _).mpr ha) hnew
    refine ⟨m', hrun, .cons_cons hfront hback (hrest.touch ht (by grind)) ?_ (by grind) (by grind)⟩
    grind [hr.nodup]
  | cutPositionHead ha hs hp hne =>
    obtain ⟨hr, hrest, hoff, hnew, hnew_off⟩ := hL.spare_cons hs hp
    obtain ⟨m', hrun, hself, ht⟩ := initListHead_ring ((hL.live _).mpr ha)
    have hr' := ht.ring hr (by grind)
    refine ⟨m', ?_, .cons_cons hself hr' (hrest.touch ht (by grind)) (by grind) (by grind) hoff⟩
    rw [ListCall.run, listCutPosition_head hr hne, hrun]
  | cutPositionNone hp hnone =>
    obtain ⟨hr, -⟩ := holds_cons_iff.mp (hL.perm hp)
    exact ⟨m, listCutPosition_none hr hnone, hL⟩
  | splice hp =>
    obtain ⟨hlist, hr, hrest, hdisj, hlist_off, hr_off⟩ := hL.two hp
    obtain ⟨m', hrun, hring, hnone, ht⟩ := listSplice_ring hlist hr fun x => hdisj x
    refine ⟨m', hrun, ?_⟩
    split
    · rw [hnone ‹_›]
      exact hL
    · exact .cons hring (hrest.touch ht (by grind)) (by grind)
  | spliceTail hp =>
    obtain ⟨hlist, hr, hrest, hdisj, hlist_off, hr_off⟩ := hL.two hp
    obtain ⟨m', hrun, hring, hnone, ht⟩ := listSpliceTail_ring hlist hr fun x => hdisj x
    refine ⟨m', hrun, ?_⟩
    split
    · rw [hnone ‹_›]
      exact hL
    · exact .cons hring (hrest.touch ht (by grind)) (by grind)
  | spliceInit hp =>
    obtain ⟨hlist, hr, hrest, hdisj, hlist_off, hr_off⟩ := hL.two hp
    obtain ⟨m', hrun, hself, hring, ht⟩ := listSpliceInit_ring hlist hr fun x => hdisj x
    refine ⟨m', hrun, .cons_cons hself hring (hrest.touch ht (by grind)) ?_ (by grind) (by grind)⟩
    grind [hlist.nodup]
  | spliceTailInit hp =>
    obtain ⟨hlist, hr, hrest, hdisj, hlist_off, hr_off⟩ := hL.two hp
    obtain ⟨m', hrun, hself, hring, ht⟩ := listSpliceTailInit_ring hlist hr fun x => hdisj x
    refine ⟨m', hrun, .cons_cons hself hring (hrest.touch ht (by grind)) ?_ (by grind) (by grind)⟩
    grind [hlist.nodup]

/-- What is read of the lists that are held. -/
theorem Holds.read (hL : Holds A m L) (hmem : (h, xs) ∈ L) {fuel : ℕ} (hfuel : xs.length < fuel) :
    forEach fuel m h = .ok xs ∧ forEachPrev fuel m h = .ok xs.reverse ∧
      listEmpty m h = .ok (decide (xs = [])) ∧ listEmptyCareful m h = .ok (decide (xs = [])) ∧
      listIsSingular m h = .ok (decide (xs.length = 1)) ∧
      ∀ front e behind, xs = front ++ e :: behind →
        listIsLast m e h = .ok (decide (behind = [])) := by
  have hr := hL.rings (h, xs) hmem
  refine ⟨forEach_ring hr hfuel, forEachPrev_ring hr hfuel, listEmpty_ring hr,
    listEmptyCareful_ring hr, listIsSingular_ring hr, ?_⟩
  rintro front e behind rfl
  exact listIsLast_ring hr

/-- A sequence of operations does what it is for. -/
theorem Holds.run {calls : List ListCall} (hL : Holds A m L)
    (hrun : Lts.Run (listCalls A) L calls L') :
    ∃ m', calls.foldlM (fun m c => c.run m) m = .ok m' ∧ Holds A m' L' := by
  induction hrun with
  | nil => exact ⟨m, rfl, hL⟩
  | snoc _ hstep ih =>
    obtain ⟨m₁, hcalls, hL₁⟩ := ih
    obtain ⟨m₂, hcall, hL₂⟩ := hL₁.step hstep
    refine ⟨m₂, ?_, hL₂⟩
    rw [List.foldlM_append, hcalls, ok_bind, List.foldlM_cons, hcall]
    rfl

/-- **Linked lists.** Whatever calls are made on cells for what they are documented
for, none of them touches a cell that is not there, and memory holds the lists they
stand for: walked in either direction and asked anything, every list answers as a
list of its entries would, whatever happened to the others. -/
theorem list_calls_refine {calls : List ListCall} (hm : ∀ a, Live m a ↔ a ∈ A)
    (hrun : Lts.Run (listCalls A) [] calls L) :
    ∃ m', calls.foldlM (fun m c => c.run m) m = .ok m' ∧ (∀ a, Live m' a ↔ a ∈ A) ∧
      (familyCells L).Nodup ∧ ∀ head entries fuel, (head, entries) ∈ L → entries.length < fuel →
        forEach fuel m' head = .ok entries ∧ forEachPrev fuel m' head = .ok entries.reverse ∧
        listEmpty m' head = .ok (decide (entries = [])) ∧
        listEmptyCareful m' head = .ok (decide (entries = [])) ∧
        listIsSingular m' head = .ok (decide (entries.length = 1)) ∧
        ∀ front e behind, entries = front ++ e :: behind →
          listIsLast m' e head = .ok (decide (behind = [])) := by
  have hL : Holds A m [] := ⟨hm, by simp, List.nodup_nil⟩
  obtain ⟨m', hcalls, hL'⟩ := hL.run hrun
  exact ⟨m', hcalls, hL'.live, hL'.nodup, fun head entries fuel hmem hfuel => hL'.read hmem hfuel⟩

/-- Three cells whose links were never set. -/
def threeCells : Links := fun a => if a = 1 ∨ a = 2 ∨ a = 3 then some ⟨0, 0⟩ else none

theorem list_calls_refine_three :
    ∃ m', [ListCall.initHead 1, .addTail 2 1, .addTail 3 1, .rotateLeft 1, .del 2].foldlM
        (fun m c => c.run m) threeCells = .ok m' ∧
      forEach 2 m' 1 = .ok [3] ∧ listIsLast m' 3 1 = .ok true := by
  have hm : ∀ a, Live threeCells a ↔ a ∈ ({a | a = 1 ∨ a = 2 ∨ a = 3} : Set ℕ) := by
    intro a
    change _ ↔ a = 1 ∨ a = 2 ∨ a = 3
    unfold Live threeCells
    split <;> simp [*]
  have hrun : Lts.Run (listCalls {a | a = 1 ∨ a = 2 ∨ a = 3}) []
      [.initHead 1, .addTail 2 1, .addTail 3 1, .rotateLeft 1, .del 2] [(1, [3])] := by
    have hinit : ListStep {a | a = 1 ∨ a = 2 ∨ a = 3} [] (.initHead 1) [(1, [])] :=
      .initHead (by simp) (.loose (by simp [familyCells]))
    have hadd : ListStep {a | a = 1 ∨ a = 2 ∨ a = 3} [(1, [])] (.addTail 2 1) [(1, [2])] :=
      .addTail (by simp) (.loose (by simp [familyCells])) (.refl _)
    have hadd' : ListStep {a | a = 1 ∨ a = 2 ∨ a = 3} [(1, [2])] (.addTail 3 1) [(1, [2, 3])] :=
      .addTail (by simp) (.loose (by simp [familyCells])) (.refl _)
    have hrotate :
        ListStep {a | a = 1 ∨ a = 2 ∨ a = 3} [(1, [2, 3])] (.rotateLeft 1) [(1, [3, 2])] :=
      .rotateLeft (.refl _)
    have hdel : ListStep {a | a = 1 ∨ a = 2 ∨ a = 3} [(1, [3, 2])] (.del 2) [(1, [3])] :=
      .del (show [(1, [3, 2])].Perm [(1, [3] ++ 2 :: [])] from .refl _)
    exact .cons hinit (.cons hadd (.cons hadd' (.cons hrotate (.single hdel))))
  obtain ⟨m', hcalls, -, -, hread⟩ := list_calls_refine hm hrun
  obtain ⟨hwalk, -, -, -, -, hlast⟩ := hread 1 [3] 2 (by simp) (by simp)
  exact ⟨m', hcalls, hwalk, hlast [] 3 [] rfl⟩

end TsmVm
