import TsmVm.Base
import TsmVm.Lib.Chains
import TsmVm.Lib.Buckets
import TsmVm.Lib.Dictionary

/-!
# The hash table in memory (`fm_hashtable.c`)

The entries lie at addresses and are chained up from the places of `tab`. The
functions are taken over store by store; an address without an entry cannot be
read or written. A walk along a chain has as many rounds as it is given: a chain
that runs into itself has no end. The table is used with any hash and any
comparison of keys.
-/

namespace TsmVm

open Chains

/-- What an entry holds besides its links: `hash_key`, `key` and `value`. -/
structure ZcItem (κ ν : Type) where
  hashKey : UInt32
  key : κ
  /-- The value, possibly `NULL`. -/
  value : Option ν
  deriving DecidableEq, Repr

/-- The `zc_hashtable_entry_t`s there are. -/
abbrev ZcEntries (κ ν : Type) := Chains.Store ℕ (ZcItem κ ν)

/-- The functions a table is made with. -/
structure ZcFns (κ : Type) where
  hash : κ → UInt32
  equal : κ → κ → Bool
  /-- `key_del` is not `NULL`. -/
  keyDel : Bool
  /-- `value_del` is not `NULL`. -/
  valueDel : Bool

/-- `zc_hashtable_t`, the entries and the calls of `key_del` and `value_del` so far. -/
structure ZcHashtable (κ ν : Type) where
  nelem : ℕ
  /-- `tab`, with its `tab_size` places. -/
  tab : List (Option ℕ)
  entries : ZcEntries κ ν
  keysDeleted : List κ
  valuesDeleted : List (Option ν)

variable {κ ν : Type}

/-- The entry at an address. -/
def entryAt (m : ZcEntries κ ν) (p : ℕ) : Res (Chains.Node ℕ (ZcItem κ ν)) :=
  match m p with
  | some e => .ok e
  | none => .error .wildAccess

/-- `tab[i]`. -/
def tabAt (tab : List (Option ℕ)) (i : ℕ) : Res (Option ℕ) :=
  match tab[i]? with
  | some p => .ok p
  | none => .error .outOfBounds

/-- `q->prev = p`. -/
def storeEntryPrev (m : ZcEntries κ ν) (q : ℕ) (p : Option ℕ) : Res (ZcEntries κ ν) := do
  let _ ← entryAt m q
  return setPrev m q p

/-- `p->next = q`. -/
def storeEntryNext (m : ZcEntries κ ν) (p : ℕ) (q : Option ℕ) : Res (ZcEntries κ ν) := do
  let _ ← entryAt m p
  return setNext m p q

/-- The loop that looks for a key along a chain. -/
def findLoop (f : ZcFns κ) (m : ZcEntries κ ν) (aKey : κ) : ℕ → Option ℕ → Res (Option ℕ)
  | 0, _ => .error .hang
  | _ + 1, none => .ok none
  | fuel + 1, some p => do
    let e ← entryAt m p
    if f.equal aKey e.item.key then return some p
    findLoop f m aKey fuel e.next

/-- An entry put in front of the chain at `tab[j]`, in `zc_hashtable_rehash` and
`zc_hashtable_put`. -/
def insertFirst (tab : List (Option ℕ)) (m : ZcEntries κ ν) (p j : ℕ) :
    Res (List (Option ℕ) × ZcEntries κ ν) := do
  match ← tabAt tab j with
  | none => return (tab.set j (some p), m)
  | some q =>
    let m ← storeEntryPrev m q (some p)
    let m ← storeEntryNext m p (some q)
    return (tab.set j (some p), m)

/-- `p->next->prev = p->prev`, where there is a next entry. -/
def joinPrev (m : ZcEntries κ ν) (e : Chains.Node ℕ (ZcItem κ ν)) : Res (ZcEntries κ ν) :=
  match e.next with
  | none => .ok m
  | some n => storeEntryPrev m n e.prev

/-- The links an entry had are joined, in `zc_hashtable_remove`: the first entry of
a chain is the one at its place of `tab`. -/
def unlinkEntry (tab : List (Option ℕ)) (m : ZcEntries κ ν) (e : Chains.Node ℕ (ZcItem κ ν)) :
    Res (List (Option ℕ) × ZcEntries κ ν) := do
  let m ← joinPrev m e
  match e.prev with
  | some q => return (tab, ← storeEntryNext m q e.next)
  | none =>
    let i := e.item.hashKey.toNat % tab.length
    let _ ← tabAt tab i
    return (tab.set i e.next, m)

/-- The inner loop of `zc_hashtable_rehash`: the entries of a chain, one by one. -/
def rehashLoop (tabSize : ℕ) : ℕ → Option ℕ → List (Option ℕ) → ZcEntries κ ν →
    Res (List (Option ℕ) × ZcEntries κ ν)
  | 0, _, _, _ => .error .hang
  | _ + 1, none, tab, m => .ok (tab, m)
  | fuel + 1, some p, tab, m => do
    let e ← entryAt m p
    let m ← storeEntryNext m p none
    let m ← storeEntryPrev m p none
    let (tab, m) ← insertFirst tab m p (e.item.hashKey.toNat % tabSize)
    rehashLoop tabSize fuel e.next tab m

namespace ZcHashtable

/-- `zc_hashtable_new`, with the outcomes of its two calls of `fm_calloc`. -/
def new (aSize : ℕ) (table tab : Bool) : Option (ZcHashtable κ ν) :=
  if table && tab then some ⟨0, List.replicate aSize none, fun _ => none, [], []⟩ else none

/-- `key_del` and `value_del` are called on what an entry holds, where the table has them. -/
def release (f : ZcFns κ) (t : ZcHashtable κ ν) (e : ZcItem κ ν) : ZcHashtable κ ν :=
  { t with
    keysDeleted := if f.keyDel then t.keysDeleted ++ [e.key] else t.keysDeleted
    valuesDeleted := if f.valueDel then t.valuesDeleted ++ [e.value] else t.valuesDeleted }

/-- `zc_hashtable_get_entry`. -/
def getEntry (f : ZcFns κ) (fuel : ℕ) (t : ZcHashtable κ ν) (aKey : κ) : Res (Option ℕ) := do
  findLoop f t.entries aKey fuel (← tabAt t.tab ((f.hash aKey).toNat % t.tab.length))

/-- `zc_hashtable_get`. -/
def get (f : ZcFns κ) (fuel : ℕ) (t : ZcHashtable κ ν) (aKey : κ) : Res (Option ν) := do
  match ← getEntry f fuel t aKey with
  | none => return none
  | some p => return (← entryAt t.entries p).item.value

/-- `zc_hashtable_rehash`. -/
def rehash (fuel : ℕ) (tabGiven : Bool) (t : ZcHashtable κ ν) : Res (ZcHashtable κ ν × ℤ) := do
  if !tabGiven then return (t, -1)
  let tabSize := 2 * t.tab.length
  let (tab, m) ← t.tab.foldlM (fun s p => rehashLoop tabSize fuel p s.1 s.2)
    (List.replicate tabSize none, t.entries)
  return ({ t with tab := tab, entries := m }, 0)

/-- The test of `zc_hashtable_put` for a table that is full. The product
`tab_size * 1.3` in `double` compares with `nelem` as the fraction does, for every
size memory has room for. -/
def makeRoom (fuel : ℕ) (tabGiven : Bool) (t : ZcHashtable κ ν) : Res (ZcHashtable κ ν × ℤ) :=
  if 13 * t.tab.length < 10 * t.nelem then rehash fuel tabGiven t else .ok (t, 0)

/-- `zc_hashtable_put`. `tabGiven` and `cell` are what `fm_calloc` returns where a
larger `tab` and a new entry are asked for. -/
def put (f : ZcFns κ) (fuel : ℕ) (tabGiven : Bool) (cell : Option ℕ) (t : ZcHashtable κ ν)
    (aKey : κ) (aValue : Option ν) : Res (ZcHashtable κ ν × ℤ) := do
  match ← getEntry f fuel t aKey with
  | some p =>
    let e ← entryAt t.entries p
    let t := release f t e.item
    return ({ t with entries := setItem t.entries p ⟨e.item.hashKey, aKey, aValue⟩ }, 0)
  | none =>
    let (t, rc) ← makeRoom fuel tabGiven t
    if rc ≠ 0 then return (t, -1)
    match cell with
    | none => return (t, -1)
    | some p =>
      let item : ZcItem κ ν := ⟨f.hash aKey, aKey, aValue⟩
      let m := Function.update t.entries p (some ⟨none, none, item⟩)
      let (tab, m) ← insertFirst t.tab m p (item.hashKey.toNat % t.tab.length)
      return ({ t with nelem := t.nelem + 1, tab := tab, entries := m }, 0)

/-- `zc_hashtable_remove`. -/
def remove (f : ZcFns κ) (fuel : ℕ) (t : ZcHashtable κ ν) (aKey : Option κ) :
    Res (ZcHashtable κ ν) := do
  match aKey with
  | none => return t
  | some aKey =>
    match ← getEntry f fuel t aKey with
    | none => return t
    | some p =>
      let e ← entryAt t.entries p
      let t := release f t e.item
      let (tab, m) ← unlinkEntry t.tab t.entries e
      return { t with nelem := t.nelem - 1, tab := tab, entries := Chains.free m p }

/-- The inner loop of `zc_hashtable_clean` and `zc_hashtable_del`. -/
def cleanLoop (f : ZcFns κ) : ℕ → Option ℕ → ZcHashtable κ ν → Res (ZcHashtable κ ν)
  | 0, _, _ => .error .hang
  | _ + 1, none, t => .ok t
  | fuel + 1, some p, t => do
    let e ← entryAt t.entries p
    let t := release f t e.item
    cleanLoop f fuel e.next { t with entries := Chains.free t.entries p }

/-- `zc_hashtable_clean`. -/
def clean (f : ZcFns κ) (fuel : ℕ) (t : ZcHashtable κ ν) : Res (ZcHashtable κ ν) := do
  let t ← t.tab.foldlM (fun t p => cleanLoop f fuel p t) t
  return { t with nelem := 0, tab := t.tab.map fun _ => none }

/-- `zc_hashtable_del`, up to `fm_free` of `tab` and of the table itself. -/
def del (f : ZcFns κ) (fuel : ℕ) (t : ZcHashtable κ ν) : Res (ZcHashtable κ ν) :=
  t.tab.foldlM (fun t p => cleanLoop f fuel p t) t

/-- `zc_hashtable_begin`. -/
def begin (t : ZcHashtable κ ν) : Option ℕ := t.tab.findSome? id

/-- `zc_hashtable_next`. -/
def next (t : ZcHashtable κ ν) (aEntry : ℕ) : Res (Option ℕ) := do
  let e ← entryAt t.entries aEntry
  match e.next with
  | some q => return some q
  | none => return (t.tab.drop (e.item.hashKey.toNat % t.tab.length + 1)).findSome? id

/-- The rounds of `zc_hashtable_foreach` from an entry on. -/
def foreachLoop (t : ZcHashtable κ ν) : ℕ → Option ℕ → Res (List (κ × Option ν))
  | 0, _ => .error .hang
  | _ + 1, none => .ok []
  | fuel + 1, some p => do
    let e ← entryAt t.entries p
    let rest ← foreachLoop t fuel (← t.next p)
    return (e.item.key, e.item.value) :: rest

/-- `zc_hashtable_foreach`: the keys and values of the entries it goes through. -/
def foreach (fuel : ℕ) (t : ZcHashtable κ ν) : Res (List (κ × Option ν)) :=
  t.foreachLoop fuel t.begin

end ZcHashtable

/-- `zc_hashtable_str_hash` of the bytes in front of the `NUL`. A `char` is signed. -/
def zcHashtableStrHash (str : List UInt8) : UInt32 :=
  str.foldl (fun h p => ((h <<< 5) + h) + p.toInt8.toInt32.toUInt32) 5381

/-- `zc_hashtable_str_equal`. -/
def zcHashtableStrEqual (key1 key2 : List UInt8) : Bool := key1 == key2

/-! ## Chains in the places of a table -/

/-- The entries of each place, chained up in memory. -/
structure Chained (tab : List (Option ℕ)) (m : ZcEntries κ ν)
    (bs : List (List (ℕ × ZcItem κ ν))) : Prop where
  /-- A place holds the first entry of its chain. -/
  heads : tab = bs.map first
  /-- Each chain ends on both sides. -/
  chains : ∀ xs ∈ bs, Seg m none xs none
  /-- No entry lies in two places. -/
  nodup : (bs.flatten.map Prod.fst).Nodup

/-- Where an entry belongs. -/
def zcPlace (x : ℕ × ZcItem κ ν) : ℕ := x.2.hashKey.toNat

variable {f : ZcFns κ} {m m' : ZcEntries κ ν} {tab : List (Option ℕ)} {p : ℕ} {q : Option ℕ}
  {e : ZcItem κ ν} {xs ys rest : List (ℕ × ZcItem κ ν)}
  {bs olds pre post : List (List (ℕ × ZcItem κ ν))} {fuel : ℕ}

theorem entryAt_eq {c : Chains.Node ℕ (ZcItem κ ν)} (h : m p = some c) :
    entryAt m p = .ok c := by
  rw [entryAt, h]

theorem storeEntryPrev_eq (h : (m p).isSome) : storeEntryPrev m p q = .ok (setPrev m p q) := by
  obtain ⟨c, hc⟩ := Option.isSome_iff_exists.mp h
  rw [storeEntryPrev, entryAt_eq hc]
  rfl

theorem storeEntryNext_eq (h : (m p).isSome) : storeEntryNext m p q = .ok (setNext m p q) := by
  obtain ⟨c, hc⟩ := Option.isSome_iff_exists.mp h
  rw [storeEntryNext, entryAt_eq hc]
  rfl

/-- The place of a chain. -/
theorem tabAt_split : tabAt ((pre ++ xs :: post).map first) pre.length = .ok (first xs) := by
  rw [tabAt, List.map_append, List.map_cons, List.getElem?_append_right (by simp),
    List.length_map, Nat.sub_self, List.getElem?_cons_zero]

/-- A key is looked up among the entries of a chain. -/
theorem findLoop_seg (h : Seg m q xs none) (aKey : κ) (hfuel : xs.length < fuel) :
    findLoop f m aKey fuel (first xs) =
      .ok ((xs.find? fun x => f.equal aKey x.2.key).map Prod.fst) := by
  obtain ⟨rounds, rfl⟩ := Nat.exists_eq_succ_of_ne_zero (Nat.ne_zero_of_lt hfuel)
  induction xs generalizing q rounds with
  | nil => rfl
  | cons x xs ih =>
    obtain ⟨rounds, rfl⟩ := Nat.exists_eq_succ_of_ne_zero (n := rounds) (by
      rintro rfl
      simp at hfuel)
    rw [first_cons, findLoop, entryAt_eq h.1, ok_bind, List.find?_cons]
    cases hx : f.equal aKey x.2.key with
    | true => rfl
    | false =>
      rw [Option.or_none]
      exact ih h.2 rounds (by simpa using hfuel)

/-- An entry of a chain is one of the table. -/
theorem mem_entries {a : ℕ} (hxs : xs ∈ bs) (ha : a ∈ xs.map Prod.fst) :
    a ∈ bs.flatten.map Prod.fst := by
  obtain ⟨x, hx, rfl⟩ := List.mem_map.mp ha
  exact List.mem_map_of_mem (List.mem_flatten.mpr ⟨xs, hxs, hx⟩)

/-- A chain of a table is exchanged. -/
theorem Chained.replace (h : Chained tab m (pre ++ xs :: post)) {tab' : List (Option ℕ)}
    (htab : tab' = (pre ++ ys :: post).map first) (hys : Seg m' none ys none)
    (hoff : ∀ a ∈ (pre ++ post).flatten.map Prod.fst, m' a = m a)
    (hnodup : ((pre ++ ys :: post).flatten.map Prod.fst).Nodup) :
    Chained tab' m' (pre ++ ys :: post) := by
  refine ⟨htab, fun zs hzs => ?_, hnodup⟩
  rcases List.mem_append.mp hzs with hzs | hzs
  · refine (h.chains zs (by simp [hzs])).congr fun a ha => hoff a ?_
    rw [List.flatten_append, List.map_append, List.mem_append]
    exact .inl (mem_entries hzs ha)
  · rcases List.mem_cons.mp hzs with rfl | hzs
    · exact hys
    · refine (h.chains zs (by simp [hzs])).congr fun a ha => hoff a ?_
      rw [List.flatten_append, List.map_append, List.mem_append]
      exact .inr (mem_entries hzs ha)

/-- The entries of a table are all that its chains consist of. -/
theorem Chained.congr (h : Chained tab m bs) (hoff : ∀ a ∈ bs.flatten.map Prod.fst, m' a = m a) :
    Chained tab m' bs :=
  ⟨h.heads, fun xs hxs => (h.chains xs hxs).congr fun a ha =>
    hoff a (mem_entries hxs ha), h.nodup⟩

/-- An entry of its own is put in front of the chain at its place. -/
theorem Chained.insertFirst (h : Chained tab m bs) (hbs : bs ≠ [])
    (hp : m p = some ⟨none, none, e⟩) (hoff : p ∉ bs.flatten.map Prod.fst) :
    ∃ tab' m', insertFirst tab m p (e.hashKey.toNat % bs.length) = .ok (tab', m') ∧
      Chained tab' m' (Buckets.push zcPlace bs (p, e)) ∧
      (∀ a, a ≠ p → a ∉ bs.flatten.map Prod.fst → m' a = m a) ∧
      ∀ a, (m' a).isSome = (m a).isSome := by
  obtain ⟨pre, xs, post, rfl, hi⟩ := Buckets.exists_bucket hbs (zcPlace (p, e))
  have hxs : Seg m none xs none := h.chains xs (by simp)
  have hmem : ∀ a ∈ xs.map Prod.fst, a ∈ (pre ++ xs :: post).flatten.map Prod.fst := by
    intro a ha
    exact mem_entries (by simp) ha
  have hnodup := h.nodup
  rw [List.flatten_append, List.flatten_cons, List.map_append, List.map_append] at hnodup
  have hxsnodup : (xs.map Prod.fst).Nodup :=
    (List.nodup_append.mp (List.nodup_append.mp hnodup).2.1).1
  have hcode : TsmVm.insertFirst tab m p pre.length =
      .ok (tab.set pre.length (some p), Chains.linkFirst m p (first xs)) := by
    rw [TsmVm.insertFirst, h.heads, tabAt_split, ok_bind]
    cases xs with
    | nil => rfl
    | cons x xs =>
      have hlive : (setPrev m x.1 (some p) p).isSome := by
        rw [isSome_setPrev, hp, Option.isSome_some]
      simp only [first_cons]
      rw [storeEntryPrev_eq (hxs.isSome (by simp)), ok_bind, storeEntryNext_eq hlive]
      rfl
  have hplace : e.hashKey.toNat % (pre ++ xs :: post).length = pre.length := hi.symm
  refine ⟨tab.set pre.length (some p), Chains.linkFirst m p (first xs), ?_, ?_, ?_,
    fun a => isSome_linkFirst⟩
  · rw [hplace, hcode]
  · rw [Buckets.push_split hi]
    refine h.replace ?_ (hxs.linkFirst hxsnodup hp fun hpx => hoff (hmem p hpx)) ?_ ?_
    · rw [h.heads, List.map_append, List.map_cons, List.map_append, List.map_cons,
        List.set_append_right _ _ (by simp), List.length_map, Nat.sub_self, List.set_cons_zero,
        first_cons]
    · intro a ha
      have hne : a ∉ xs.map Prod.fst := by
        intro hax
        rw [List.flatten_append, List.map_append, List.mem_append] at ha
        rw [List.nodup_append, List.nodup_append] at hnodup
        rcases ha with ha | ha
        · exact hnodup.2.2 a ha a (List.mem_append.mpr (.inl hax)) rfl
        · exact hnodup.2.1.2.2 a hax a ha rfl
      refine linkFirst_of_ne ?_ (first_ne hne)
      rintro rfl
      refine hoff ?_
      rw [List.flatten_append, List.map_append, List.mem_append] at ha
      rw [List.flatten_append, List.flatten_cons, List.map_append, List.map_append,
        List.mem_append, List.mem_append]
      exact ha.imp id .inr
    · rw [List.flatten_append, List.flatten_cons, List.map_append, List.cons_append,
        List.map_cons, List.map_append, List.nodup_middle, List.nodup_cons]
      refine ⟨?_, hnodup⟩
      rwa [List.flatten_append, List.flatten_cons, List.map_append, List.map_append] at hoff
  · intro a hap ha
    exact linkFirst_of_ne hap (first_ne fun hax => ha (hmem a hax))

/-- The entries of a chain are moved one by one, whatever the first is linked back to. -/
theorem rehashLoop_chained (h : Chained tab m bs) (hbs : bs ≠ []) (hrest : Seg m q rest none)
    (hnodup : ((bs.flatten ++ rest).map Prod.fst).Nodup) (hfuel : rest.length < fuel) :
    ∃ tab' m', rehashLoop bs.length fuel (first rest) tab m = .ok (tab', m') ∧
      Chained tab' m' (rest.foldl (Buckets.push zcPlace) bs) ∧
      (∀ a ∉ (bs.flatten ++ rest).map Prod.fst, m' a = m a) ∧
      ∀ a, (m' a).isSome = (m a).isSome := by
  obtain ⟨rounds, rfl⟩ := Nat.exists_eq_succ_of_ne_zero (Nat.ne_zero_of_lt hfuel)
  induction rest generalizing q tab m bs rounds with
  | nil => exact ⟨tab, m, rfl, h, fun _ _ => rfl, fun _ => rfl⟩
  | cons x rest ih =>
    obtain ⟨rounds, rfl⟩ := Nat.exists_eq_succ_of_ne_zero (n := rounds) (by
      rintro rfl
      simp at hfuel)
    rw [List.map_append, List.map_cons, List.nodup_middle, List.nodup_cons, List.mem_append,
      not_or] at hnodup
    obtain ⟨⟨hxbs, hxrest⟩, hothers⟩ := hnodup
    -- the entry loses both its links
    have hlive : (m x.1).isSome := by rw [hrest.1, Option.isSome_some]
    have hnext := storeEntryNext_eq (q := none) hlive
    have hprev : storeEntryPrev (setNext m x.1 none) x.1 none =
        .ok (setPrev (setNext m x.1 none) x.1 none) :=
      storeEntryPrev_eq (isSome_setNext.trans hlive)
    have hcut : setPrev (setNext m x.1 none) x.1 none x.1 = some ⟨none, none, x.2⟩ := by
      rw [setPrev, Function.update_self, setNext, Function.update_self, hrest.1]
      rfl
    have hoff : ∀ a, a ≠ x.1 → setPrev (setNext m x.1 none) x.1 none a = m a := fun a ha =>
      (Function.update_of_ne ha _ _).trans (Function.update_of_ne ha _ _)
    have hchained := h.congr fun a ha => hoff a fun hax => hxbs (hax ▸ ha)
    -- and is put in front of the chain at its new place
    obtain ⟨tab₁, m₁, hinsert, hchained₁, hoff₁, hlive₁⟩ := hchained.insertFirst hbs hcut hxbs
    have hperm : ((Buckets.push zcPlace bs x).flatten.map Prod.fst).Perm
        (x.1 :: bs.flatten.map Prod.fst) := (Buckets.push_flatten_perm hbs x).map Prod.fst
    have hrest₁ : Seg m₁ (some x.1) rest none := hrest.2.congr fun a ha => by
      have hax : a ≠ x.1 := fun hax => hxrest (hax ▸ ha)
      refine (hoff₁ a hax fun habs => ?_).trans (hoff a hax)
      exact (List.nodup_append.mp hothers).2.2 a habs a ha rfl
    have hnodup₁ : (((Buckets.push zcPlace bs x).flatten ++ rest).map Prod.fst).Nodup := by
      rw [List.map_append]
      refine ((hperm.append_right (rest.map Prod.fst)).nodup_iff).mpr ?_
      rw [List.cons_append, List.nodup_cons, List.mem_append, not_or]
      exact ⟨⟨hxbs, hxrest⟩, hothers⟩
    obtain ⟨tab₂, m₂, hloop, hchained₂, hoff₂, hlive₂⟩ :=
      ih hchained₁ (Buckets.push_ne_nil hbs) hrest₁ hnodup₁ rounds (by simpa using hfuel)
    rw [Buckets.length_push] at hloop
    refine ⟨tab₂, m₂, ?_, hchained₂, fun a ha => ?_, fun a => ?_⟩
    · rw [first_cons, rehashLoop, entryAt_eq hrest.1, ok_bind, hnext, ok_bind, hprev, ok_bind,
        hinsert, ok_bind, Option.or_none]
      exact hloop
    · rw [List.map_append, List.map_cons, List.mem_append, List.mem_cons, not_or, not_or] at ha
      refine (hoff₂ a ?_).trans ((hoff₁ a ha.2.1 ha.1).trans (hoff a ha.2.1))
      rw [List.map_append, List.mem_append, hperm.mem_iff, List.mem_cons]
      rintro ((hax | habs) | harest)
      · exact ha.2.1 hax
      · exact ha.1 habs
      · exact ha.2.2 harest
    · exact (hlive₂ a).trans ((hlive₁ a).trans (isSome_setPrev.trans isSome_setNext))

/-- All chains are moved. -/
theorem rehash_chained (h : Chained tab m bs) (hbs : bs ≠ [])
    (holds : ∀ xs ∈ olds, Seg m none xs none ∧ xs.length < fuel)
    (hnodup : ((bs.flatten ++ olds.flatten).map Prod.fst).Nodup) :
    ∃ tab' m', (olds.map first).foldlM (fun s p => rehashLoop bs.length fuel p s.1 s.2) (tab, m) =
        .ok (tab', m') ∧
      Chained tab' m' (olds.flatten.foldl (Buckets.push zcPlace) bs) ∧
      ∀ a, (m' a).isSome = (m a).isSome := by
  induction olds generalizing tab m bs with
  | nil => exact ⟨tab, m, rfl, h, fun _ => rfl⟩
  | cons xs olds ih =>
    rw [List.flatten_cons, ← List.append_assoc, List.map_append] at hnodup
    obtain ⟨hfront, -, hdisj⟩ := List.nodup_append.mp hnodup
    obtain ⟨hseg, hfuel⟩ := holds xs List.mem_cons_self
    obtain ⟨tab₁, m₁, hloop, hchained₁, hoff₁, hlive₁⟩ :=
      rehashLoop_chained h hbs hseg hfront hfuel
    have hperm : ((xs.foldl (Buckets.push zcPlace) bs).flatten.map Prod.fst).Perm
        ((bs.flatten ++ xs).map Prod.fst) := (Buckets.foldl_push_perm hbs xs).map Prod.fst
    have holds₁ : ∀ ys ∈ olds, Seg m₁ none ys none ∧ ys.length < fuel := by
      intro ys hys
      obtain ⟨hseg', hfuel'⟩ := holds ys (List.mem_cons_of_mem xs hys)
      refine ⟨hseg'.congr fun a ha => hoff₁ a fun hmem => ?_, hfuel'⟩
      exact hdisj a hmem a (mem_entries hys ha) rfl
    have hnodup₁ : (((xs.foldl (Buckets.push zcPlace) bs).flatten ++ olds.flatten).map
        Prod.fst).Nodup := by
      rw [List.map_append]
      exact (hperm.append_right _).nodup_iff.mpr hnodup
    obtain ⟨tab₂, m₂, hfold, hchained₂, hlive₂⟩ :=
      ih hchained₁ (Buckets.foldl_push_ne_nil hbs xs) holds₁ hnodup₁
    rw [Buckets.length_foldl_push] at hfold
    refine ⟨tab₂, m₂, ?_, ?_, fun a => (hlive₂ a).trans (hlive₁ a)⟩
    · rw [List.map_cons, List.foldlM_cons, hloop, ok_bind, hfold]
    · rw [List.flatten_cons, List.foldl_append]
      exact hchained₂

end TsmVm
