import TsmVm.ZcHashtable

/-!
# What the hash table keeps

A table in memory stores the entries of its buckets: each lies in the place its
hash gives, `nelem` counts them and no other entry is left in memory. Every
function keeps this, and what it does to the pairs stored is said by the pairs
that leave the table and those that come to it.
-/

namespace TsmVm

open Chains

variable {κ ν : Type}

/-- What a table asks of its hash and its comparison. -/
structure ZcFns.Lawful (f : ZcFns κ) : Prop extends Dictionary.Equality f.equal where
  /-- Equal keys have the same hash. -/
  hash : ∀ {k k'}, f.equal k k' = true → f.hash k = f.hash k'

/-- The keys and values of entries. -/
def zcPairs (l : List (ℕ × ZcItem κ ν)) : List (κ × Option ν) :=
  l.map fun x => (x.2.key, x.2.value)

/-- The table holds the entries of these buckets and no others. -/
structure ZcStored (f : ZcFns κ) (t : ZcHashtable κ ν) (bs : List (List (ℕ × ZcItem κ ν))) : Prop
    extends Chained t.tab t.entries bs where
  sized : bs ≠ []
  /-- No entry is left outside the table. -/
  live : ∀ a, (t.entries a).isSome ↔ a ∈ bs.flatten.map Prod.fst
  /-- An entry keeps the hash of its key. -/
  hashed : ∀ x ∈ bs.flatten, x.2.hashKey = f.hash x.2.key
  placed : Buckets.Placed zcPlace bs
  count : t.nelem = bs.flatten.length

/-- At most 1.3 entries for a place, and one more. -/
def ZcHashtable.Loaded (t : ZcHashtable κ ν) : Prop := 10 * t.nelem ≤ 13 * t.tab.length + 10

/-- From one table to another, the pairs `gone` have left, by `key_del` and
`value_del` where there are such, and the pairs `added` have come. -/
structure ZcChange (f : ZcFns κ) (t t' : ZcHashtable κ ν) (l l' gone added : List (κ × Option ν)) :
    Prop where
  pairs : ∃ rest, l.Perm (gone ++ rest) ∧ l'.Perm (added ++ rest)
  keys : t'.keysDeleted = t.keysDeleted ++ if f.keyDel then gone.map Prod.fst else []
  values : t'.valuesDeleted = t.valuesDeleted ++ if f.valueDel then gone.map Prod.snd else []
  load : t.Loaded → t'.Loaded

variable {f : ZcFns κ} {t : ZcHashtable κ ν} {D : Dictionary.Dict κ (Option ν)} {fuel : ℕ}
  {bs pre post : List (List (ℕ × ZcItem κ ν))} {l xs ys : List (ℕ × ZcItem κ ν)}
  {x : ℕ × ZcItem κ ν} {k : κ} {v : Option ν}

/-- Nothing leaves and nothing comes. -/
theorem ZcChange.none {t' : ZcHashtable κ ν} {l l' : List (κ × Option ν)} (hperm : l'.Perm l)
    (hkeys : t'.keysDeleted = t.keysDeleted) (hvalues : t'.valuesDeleted = t.valuesDeleted)
    (hload : t.Loaded → t'.Loaded) : ZcChange f t t' l l' [] [] where
  pairs := ⟨l, .rfl, hperm⟩
  keys := by rw [hkeys, List.map_nil, ite_self, List.append_nil]
  values := by rw [hvalues, List.map_nil, ite_self, List.append_nil]
  load := hload

theorem release_keysDeleted (f : ZcFns κ) (t : ZcHashtable κ ν) (e : ZcItem κ ν) :
    (t.release f e).keysDeleted = t.keysDeleted ++ if f.keyDel then [e.key] else [] := by
  rw [ZcHashtable.release]
  cases f.keyDel
  · exact (List.append_nil _).symm
  · rfl

theorem release_valuesDeleted (f : ZcFns κ) (t : ZcHashtable κ ν) (e : ZcItem κ ν) :
    (t.release f e).valuesDeleted = t.valuesDeleted ++ if f.valueDel then [e.value] else [] := by
  rw [ZcHashtable.release]
  cases f.valueDel
  · exact (List.append_nil _).symm
  · rfl

/-- The entries of a bucket and of the others. -/
theorem flatten_bucket :
    (pre ++ (xs ++ x :: ys) :: post).flatten =
      (pre.flatten ++ xs) ++ x :: (ys ++ post.flatten) := by
  simp

/-- A piece of a bucket in front of all other entries. -/
theorem flatten_bucket_perm (zs : List (ℕ × ZcItem κ ν)) :
    (pre ++ (xs ++ zs ++ ys) :: post).flatten.Perm
      (zs ++ (pre.flatten ++ xs ++ (ys ++ post.flatten))) := by
  have hcomm : (pre.flatten ++ xs ++ zs ++ (ys ++ post.flatten)).Perm
      (zs ++ (pre.flatten ++ xs) ++ (ys ++ post.flatten)) :=
    List.perm_append_comm.append_right _
  simpa only [List.flatten_append, List.flatten_cons, List.append_assoc] using hcomm

/-- The pairs with those of a piece of a bucket in front. -/
theorem zcPairs_bucket (zs : List (ℕ × ZcItem κ ν)) :
    (zcPairs (pre ++ (xs ++ zs ++ ys) :: post).flatten).Perm
      (zcPairs zs ++ zcPairs (pre.flatten ++ xs ++ (ys ++ post.flatten))) := by
  rw [zcPairs, zcPairs, zcPairs, ← List.map_append]
  exact (flatten_bucket_perm zs).map _

/-- The pairs with that of one entry in front. -/
theorem zcPairs_entry :
    (zcPairs (pre ++ (xs ++ x :: ys) :: post).flatten).Perm
      ((x.2.key, x.2.value) :: zcPairs (pre.flatten ++ xs ++ (ys ++ post.flatten))) := by
  rw [flatten_bucket]
  exact List.perm_middle.map _

/-- An entry lies somewhere in one of the buckets. -/
theorem exists_bucket_of_mem (hx : x ∈ bs.flatten) :
    ∃ pre xs ys post, bs = pre ++ (xs ++ x :: ys) :: post := by
  obtain ⟨zs, hzs, hmem⟩ := List.mem_flatten.mp hx
  obtain ⟨pre, post, rfl⟩ := List.append_of_mem hzs
  obtain ⟨xs, ys, rfl⟩ := List.append_of_mem hmem
  exact ⟨pre, xs, ys, post, rfl⟩

/-- What is found for a key is what its entry holds. -/
theorem find?_zcPairs (f : ZcFns κ) (k : κ) (l : List (ℕ × ZcItem κ ν)) :
    (zcPairs l).find? (fun w => f.equal k w.1) =
      (l.find? fun x => f.equal k x.2.key).map fun x => (x.2.key, x.2.value) :=
  List.find?_map ..

namespace ZcStored

/-- The entry at an address of the table. -/
theorem entryAt (h : ZcStored f t bs) (hx : x ∈ bs.flatten) :
    ∃ c, TsmVm.entryAt t.entries x.1 = .ok c ∧ c.item = x.2 := by
  obtain ⟨xs, hxs, hmem⟩ := List.mem_flatten.mp hx
  obtain ⟨c, hc, hitem⟩ := Option.map_eq_some_iff.mp ((h.chains xs hxs).node hmem)
  exact ⟨c, entryAt_eq hc, hitem⟩

/-- `zc_hashtable_get_entry` finds the entry with an equal key wherever it is. -/
theorem getEntry (h : ZcStored f t bs) (hf : f.Lawful) (hfuel : t.nelem < fuel) (k : κ) :
    t.getEntry f fuel k =
      .ok ((bs.flatten.find? fun x => f.equal k x.2.key).map Prod.fst) := by
  have hlength : t.tab.length = bs.length := by rw [h.heads, List.length_map]
  obtain ⟨pre, xs, post, rfl, hi⟩ := Buckets.exists_bucket h.sized (f.hash k).toNat
  have hshort : xs.length < fuel := by
    refine Nat.lt_of_le_of_lt ?_ hfuel
    rw [h.count, List.flatten_append, List.flatten_cons, List.length_append, List.length_append]
    omega
  have hplace : ∀ x ∈ (pre ++ xs :: post).flatten, f.equal k x.2.key = true →
      zcPlace x = (f.hash k).toNat := by
    intro x hx heq
    rw [zcPlace, h.hashed x hx, hf.hash heq]
  have htab : tabAt t.tab pre.length = .ok (first xs) := by
    rw [h.heads]
    exact tabAt_split
  rw [ZcHashtable.getEntry, hlength, ← hi, htab, ok_bind,
    findLoop_seg (h.chains xs (by simp)) k hshort, h.placed.find? hi hplace]

/-- The entry found for a key that is stored. -/
theorem find_some (hD : Dictionary.Lists f.equal (zcPairs bs.flatten) D)
    {w : κ × Option ν} (hw : D k = some w) :
    ∃ x ∈ bs.flatten, bs.flatten.find? (fun x => f.equal k x.2.key) = some x ∧
      f.equal k x.2.key = true ∧ w = (x.2.key, x.2.value) := by
  rw [hD.find, find?_zcPairs, Option.map_eq_some_iff] at hw
  obtain ⟨x, hx, rfl⟩ := hw
  exact ⟨x, List.mem_of_find?_eq_some hx, hx, List.find?_some (p := fun x : ℕ × ZcItem κ ν =>
    f.equal k x.2.key) hx, rfl⟩

theorem find_none (hD : Dictionary.Lists f.equal (zcPairs bs.flatten) D) (hk : D k = none) :
    bs.flatten.find? (fun x => f.equal k x.2.key) = none := by
  rwa [hD.find, find?_zcPairs, Option.map_eq_none_iff] at hk

/-- `zc_hashtable_get` returns the value stored under the key. -/
theorem get (h : ZcStored f t bs) (hf : f.Lawful) (hfuel : t.nelem < fuel)
    (hD : Dictionary.Lists f.equal (zcPairs bs.flatten) D) (k : κ) :
    t.get f fuel k = .ok ((D k).bind Prod.snd) := by
  rw [ZcHashtable.get, h.getEntry hf hfuel, ok_bind]
  cases hk : D k with
  | none =>
    rw [find_none hD hk]
    rfl
  | some w =>
    obtain ⟨x, hx, hfind, -, rfl⟩ := find_some hD hk
    obtain ⟨c, hread, hitem⟩ := h.entryAt hx
    rw [hfind]
    simp only [Option.map_some, hread, ok_bind, hitem]
    rfl

/-- An entry for which there is room elsewhere comes to its place. -/
theorem insert (h : ZcStored f t bs) {p : ℕ} (hp : t.entries p = none) (k : κ) (v : Option ν) :
    ∃ tab m bs', insertFirst t.tab
          (Function.update t.entries p (some ⟨none, none, ⟨f.hash k, k, v⟩⟩)) p
          ((f.hash k).toNat % t.tab.length) = .ok (tab, m) ∧
      ZcStored f { t with nelem := t.nelem + 1, tab := tab, entries := m } bs' ∧
      bs'.flatten.Perm ((p, ⟨f.hash k, k, v⟩) :: bs.flatten) ∧ tab.length = t.tab.length := by
  have hlength : t.tab.length = bs.length := by rw [h.heads, List.length_map]
  have hoff : p ∉ bs.flatten.map Prod.fst := by
    rw [← h.live, hp]
    simp
  have hchained : Chained t.tab
      (Function.update t.entries p (some ⟨none, none, ⟨f.hash k, k, v⟩⟩)) bs :=
    h.toChained.congr fun a ha => by
      rw [Function.update_of_ne]
      rintro rfl
      exact hoff ha
  obtain ⟨tab, m, hinsert, hchained', hframe, hlive⟩ :=
    hchained.insertFirst h.sized (Function.update_self ..) hoff
  have hperm : (Buckets.push zcPlace bs (p, ⟨f.hash k, k, v⟩)).flatten.Perm
      ((p, ⟨f.hash k, k, v⟩) :: bs.flatten) := Buckets.push_flatten_perm h.sized _
  refine ⟨tab, m, _, ?_, ⟨hchained', Buckets.push_ne_nil h.sized, fun a => ?_, fun x hx => ?_,
    h.placed.push h.sized _, ?_⟩, hperm, ?_⟩
  · rw [hlength]
    exact hinsert
  · rw [(hperm.map Prod.fst).mem_iff, List.map_cons, List.mem_cons]
    change (m a).isSome ↔ _
    rw [hlive]
    by_cases hap : a = p
    · subst hap
      simp
    · rw [Function.update_of_ne hap, h.live]
      exact ⟨.inr, fun hor => hor.resolve_left hap⟩
  · rcases List.mem_cons.mp (hperm.mem_iff.mp hx) with rfl | hx
    · rfl
    · exact h.hashed x hx
  · change t.nelem + 1 = _
    rw [hperm.length_eq, List.length_cons, h.count]
  · rw [hchained'.heads, List.length_map, Buckets.length_push, hlength]

/-- `zc_hashtable_rehash` moves every entry to its place among twice as many. -/
theorem rehash (h : ZcStored f t bs) (hfuel : t.nelem < fuel) :
    ∃ t' bs', t.rehash fuel true = .ok (t', 0) ∧ ZcStored f t' bs' ∧
      bs'.flatten.Perm bs.flatten ∧ t'.nelem = t.nelem ∧ t'.keysDeleted = t.keysDeleted ∧
      t'.valuesDeleted = t.valuesDeleted ∧ (∀ a, (t'.entries a).isSome = (t.entries a).isSome) ∧
      t'.tab.length = 2 * t.tab.length := by
  have hlength : t.tab.length = bs.length := by rw [h.heads, List.length_map]
  have hsize : 2 * bs.length ≠ 0 := by
    have := List.length_pos_iff.mpr h.sized
    omega
  have hempty : Chained (List.replicate (2 * bs.length) none) t.entries
      (List.replicate (2 * bs.length) ([] : List (ℕ × ZcItem κ ν))) := by
    refine ⟨?_, fun xs hxs => ?_, ?_⟩
    · rw [List.map_replicate, first_nil]
    · rw [(List.mem_replicate.mp hxs).2]
      trivial
    · rw [List.flatten_replicate_nil]
      exact List.nodup_nil
  have hchains : ∀ xs ∈ bs, Seg t.entries none xs none ∧ xs.length < fuel := by
    intro xs hxs
    refine ⟨h.chains xs hxs, Nat.lt_of_le_of_lt ?_ hfuel⟩
    rw [h.count]
    exact (List.sublist_flatten_of_mem hxs).length_le
  obtain ⟨tab, m, hfold, hchained, hlive⟩ := rehash_chained hempty (by simpa using hsize) hchains
    (by rw [List.flatten_replicate_nil, List.nil_append]; exact h.nodup)
  have hperm : (Buckets.spread zcPlace (2 * bs.length) bs.flatten).flatten.Perm bs.flatten :=
    Buckets.spread_perm hsize bs.flatten
  have htab : tab.length = 2 * bs.length := by
    rw [hchained.heads, List.length_map]
    exact Buckets.length_spread _ _
  refine ⟨{ t with tab := tab, entries := m },
    Buckets.spread zcPlace (2 * bs.length) bs.flatten, ?_, ⟨hchained, ?_, ?_, ?_, ?_, ?_⟩, hperm,
    rfl, rfl, rfl, hlive, ?_⟩
  · rw [List.length_replicate] at hfold
    rw [ZcHashtable.rehash, if_neg (by simp), hlength, h.heads]
    simp only [hfold, ok_bind]
    rfl
  · rw [← List.length_pos_iff, Buckets.length_spread]
    omega
  · intro a
    rw [(hperm.map Prod.fst).mem_iff, ← h.live]
    change (m a).isSome ↔ _
    rw [hlive]
  · exact fun x hx => h.hashed x (hperm.mem_iff.mp hx)
  · exact Buckets.placed_spread hsize bs.flatten
  · rw [hperm.length_eq]
    exact h.count
  · rw [hlength]
    exact htab

/-- The table with an entry exchanged or taken out: `zs` is what stands in its place. -/
theorem exchange (h : ZcStored f t (pre ++ (xs ++ x :: ys) :: post))
    {zs : List (ℕ × ZcItem κ ν)} {t' : ZcHashtable κ ν} (hone : zs.length ≤ 1)
    (hzs : ∀ z ∈ zs, z.1 = x.1 ∧ z.2.hashKey = x.2.hashKey ∧ z.2.hashKey = f.hash z.2.key)
    (htab : t'.tab = (pre ++ (xs ++ zs ++ ys) :: post).map first)
    (hseg : Seg t'.entries none (xs ++ zs ++ ys) none)
    (hoff : ∀ a, a ≠ x.1 → a ∉ xs.map Prod.fst → a ∉ ys.map Prod.fst →
      t'.entries a = t.entries a)
    (hlive : ∀ a, (t'.entries a).isSome ↔
      a ∈ zs.map Prod.fst ∨ a ≠ x.1 ∧ (t.entries a).isSome)
    (hcount : t'.nelem + 1 = t.nelem + zs.length) :
    ZcStored f t' (pre ++ (xs ++ zs ++ ys) :: post) := by
  have hnew : (pre ++ (xs ++ zs ++ ys) :: post).flatten.Perm
      (zs ++ (pre.flatten ++ xs ++ (ys ++ post.flatten))) := flatten_bucket_perm zs
  have hold : (pre ++ (xs ++ x :: ys) :: post).flatten.Perm
      (x :: (pre.flatten ++ xs ++ (ys ++ post.flatten))) := by
    rw [flatten_bucket]
    exact List.perm_middle
  have hsame : ∀ a, a ∈ zs.map Prod.fst → a = x.1 := by
    intro a ha
    obtain ⟨z, hz, rfl⟩ := List.mem_map.mp ha
    exact (hzs z hz).1
  have hnodup := (hold.map Prod.fst).nodup_iff.mp h.nodup
  rw [List.map_cons, List.nodup_cons] at hnodup
  have hmem : ∀ a, a ∈ (pre.flatten ++ xs ++ (ys ++ post.flatten)).map Prod.fst ↔
      a ≠ x.1 ∧ (t.entries a).isSome := by
    intro a
    rw [h.live, (hold.map Prod.fst).mem_iff, List.map_cons, List.mem_cons]
    constructor
    · rintro ha
      exact ⟨fun hax => hnodup.1 (hax ▸ ha), .inr ha⟩
    · rintro ⟨hax, ha⟩
      exact ha.resolve_left hax
  refine ⟨h.toChained.replace htab hseg (fun a ha => ?_) ?_, by simp, fun a => ?_, fun y hy => ?_,
    h.placed.replace fun y hy => ?_, ?_⟩
  · -- the entries of the other places are off those that are stored to
    have hparts := hnodup.2
    simp only [List.map_append] at hparts
    obtain ⟨hfront, hback, hsides⟩ := List.nodup_append.mp hparts
    rw [List.flatten_append, List.map_append, List.mem_append] at ha
    have hin : a ∈ (pre.flatten ++ xs ++ (ys ++ post.flatten)).map Prod.fst := by
      simp only [List.map_append, List.mem_append]
      exact ha.elim (fun ha => .inl (.inl ha)) fun ha => .inr (.inr ha)
    rcases ha with ha | ha
    · refine hoff a ((hmem a).mp hin).1 (fun hax => ?_) fun hay => ?_
      · exact (List.nodup_append.mp hfront).2.2 a ha a hax rfl
      · exact hsides a (List.mem_append_left _ ha) a (List.mem_append_left _ hay) rfl
    · refine hoff a ((hmem a).mp hin).1 (fun hax => ?_) fun hay => ?_
      · exact hsides a (List.mem_append_right _ hax) a (List.mem_append_right _ ha) rfl
      · exact (List.nodup_append.mp hback).2.2 a hay a ha rfl
  · rw [(hnew.map Prod.fst).nodup_iff, List.map_append]
    rcases zs with _ | ⟨z, _ | _⟩
    · exact hnodup.2
    · refine List.nodup_cons.mpr ⟨?_, hnodup.2⟩
      rw [hsame z.1 (by simp)]
      exact hnodup.1
    · simp at hone
  · rw [hlive, (hnew.map Prod.fst).mem_iff, List.map_append, List.mem_append, hmem]
  · rcases List.mem_append.mp (hnew.mem_iff.mp hy) with hy | hy
    · exact (hzs y hy).2.2
    · exact h.hashed y (hold.mem_iff.mpr (List.mem_cons_of_mem x hy))
  · rw [List.append_assoc, List.mem_append, List.mem_append] at hy
    rcases hy with hy | hy | hy
    · exact h.placed.bucket (List.mem_append_left _ hy)
    · rw [zcPlace, (hzs y hy).2.1]
      exact h.placed.bucket (List.mem_append_right xs List.mem_cons_self)
    · exact h.placed.bucket (List.mem_append_right xs (List.mem_cons_of_mem x hy))
  · have hlength := h.count
    rw [hold.length_eq, List.length_cons] at hlength
    rw [hnew.length_eq, List.length_append]
    omega

/-- `zc_hashtable_put` of a key that is there overwrites it in place. -/
theorem put_hit (h : ZcStored f t bs) (hf : f.Lawful) (hfuel : t.nelem < fuel)
    (hD : Dictionary.Lists f.equal (zcPairs bs.flatten) D) {w : κ × Option ν} (hw : D k = some w)
    (tabGiven : Bool) (cell : Option ℕ) (v : Option ν) :
    ∃ t' bs', t.put f fuel tabGiven cell k v = .ok (t', 0) ∧ ZcStored f t' bs' ∧
      ZcChange f t t' (zcPairs bs.flatten) (zcPairs bs'.flatten) [w] [(k, v)] := by
  obtain ⟨x, hx, hfind, heq, rfl⟩ := find_some hD hw
  obtain ⟨c, hread, hitem⟩ := h.entryAt hx
  obtain ⟨pre, xs, ys, post, rfl⟩ := exists_bucket_of_mem hx
  have hbucket : Seg t.entries none (xs ++ x :: ys) none := h.chains _ (by simp)
  have hnodup : ((xs ++ x :: ys).map Prod.fst).Nodup := by
    refine List.Nodup.sublist ?_ h.nodup
    exact (List.sublist_flatten_of_mem (by simp)).map Prod.fst
  have hhash : x.2.hashKey = f.hash k := by rw [h.hashed x hx, hf.hash heq]
  refine ⟨{ t.release f x.2 with
      entries := setItem t.entries x.1 ⟨x.2.hashKey, k, v⟩ },
    pre ++ (xs ++ [(x.1, ⟨x.2.hashKey, k, v⟩)] ++ ys) :: post, ?_, ?_, ?_⟩
  · rw [ZcHashtable.put, h.getEntry hf hfuel, hfind, ok_bind]
    simp only [Option.map_some, hread, ok_bind, hitem]
    rfl
  · refine h.exchange (by simp) (fun z hz => ?_) ?_ ?_ (fun a hax _ _ => ?_) (fun a => ?_) ?_
    · rw [List.mem_singleton.mp hz]
      exact ⟨rfl, rfl, hhash⟩
    · refine h.heads.trans ?_
      simp only [List.map_append, List.map_cons, first_append, first_cons]
      rw [Option.or_assoc, Option.some_or]
    · rw [List.append_assoc, List.singleton_append]
      exact hbucket.setItem hnodup _
    · exact Function.update_of_ne hax _ _
    · rw [isSome_setItem, List.map_singleton, List.mem_singleton]
      by_cases hax : a = x.1
      · rw [hax]
        exact ⟨fun _ => .inl rfl, fun _ => hbucket.isSome (by simp)⟩
      · exact ⟨fun ha => .inr ⟨hax, ha⟩, fun hor => (hor.resolve_left hax).2⟩
    · rfl
  · exact ⟨⟨zcPairs (pre.flatten ++ xs ++ (ys ++ post.flatten)), zcPairs_entry, zcPairs_bucket _⟩,
      release_keysDeleted f t x.2, release_valuesDeleted f t x.2, fun hload => hload⟩

/-- The table a new entry is put into: this one, or one with twice the places. -/
theorem makeRoom (h : ZcStored f t bs) (hfuel : t.nelem < fuel) (tabGiven : Bool) :
    (∃ t₁ bs₁, t.makeRoom fuel tabGiven = .ok (t₁, 0) ∧ ZcStored f t₁ bs₁ ∧
        bs₁.flatten.Perm bs.flatten ∧ t₁.keysDeleted = t.keysDeleted ∧
        t₁.valuesDeleted = t.valuesDeleted ∧
        (∀ a, (t₁.entries a).isSome = (t.entries a).isSome) ∧
        (t.Loaded → 10 * t₁.nelem ≤ 13 * t₁.tab.length)) ∨
      t.makeRoom fuel tabGiven = .ok (t, -1) ∧ tabGiven = false := by
  rw [ZcHashtable.makeRoom]
  by_cases hfull : 13 * t.tab.length < 10 * t.nelem
  · rw [if_pos hfull]
    cases tabGiven with
    | false => exact .inr ⟨rfl, rfl⟩
    | true =>
      obtain ⟨t₁, bs₁, hrehash, h₁, hperm, hnelem, hkeys, hvalues, hlive, hsize⟩ := h.rehash hfuel
      refine .inl ⟨t₁, bs₁, hrehash, h₁, hperm, hkeys, hvalues, hlive, fun hload => ?_⟩
      have hpos : 0 < t.tab.length := by
        rw [h.heads, List.length_map]
        exact List.length_pos_iff.mpr h.sized
      rw [ZcHashtable.Loaded] at hload
      rw [hnelem, hsize]
      omega
  · rw [if_neg hfull]
    exact .inl ⟨t, bs, rfl, h, .rfl, rfl, rfl, fun _ => rfl, fun _ => by omega⟩

/-- `zc_hashtable_put` of a new key adds an entry, unless memory for it is refused. -/
theorem put_miss (h : ZcStored f t bs) (hf : f.Lawful) (hfuel : t.nelem < fuel)
    (hD : Dictionary.Lists f.equal (zcPairs bs.flatten) D) (hk : D k = none) (tabGiven : Bool)
    {cell : Option ℕ} (hcell : ∀ p, cell = some p → t.entries p = none) (v : Option ν) :
    ∃ t' bs' rc, t.put f fuel tabGiven cell k v = .ok (t', rc) ∧ ZcStored f t' bs' ∧
      (rc = 0 ∧ ZcChange f t t' (zcPairs bs.flatten) (zcPairs bs'.flatten) [] [(k, v)] ∨
        rc = -1 ∧ (tabGiven = false ∨ cell = none) ∧
          ZcChange f t t' (zcPairs bs.flatten) (zcPairs bs'.flatten) [] []) := by
  rw [ZcHashtable.put, h.getEntry hf hfuel, find_none hD hk, ok_bind]
  simp only [Option.map_none]
  rcases h.makeRoom hfuel tabGiven with ⟨t₁, bs₁, hroom, h₁, hperm, hkeys, hvalues, hlive, hload⟩ |
    ⟨hroom, hfail⟩
  · rw [hroom]
    simp only [ok_bind, ne_eq, not_true_eq_false, if_false]
    cases cell with
    | none =>
      refine ⟨t₁, bs₁, -1, rfl, h₁, .inr ⟨rfl, .inr rfl, .none (hperm.map _) hkeys hvalues ?_⟩⟩
      exact fun hloaded => (hload hloaded).trans (Nat.le_add_right _ _)
    | some p =>
      have hp : t₁.entries p = none := by
        rw [← Option.not_isSome_iff_eq_none, hlive, hcell p rfl]
        simp
      obtain ⟨tab, m, bs', hinsert, h', hperm', hlength⟩ := h₁.insert hp k v
      refine ⟨_, bs', 0, ?_, h', .inl ⟨rfl, ⟨zcPairs bs.flatten, .rfl, ?_⟩, ?_, ?_,
        fun hloaded => ?_⟩⟩
      · simp only [hinsert, ok_bind]
        rfl
      · exact (hperm'.map _).trans ((hperm.map _).cons _)
      · rw [List.map_nil, ite_self, List.append_nil]
        exact hkeys
      · rw [List.map_nil, ite_self, List.append_nil]
        exact hvalues
      · have hroomy := hload hloaded
        change 10 * (t₁.nelem + 1) ≤ 13 * tab.length + 10
        omega
  · rw [hroom]
    exact ⟨t, bs, -1, rfl, h, .inr ⟨rfl, .inl hfail, .none .rfl rfl rfl id⟩⟩

/-- The links around an entry are joined. -/
theorem unlinkEntry (h : ZcStored f t (pre ++ (xs ++ x :: ys) :: post)) :
    TsmVm.unlinkEntry t.tab t.entries ⟨last none xs, first ys, x.2⟩ =
      .ok ((pre ++ (xs ++ ys) :: post).map first,
        setNext? (setPrev? t.entries (first ys) (last none xs)) (last none xs) (first ys)) := by
  have hbucket : Seg t.entries none (xs ++ x :: ys) none := h.chains _ (by simp)
  have hlength : t.tab.length = (pre ++ (xs ++ x :: ys) :: post).length := by
    rw [h.heads, List.length_map]
  have hplace : x.2.hashKey.toNat % t.tab.length = pre.length := by
    rw [hlength]
    exact h.placed.bucket (x := x) (by simp)
  have hback : joinPrev t.entries ⟨last none xs, first ys, x.2⟩ =
      .ok (setPrev? t.entries (first ys) (last none xs)) := by
    cases ys with
    | nil => rfl
    | cons y ys =>
      exact storeEntryPrev_eq (hbucket.isSome (by simp))
  rw [TsmVm.unlinkEntry, hback, ok_bind]
  rcases xs.eq_nil_or_concat' with rfl | ⟨xs, y, rfl⟩
  · -- the first entry of its place
    have htab : tabAt t.tab pre.length = .ok (first (([] : List (ℕ × ZcItem κ ν)) ++ x :: ys)) := by
      rw [h.heads]
      exact tabAt_split
    simp only [last, hplace, htab, ok_bind]
    rw [h.heads, List.map_append, List.map_cons, List.set_append_right _ _ (by simp),
      List.length_map, Nat.sub_self, List.set_cons_zero, List.map_append, List.map_cons]
    rfl
  · have hlive : (setPrev? t.entries (first ys) (some y.1) y.1).isSome := by
      rw [isSome_setPrev?]
      exact hbucket.isSome (by simp)
    simp only [last_concat]
    rw [storeEntryNext_eq hlive, ok_bind, h.heads]
    simp only [List.map_append, List.map_cons, first_append, first_cons, Option.some_or,
      Option.or_some]
    rfl

/-- `zc_hashtable_remove` of a key that is there takes its entry out. -/
theorem remove_hit (h : ZcStored f t bs) (hf : f.Lawful) (hfuel : t.nelem < fuel)
    (hD : Dictionary.Lists f.equal (zcPairs bs.flatten) D) {w : κ × Option ν} (hw : D k = some w) :
    ∃ t' bs', t.remove f fuel (some k) = .ok t' ∧ ZcStored f t' bs' ∧
      ZcChange f t t' (zcPairs bs.flatten) (zcPairs bs'.flatten) [w] [] := by
  obtain ⟨x, hx, hfind, -, rfl⟩ := find_some hD hw
  obtain ⟨pre, xs, ys, post, rfl⟩ := exists_bucket_of_mem hx
  have hbucket : Seg t.entries none (xs ++ x :: ys) none := h.chains _ (by simp)
  have hnodup : ((xs ++ x :: ys).map Prod.fst).Nodup := by
    refine List.Nodup.sublist ?_ h.nodup
    exact (List.sublist_flatten_of_mem (by simp)).map Prod.fst
  have hread : TsmVm.entryAt t.entries x.1 = .ok ⟨last none xs, first ys, x.2⟩ := by
    rw [entryAt_eq hbucket.entry, Option.or_none]
  refine ⟨{ t.release f x.2 with
      nelem := t.nelem - 1
      tab := (pre ++ (xs ++ ys) :: post).map first
      entries := unlink t.entries x.1 (last none xs) (first ys) },
    pre ++ (xs ++ [] ++ ys) :: post, ?_, ?_, ?_⟩
  · have hunlink := h.unlinkEntry
    simp only [ZcHashtable.remove]
    rw [h.getEntry hf hfuel, hfind, ok_bind]
    simp only [Option.map_some, hread, ok_bind]
    have hrelease : TsmVm.unlinkEntry (t.release f x.2).tab (t.release f x.2).entries
        ⟨last none xs, first ys, x.2⟩ = _ := hunlink
    rw [hrelease]
    rfl
  · refine h.exchange (by simp) (by simp) (by rw [List.append_nil]) ?_ (fun a hax hxs hys => ?_)
      (fun a => ?_) ?_
    · rw [List.append_nil]
      exact hbucket.unlink hnodup
    · refine (Function.update_of_ne hax _ _).trans ((setNext?_of_ne (last_ne hxs)).trans ?_)
      exact setPrev?_of_ne (first_ne hys)
    · change (Chains.free _ x.1 a).isSome ↔ _
      rw [Chains.free, List.map_nil]
      by_cases hax : a = x.1
      · subst hax
        simp
      · rw [Function.update_of_ne hax, isSome_setNext?, isSome_setPrev?]
        exact ⟨fun ha => .inr ⟨hax, ha⟩, fun hor => (hor.resolve_left (by simp)).2⟩
    · have hpos : t.nelem ≠ 0 := by
        rw [h.count, flatten_bucket]
        simp
      change t.nelem - 1 + 1 = t.nelem + 0
      omega
  · refine ⟨⟨zcPairs (pre.flatten ++ xs ++ (ys ++ post.flatten)), zcPairs_entry, zcPairs_bucket _⟩,
      release_keysDeleted f t x.2, release_valuesDeleted f t x.2, fun hload => ?_⟩
    rw [ZcHashtable.Loaded, h.heads] at hload
    change 10 * (t.nelem - 1) ≤ 13 * ((pre ++ (xs ++ ys) :: post).map first).length + 10
    simp only [List.length_map, List.length_append, List.length_cons] at hload ⊢
    omega

end ZcStored

/-! ## Emptying a table and going through it -/

/-- Entries are released and freed one by one. -/
def releaseAll (f : ZcFns κ) (t : ZcHashtable κ ν) (l : List (ℕ × ZcItem κ ν)) :
    ZcHashtable κ ν :=
  l.foldl (fun t x => { t.release f x.2 with entries := Chains.free t.entries x.1 }) t

theorem releaseAll_entries (f : ZcFns κ) (t : ZcHashtable κ ν) (l : List (ℕ × ZcItem κ ν))
    (a : ℕ) :
    (releaseAll f t l).entries a = if a ∈ l.map Prod.fst then none else t.entries a := by
  induction l generalizing t with
  | nil => rfl
  | cons x l ih =>
    rw [releaseAll, List.foldl_cons, ← releaseAll, ih, List.map_cons]
    by_cases hal : a ∈ l.map Prod.fst
    · rw [if_pos hal, if_pos (List.mem_cons_of_mem _ hal)]
    · rw [if_neg hal]
      by_cases hax : a = x.1
      · rw [if_pos (by rw [hax]; exact List.mem_cons_self), hax]
        exact Function.update_self ..
      · rw [if_neg (by rw [List.mem_cons, not_or]; exact ⟨hax, hal⟩)]
        exact Function.update_of_ne hax _ _

theorem releaseAll_keysDeleted (f : ZcFns κ) (t : ZcHashtable κ ν)
    (l : List (ℕ × ZcItem κ ν)) :
    (releaseAll f t l).keysDeleted =
      t.keysDeleted ++ if f.keyDel then (zcPairs l).map Prod.fst else [] := by
  induction l generalizing t with
  | nil => rw [zcPairs, List.map_nil, List.map_nil, ite_self, List.append_nil]; rfl
  | cons x l ih =>
    rw [releaseAll, List.foldl_cons, ← releaseAll, ih]
    simp only [release_keysDeleted]
    cases f.keyDel <;> simp [zcPairs]

theorem releaseAll_valuesDeleted (f : ZcFns κ) (t : ZcHashtable κ ν)
    (l : List (ℕ × ZcItem κ ν)) :
    (releaseAll f t l).valuesDeleted =
      t.valuesDeleted ++ if f.valueDel then (zcPairs l).map Prod.snd else [] := by
  induction l generalizing t with
  | nil => rw [zcPairs, List.map_nil, List.map_nil, ite_self, List.append_nil]; rfl
  | cons x l ih =>
    rw [releaseAll, List.foldl_cons, ← releaseAll, ih]
    simp only [release_valuesDeleted]
    cases f.valueDel <;> simp [zcPairs]

theorem releaseAll_tab (f : ZcFns κ) (t : ZcHashtable κ ν) (l : List (ℕ × ZcItem κ ν)) :
    (releaseAll f t l).tab = t.tab := by
  induction l generalizing t with
  | nil => rfl
  | cons x l ih => exact ih _

/-- The loop over one chain, whatever its first entry is linked back to. -/
theorem cleanLoop_seg {q : Option ℕ} (h : Seg t.entries q l none)
    (hnodup : (l.map Prod.fst).Nodup) (hfuel : l.length < fuel) :
    ZcHashtable.cleanLoop f fuel (first l) t = .ok (releaseAll f t l) := by
  obtain ⟨rounds, rfl⟩ := Nat.exists_eq_succ_of_ne_zero (Nat.ne_zero_of_lt hfuel)
  induction l generalizing q t rounds with
  | nil => rfl
  | cons x l ih =>
    obtain ⟨rounds, rfl⟩ := Nat.exists_eq_succ_of_ne_zero (n := rounds) (by
      rintro rfl
      simp at hfuel)
    obtain ⟨hx, hl⟩ := List.nodup_cons.mp hnodup
    rw [first_cons, ZcHashtable.cleanLoop, entryAt_eq h.1, ok_bind, Option.or_none]
    refine ih (h.2.congr fun a ha => Function.update_of_ne ?_ _ _) hl rounds (by simpa using hfuel)
    rintro rfl
    exact hx ha

/-- The loop over all chains. -/
theorem foldlM_cleanLoop (hchains : ∀ xs ∈ bs, Seg t.entries none xs none ∧ xs.length < fuel)
    (hnodup : (bs.flatten.map Prod.fst).Nodup) :
    (bs.map first).foldlM (fun t p => ZcHashtable.cleanLoop f fuel p t) t =
      .ok (releaseAll f t bs.flatten) := by
  induction bs generalizing t with
  | nil => rfl
  | cons xs bs ih =>
    rw [List.flatten_cons, List.map_append] at hnodup
    obtain ⟨hxs, hbs, hdisj⟩ := List.nodup_append.mp hnodup
    obtain ⟨hseg, hfuel⟩ := hchains xs List.mem_cons_self
    rw [List.map_cons, List.foldlM_cons, cleanLoop_seg hseg hxs hfuel, ok_bind, ih _ hbs,
      List.flatten_cons, releaseAll, releaseAll, releaseAll, List.foldl_append]
    intro ys hys
    obtain ⟨hseg', hfuel'⟩ := hchains ys (List.mem_cons_of_mem xs hys)
    refine ⟨hseg'.congr fun a ha => ?_, hfuel'⟩
    rw [releaseAll_entries, if_neg]
    exact fun hax => hdisj a hax a (mem_entries hys ha) rfl

theorem findSome?_first (bs : List (List (ℕ × ZcItem κ ν))) :
    (bs.map first).findSome? id = first bs.flatten := by
  induction bs with
  | nil => rfl
  | cons xs bs ih =>
    rw [List.map_cons, List.findSome?_cons, ih, List.flatten_cons, first_append]
    cases first xs <;> rfl

namespace ZcStored

theorem chains_short (h : ZcStored f t bs) (hfuel : t.nelem < fuel) :
    ∀ xs ∈ bs, Seg t.entries none xs none ∧ xs.length < fuel := by
  intro xs hxs
  refine ⟨h.chains xs hxs, Nat.lt_of_le_of_lt ?_ hfuel⟩
  rw [h.count]
  exact (List.sublist_flatten_of_mem hxs).length_le

/-- `zc_hashtable_del` releases every pair and frees every entry. -/
theorem del (h : ZcStored f t bs) (hfuel : t.nelem < fuel) :
    ∃ t', t.del f fuel = .ok t' ∧ (∀ a, t'.entries a = none) ∧
      t'.tab = t.tab ∧
      t'.keysDeleted =
        t.keysDeleted ++ (if f.keyDel then (zcPairs bs.flatten).map Prod.fst else []) ∧
      t'.valuesDeleted =
        t.valuesDeleted ++ if f.valueDel then (zcPairs bs.flatten).map Prod.snd else [] := by
  refine ⟨releaseAll f t bs.flatten, ?_, fun a => ?_, releaseAll_tab f t _,
    releaseAll_keysDeleted f t _, releaseAll_valuesDeleted f t _⟩
  · rw [ZcHashtable.del, h.heads]
    exact foldlM_cleanLoop (h.chains_short hfuel) h.nodup
  · rw [releaseAll_entries]
    split
    · rfl
    · next hout => rwa [← h.live, Option.not_isSome_iff_eq_none] at hout

/-- `zc_hashtable_clean` does so too and leaves an empty table. -/
theorem clean (h : ZcStored f t bs) (hfuel : t.nelem < fuel) :
    ∃ t' bs', t.clean f fuel = .ok t' ∧ ZcStored f t' bs' ∧ zcPairs bs'.flatten = [] ∧
      ZcChange f t t' (zcPairs bs.flatten) (zcPairs bs'.flatten) (zcPairs bs.flatten) [] := by
  obtain ⟨t₁, hdel, hfree, htab, hkeys, hvalues⟩ := h.del hfuel
  have hlength : t.tab.length = bs.length := by rw [h.heads, List.length_map]
  have hempty : (List.replicate bs.length ([] : List (ℕ × ZcItem κ ν))).flatten = [] :=
    List.flatten_replicate_nil ..
  refine ⟨{ t₁ with nelem := 0, tab := t₁.tab.map fun _ => none }, List.replicate bs.length [],
    ?_, ⟨⟨?_, fun xs hxs => ?_, ?_⟩, ?_, fun a => ?_, ?_, Buckets.placed_replicate _ _, ?_⟩, ?_, ?_⟩
  · rw [ZcHashtable.clean, ← ZcHashtable.del, hdel]
    rfl
  · change t₁.tab.map (fun _ => none) = _
    rw [htab, List.map_const', hlength, List.map_replicate, first_nil]
  · rw [(List.mem_replicate.mp hxs).2]
    trivial
  · rw [hempty]
    exact List.nodup_nil
  · rw [ne_eq, List.replicate_eq_nil_iff, List.length_eq_zero_iff]
    exact h.sized
  · change (t₁.entries a).isSome ↔ _
    rw [hfree, hempty]
    simp
  · rw [hempty]
    intro x hx
    cases hx
  · rw [hempty]
    rfl
  · rw [hempty]
    rfl
  · rw [hempty]
    refine ⟨⟨[], by rw [List.append_nil], .rfl⟩, hkeys, hvalues, fun _ => ?_⟩
    exact Nat.zero_le _

/-- From an entry `zc_hashtable_next` goes on to the one behind it. -/
theorem next (h : ZcStored f t (pre ++ (xs ++ x :: ys) :: post)) :
    t.next x.1 = .ok (first (ys ++ post.flatten)) := by
  have hbucket : Seg t.entries none (xs ++ x :: ys) none := h.chains _ (by simp)
  have hlength : t.tab.length = (pre ++ (xs ++ x :: ys) :: post).length := by
    rw [h.heads, List.length_map]
  have hplace : x.2.hashKey.toNat % t.tab.length = pre.length := by
    rw [hlength]
    exact h.placed.bucket (x := x) (by simp)
  have hrest : t.tab.drop (pre.length + 1) = post.map first := by
    rw [h.heads, List.map_append, List.map_cons, ← List.drop_drop, List.drop_left' (by simp),
      List.drop_one, List.tail_cons]
  rw [ZcHashtable.next, entryAt_eq hbucket.entry, ok_bind]
  cases ys with
  | nil =>
    simp only [first_nil, Option.none_or, hplace, hrest]
    rw [findSome?_first, List.nil_append]
    rfl
  | cons y ys => rfl

/-- One round of `zc_hashtable_foreach`. -/
theorem foreachLoop_succ (h : ZcStored f t (pre ++ (xs ++ x :: ys) :: post)) (rounds : ℕ) :
    t.foreachLoop (rounds + 1) (some x.1) = do
      let rest ← t.foreachLoop rounds (first (ys ++ post.flatten))
      return (x.2.key, x.2.value) :: rest := by
  obtain ⟨c, hread, hitem⟩ := h.entryAt (x := x) (by simp)
  rw [ZcHashtable.foreachLoop, hread, ok_bind, h.next, ok_bind, hitem]

/-- The rounds over the entries of a place and of the places behind it. -/
theorem foreachLoop (h : ZcStored f t (pre ++ (xs ++ ys) :: post)) {rounds : ℕ}
    (hrounds : (ys ++ post.flatten).length ≤ rounds) :
    t.foreachLoop (rounds + 1) (first (ys ++ post.flatten)) =
      .ok (zcPairs (ys ++ post.flatten)) := by
  induction post generalizing pre xs ys rounds with
  | nil =>
    induction ys generalizing xs rounds with
    | nil => rfl
    | cons y ys ih =>
      obtain ⟨rounds, rfl⟩ := Nat.exists_eq_succ_of_ne_zero (n := rounds) (by
        rintro rfl
        simp at hrounds)
      have hstep := h.foreachLoop_succ (rounds + 1)
      have h' : ZcStored f t (pre ++ ((xs ++ [y]) ++ ys) :: []) := by
        rwa [List.append_assoc, List.singleton_append]
      rw [ih h' (by simpa using hrounds)] at hstep
      exact hstep
  | cons zs post ihpost =>
    induction ys generalizing xs rounds with
    | nil =>
      -- the next place that is not empty
      have h' : ZcStored f t ((pre ++ [xs]) ++ ([] ++ zs) :: post) := by
        rw [List.append_nil] at h
        rwa [List.append_assoc, List.nil_append, List.singleton_append]
      exact ihpost h' hrounds
    | cons y ys ih =>
      obtain ⟨rounds, rfl⟩ := Nat.exists_eq_succ_of_ne_zero (n := rounds) (by
        rintro rfl
        simp at hrounds)
      have hstep := h.foreachLoop_succ (rounds + 1)
      have h' : ZcStored f t (pre ++ ((xs ++ [y]) ++ ys) :: zs :: post) := by
        rwa [List.append_assoc, List.singleton_append]
      rw [ih h' (by simpa using hrounds)] at hstep
      exact hstep

/-- `zc_hashtable_foreach` goes through all entries, once through each. -/
theorem foreach (h : ZcStored f t bs) (hfuel : t.nelem < fuel) :
    t.foreach fuel = .ok (zcPairs bs.flatten) := by
  obtain ⟨rounds, rfl⟩ := Nat.exists_eq_succ_of_ne_zero (Nat.ne_zero_of_lt hfuel)
  have hcount := h.count
  rw [ZcHashtable.foreach, ZcHashtable.begin, h.heads, findSome?_first]
  rcases bs with _ | ⟨xs, bs⟩
  · exact absurd rfl h.sized
  · have h' : ZcStored f t ([] ++ ([] ++ xs) :: bs) := h
    refine h'.foreachLoop ?_
    rw [List.flatten_cons] at hcount
    omega

end ZcStored

end TsmVm
