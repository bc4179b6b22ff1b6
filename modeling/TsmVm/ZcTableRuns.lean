import TsmVm.ZcTables
import TsmVm.Lib.Lts

/-!
# The hash table is a dictionary

Calls are made in any order, with memory given or refused to each of them. A table
answers them as a dictionary does: what is found under a key is what the last
`zc_hashtable_put` under an equal key has stored, unless it was removed since. The
keys and values handed over with a call that succeeds are the table's to delete, and
it deletes each of them once.
-/

namespace TsmVm

open Dictionary

variable {κ ν : Type}

/-- A call of a function, with what `fm_calloc` returns to it. -/
inductive ZcCall (κ ν : Type)
  | put (aKey : κ) (aValue : Option ν) (tabGiven : Bool) (cell : Option ℕ)
  | get (aKey : κ)
  | getEntry (aKey : κ)
  | remove (aKey : Option κ)
  | clean
  | foreach

/-- What a call returns. -/
inductive ZcAnswer (κ ν : Type)
  | rc (rc : ℤ)
  | value (value : Option ν)
  /-- The key and the value of an entry, if it is not `NULL`. -/
  | entry (entry : Option (κ × Option ν))
  /-- The keys and values of the entries of a loop. -/
  | pairs (pairs : List (κ × Option ν))
  | done

/-- What a call does to the table, and what it returns. -/
def ZcCall.run (f : ZcFns κ) (fuel : ℕ) :
    ZcCall κ ν → ZcHashtable κ ν → Res (ZcHashtable κ ν × ZcAnswer κ ν)
  | .put aKey aValue tabGiven cell, t => do
    let (t, rc) ← t.put f fuel tabGiven cell aKey aValue
    return (t, .rc rc)
  | .get aKey, t => return (t, .value (← t.get f fuel aKey))
  | .getEntry aKey, t => do
    match ← t.getEntry f fuel aKey with
    | none => return (t, .entry none)
    | some p =>
      let e ← entryAt t.entries p
      return (t, .entry (some (e.item.key, e.item.value)))
  | .remove aKey, t => return (← t.remove f fuel aKey, .done)
  | .clean, t => return (← t.clean f fuel, .done)
  | .foreach, t => return (t, .pairs (← t.foreach fuel))

/-- `fm_calloc` returns memory that is not an entry. -/
def ZcCall.Fresh (c : ZcCall κ ν) (t : ZcHashtable κ ν) : Prop :=
  ∀ aKey aValue tabGiven p, c = .put aKey aValue tabGiven (some p) → t.entries p = none

/-- A table of a given size under calls of its functions, with a round of a loop for
every entry and one to see the end. -/
def zcTables (f : ZcFns κ) (aSize : ℕ) :
    Lts.System (ZcHashtable κ ν) (ZcCall κ ν × ZcAnswer κ ν) where
  init t := ZcHashtable.new aSize true true = some t
  step t label t' := label.1.Fresh t ∧ label.1.run f (t.nelem + 1) t = .ok (t', label.2)

/-- The answers of a dictionary, and what it is after them. -/
inductive ZcDictStep (f : ZcFns κ) :
    Dict κ (Option ν) → ZcCall κ ν × ZcAnswer κ ν → Dict κ (Option ν) → Prop
  | put {D : Dict κ (Option ν)} {aKey : κ} {aValue : Option ν} {tabGiven : Bool}
      {cell : Option ℕ} :
      ZcDictStep f D (.put aKey aValue tabGiven cell, .rc 0) (write f.equal D aKey aValue)
  /-- A new key may be refused for want of memory, not a key that is there. -/
  | putFailed {D : Dict κ (Option ν)} {aKey : κ} {aValue : Option ν} {tabGiven : Bool}
      {cell : Option ℕ} : D aKey = none → tabGiven = false ∨ cell = none →
      ZcDictStep f D (.put aKey aValue tabGiven cell, .rc (-1)) D
  | get {D : Dict κ (Option ν)} {aKey : κ} :
      ZcDictStep f D (.get aKey, .value ((D aKey).bind Prod.snd)) D
  | getEntry {D : Dict κ (Option ν)} {aKey : κ} :
      ZcDictStep f D (.getEntry aKey, .entry (D aKey)) D
  | remove {D : Dict κ (Option ν)} {aKey : κ} :
      ZcDictStep f D (.remove (some aKey), .done) (erase f.equal D aKey)
  | removeNull {D : Dict κ (Option ν)} : ZcDictStep f D (.remove none, .done) D
  | clean {D : Dict κ (Option ν)} : ZcDictStep f D (.clean, .done) fun _ => none
  | foreach {D : Dict κ (Option ν)} {l : List (κ × Option ν)} : Lists f.equal l D →
      ZcDictStep f D (.foreach, .pairs l) D

/-- Dictionaries under the same calls. -/
def zcDicts (f : ZcFns κ) : Lts.System (Dict κ (Option ν)) (ZcCall κ ν × ZcAnswer κ ν) where
  init D := D = fun _ => none
  step := ZcDictStep f

/-- The pairs a call hands over to the table: those of a `zc_hashtable_put` that
returns 0. -/
def handedOver : ZcCall κ ν × ZcAnswer κ ν → List (κ × Option ν)
  | (.put aKey aValue _ _, .rc 0) => [(aKey, aValue)]
  | _ => []

/-- The table stands for the dictionary. -/
structure ZcHolds (f : ZcFns κ) (t : ZcHashtable κ ν) (D : Dict κ (Option ν))
    (l : List (κ × Option ν)) : Prop where
  stored : ∃ bs, ZcStored f t bs ∧ zcPairs bs.flatten = l
  lists : Lists f.equal l D

variable {f : ZcFns κ} {t t' : ZcHashtable κ ν} {D : Dict κ (Option ν)} {k : κ} {v : Option ν}
  {l l' : List (κ × Option ν)} {fuel : ℕ}

/-- A pair comes and the one under an equal key goes. -/
theorem ZcChange.write (hf : f.Lawful) (h : ZcChange f t t' l l' (D k).toList [(k, v)])
    (hD : Lists f.equal l D) : Lists f.equal l' (write f.equal D k v) := by
  obtain ⟨rest, hbefore, hafter⟩ := h.pairs
  cases hk : D k with
  | none =>
    rw [hk] at hbefore
    exact ((hD.perm hf.toEquality hbefore).add hk).perm hf.toEquality hafter.symm
  | some w =>
    rw [hk] at hbefore
    have hw : f.equal k w.1 = true := by
      rw [hD.find] at hk
      exact List.find?_some (p := fun w : κ × Option ν => f.equal k w.1) hk
    exact ((hD.perm hf.toEquality hbefore).replace hf.toEquality hw).perm hf.toEquality hafter.symm

/-- The pair under an equal key goes. -/
theorem ZcChange.erase (hf : f.Lawful) (h : ZcChange f t t' l l' (D k).toList [])
    (hD : Lists f.equal l D) : Lists f.equal l' (erase f.equal D k) := by
  obtain ⟨rest, hbefore, hafter⟩ := h.pairs
  cases hk : D k with
  | none =>
    rw [hk] at hbefore
    rw [erase_of_none hf.toEquality hD hk]
    exact (hD.perm hf.toEquality hbefore).perm hf.toEquality hafter.symm
  | some w =>
    rw [hk] at hbefore
    have hw : f.equal k w.1 = true := by
      rw [hD.find] at hk
      exact List.find?_some (p := fun w : κ × Option ν => f.equal k w.1) hk
    exact ((hD.perm hf.toEquality hbefore).remove hf.toEquality hw).perm hf.toEquality hafter.symm

/-- Nothing goes and nothing comes. -/
theorem ZcChange.lists (hf : f.Lawful) (h : ZcChange f t t' l l' [] [])
    (hD : Lists f.equal l D) : Lists f.equal l' D := by
  obtain ⟨rest, hbefore, hafter⟩ := h.pairs
  exact (hD.perm hf.toEquality hbefore).perm hf.toEquality hafter.symm

namespace ZcHolds

theorem put (hf : f.Lawful) (h : ZcHolds f t D l) (hfuel : t.nelem < fuel) (tabGiven : Bool)
    {cell : Option ℕ} (hcell : ∀ p, cell = some p → t.entries p = none) (k : κ) (v : Option ν) :
    ∃ t' rc D' l' gone, t.put f fuel tabGiven cell k v = .ok (t', rc) ∧ ZcHolds f t' D' l' ∧
      ZcDictStep f D (.put k v tabGiven cell, .rc rc) D' ∧
      ZcChange f t t' l l' gone (handedOver (.put k v tabGiven cell, .rc rc)) := by
  obtain ⟨⟨bs, hstored, rfl⟩, hD⟩ := h
  cases hk : D k with
  | none =>
    obtain ⟨t', bs', rc, hput, hstored', ⟨rfl, hchange⟩ | ⟨rfl, hfail, hchange⟩⟩ :=
      hstored.put_miss hf hfuel hD hk tabGiven hcell v
    · have hD' := ZcChange.write hf (by rw [hk]; exact hchange) hD
      exact ⟨t', 0, _, _, _, hput, ⟨⟨bs', hstored', rfl⟩, hD'⟩, .put, hchange⟩
    · exact ⟨t', -1, D, _, _, hput, ⟨⟨bs', hstored', rfl⟩, hchange.lists hf hD⟩,
        .putFailed hk hfail, hchange⟩
  | some w =>
    obtain ⟨t', bs', hput, hstored', hchange⟩ :=
      hstored.put_hit hf hfuel hD hk tabGiven cell v
    have hD' := ZcChange.write hf (by rw [hk]; exact hchange) hD
    exact ⟨t', 0, _, _, _, hput, ⟨⟨bs', hstored', rfl⟩, hD'⟩, .put, hchange⟩

theorem remove (hf : f.Lawful) (h : ZcHolds f t D l) (hfuel : t.nelem < fuel) (aKey : Option κ) :
    ∃ t' D' l' gone, t.remove f fuel aKey = .ok t' ∧ ZcHolds f t' D' l' ∧
      ZcDictStep f D (.remove aKey, .done) D' ∧ ZcChange f t t' l l' gone [] := by
  cases aKey with
  | none => exact ⟨t, D, l, [], rfl, h, .removeNull, .none .rfl rfl rfl id⟩
  | some k =>
    obtain ⟨⟨bs, hstored, rfl⟩, hD⟩ := h
    cases hk : D k with
    | none =>
      have hget := hstored.getEntry hf hfuel k
      rw [ZcStored.find_none hD hk] at hget
      have hremove : t.remove f fuel (some k) = .ok t := by
        simp only [ZcHashtable.remove]
        rw [hget]
        rfl
      have hsame : ZcChange f t t (zcPairs bs.flatten) (zcPairs bs.flatten) (D k).toList [] := by
        rw [hk]
        exact .none .rfl rfl rfl id
      have hD' := ZcChange.erase hf hsame hD
      exact ⟨t, _, _, [], hremove, ⟨⟨bs, hstored, rfl⟩, hD'⟩, .remove, .none .rfl rfl rfl id⟩
    | some w =>
      obtain ⟨t', bs', hremove, hstored', hchange⟩ := hstored.remove_hit hf hfuel hD hk
      have hD' := ZcChange.erase hf (by rw [hk]; exact hchange) hD
      exact ⟨t', _, _, _, hremove, ⟨⟨bs', hstored', rfl⟩, hD'⟩, .remove, hchange⟩

theorem clean (h : ZcHolds f t D l) (hfuel : t.nelem < fuel) :
    ∃ t' gone, t.clean f fuel = .ok t' ∧ ZcHolds f t' (fun _ => none) [] ∧
      ZcChange f t t' l [] gone [] := by
  obtain ⟨⟨bs, hstored, rfl⟩, -⟩ := h
  obtain ⟨t', bs', hclean, hstored', hempty, hchange⟩ := hstored.clean hfuel
  exact ⟨t', _, hclean, ⟨⟨bs', hstored', hempty⟩, lists_nil f.equal⟩, hempty ▸ hchange⟩

theorem getEntry (hf : f.Lawful) (h : ZcHolds f t D l) (hfuel : t.nelem < fuel) (k : κ) :
    (ZcCall.getEntry k).run f fuel t = .ok (t, .entry (D k)) := by
  obtain ⟨⟨bs, hstored, rfl⟩, hD⟩ := h
  have hget := hstored.getEntry hf hfuel k
  simp only [ZcCall.run]
  cases hk : D k with
  | none =>
    rw [ZcStored.find_none hD hk] at hget
    rw [hget]
    rfl
  | some w =>
    obtain ⟨x, hx, hfind, -, rfl⟩ := ZcStored.find_some hD hk
    obtain ⟨c, hread, hitem⟩ := hstored.entryAt hx
    rw [hfind, Option.map_some] at hget
    rw [hget, ok_bind]
    simp only [hread, ok_bind, hitem]
    rfl

/-- A call does what it does to the dictionary, and what it hands over is kept or
deleted. -/
theorem step (hf : f.Lawful) (h : ZcHolds f t D l) {c : ZcCall κ ν} (hfresh : c.Fresh t)
    (hfuel : t.nelem < fuel) :
    ∃ t' ans D' l' gone, c.run f fuel t = .ok (t', ans) ∧ ZcHolds f t' D' l' ∧
      ZcDictStep f D (c, ans) D' ∧ ZcChange f t t' l l' gone (handedOver (c, ans)) := by
  cases c with
  | put k v tabGiven cell =>
    obtain ⟨t', rc, D', l', gone, hput, h', hstep, hchange⟩ :=
      h.put hf hfuel tabGiven (fun p hp => hfresh k v tabGiven p (congrArg _ hp)) k v
    refine ⟨t', .rc rc, D', l', gone, ?_, h', hstep, hchange⟩
    rw [ZcCall.run, hput]
    rfl
  | get k =>
    obtain ⟨bs, hstored, rfl⟩ := h.stored
    refine ⟨t, _, D, _, [], ?_, h, .get, .none .rfl rfl rfl id⟩
    rw [ZcCall.run, hstored.get hf hfuel h.lists]
    rfl
  | getEntry k => exact ⟨t, _, D, l, [], h.getEntry hf hfuel k, h, .getEntry, .none .rfl rfl rfl id⟩
  | remove aKey =>
    obtain ⟨t', D', l', gone, hremove, h', hstep, hchange⟩ := h.remove hf hfuel aKey
    refine ⟨t', .done, D', l', gone, ?_, h', hstep, hchange⟩
    rw [ZcCall.run, hremove]
    rfl
  | clean =>
    obtain ⟨t', gone, hclean, h', hchange⟩ := h.clean hfuel
    refine ⟨t', .done, _, _, gone, ?_, h', .clean, hchange⟩
    rw [ZcCall.run, hclean]
    rfl
  | foreach =>
    obtain ⟨bs, hstored, rfl⟩ := h.stored
    refine ⟨t, _, D, _, [], ?_, h, .foreach h.lists, .none .rfl rfl rfl id⟩
    rw [ZcCall.run, hstored.foreach hfuel]
    rfl

/-- A new table is empty. -/
theorem new {aSize : ℕ} (hsize : aSize ≠ 0) (hnew : ZcHashtable.new aSize true true = some t) :
    ZcHolds f t (fun _ => none) [] := by
  obtain rfl := Option.some.inj hnew
  have hempty : (List.replicate aSize ([] : List (ℕ × ZcItem κ ν))).flatten = [] :=
    List.flatten_replicate_nil ..
  refine ⟨⟨List.replicate aSize [], ⟨⟨?_, fun xs hxs => ?_, ?_⟩, ?_, ?_, ?_,
    Buckets.placed_replicate _ _, ?_⟩, ?_⟩, lists_nil f.equal⟩
  · rw [List.map_replicate, Chains.first_nil]
  · rw [(List.mem_replicate.mp hxs).2]
    trivial
  · rw [hempty]
    exact List.nodup_nil
  · simpa using hsize
  · simp
  · simp
  · rw [hempty]
    rfl
  · rw [hempty]
    rfl

/-- What was handed over is in the table or was deleted. -/
structure Conserved (f : ZcFns κ) (t : ZcHashtable κ ν) (l handed : List (κ × Option ν)) :
    Prop where
  keys : if f.keyDel then (handed.map Prod.fst).Perm (t.keysDeleted ++ l.map Prod.fst)
    else t.keysDeleted = []
  values : if f.valueDel then (handed.map Prod.snd).Perm (t.valuesDeleted ++ l.map Prod.snd)
    else t.valuesDeleted = []
  load : t.Loaded

/-- What a call takes in adds to what is kept and deleted. -/
theorem perm_exchange {ω ε : Type*} (g : ω → ε) {handed gone added rest kept kept' : List ω}
    {deleted : List ε} (h : (handed.map g).Perm (deleted ++ kept.map g))
    (hbefore : kept.Perm (gone ++ rest)) (hafter : kept'.Perm (added ++ rest)) :
    ((handed ++ added).map g).Perm ((deleted ++ gone.map g) ++ kept'.map g) := by
  have hmoved : (deleted ++ (gone ++ rest).map g ++ added.map g).Perm
      ((deleted ++ gone.map g) ++ kept'.map g) := by
    rw [List.map_append, ← List.append_assoc deleted, List.append_assoc (deleted ++ gone.map g),
      ← List.map_append]
    exact ((List.perm_append_comm.trans hafter.symm).map g).append_left _
  rw [List.map_append]
  exact ((h.trans ((hbefore.map g).append_left deleted)).append_right (added.map g)).trans hmoved

/-- A call keeps account. -/
theorem Conserved.step {handed gone added : List (κ × Option ν)} (h : Conserved f t l handed)
    (hchange : ZcChange f t t' l l' gone added) : Conserved f t' l' (handed ++ added) := by
  obtain ⟨rest, hbefore, hafter⟩ := hchange.pairs
  refine ⟨?_, ?_, hchange.load h.load⟩
  · have hkeys := h.keys
    rw [hchange.keys]
    cases hf : f.keyDel with
    | true =>
      rw [hf, if_pos rfl] at hkeys
      exact perm_exchange Prod.fst hkeys hbefore hafter
    | false =>
      rw [hf] at hkeys
      rw [show t.keysDeleted = [] from hkeys]
      rfl
  · have hvalues := h.values
    rw [hchange.values]
    cases hf : f.valueDel with
    | true =>
      rw [hf, if_pos rfl] at hvalues
      exact perm_exchange Prod.snd hvalues hbefore hafter
    | false =>
      rw [hf] at hvalues
      rw [show t.valuesDeleted = [] from hvalues]
      rfl

/-- A new table has nothing to account for. -/
theorem Conserved.new {aSize : ℕ} (hnew : ZcHashtable.new aSize true true = some t) :
    Conserved f t [] [] := by
  obtain rfl := Option.some.inj hnew
  refine ⟨?_, ?_, Nat.zero_le _⟩
  · cases f.keyDel
    · rfl
    · exact .rfl
  · cases f.valueDel
    · rfl
    · exact .rfl

/-- A run of a table is one of the dictionary it stands for, and it keeps account. -/
theorem run (hf : f.Lawful) {aSize : ℕ} (hsize : aSize ≠ 0)
    {ls : List (ZcCall κ ν × ZcAnswer κ ν)}
    (hnew : ZcHashtable.new aSize true true = some t)
    (hrun : Lts.Run (zcTables f aSize) t ls t') :
    ∃ D l, Lts.Run (zcDicts f) (fun _ => none) ls D ∧ ZcHolds f t' D l ∧
      Conserved f t' l (ls.flatMap handedOver) := by
  induction hrun with
  | nil => exact ⟨_, _, Lts.Run.nil, .new hsize hnew, .new hnew⟩
  | @snoc t₁ t₂ ls label _ hstep ih =>
    obtain ⟨D, l, hrun', h₁, hconserved⟩ := ih
    obtain ⟨hfresh, hcall⟩ := hstep
    obtain ⟨t₂', ans, D', l', gone, hcall', h₂, hdict, hchange⟩ :=
      h₁.step hf hfresh (Nat.lt_succ_self _)
    rw [hcall] at hcall'
    obtain ⟨rfl, rfl⟩ := Prod.mk.inj (Except.ok.inj hcall')
    refine ⟨D', l', Lts.Run.snoc hrun' hdict, h₂, ?_⟩
    rw [List.flatMap_append, List.flatMap_singleton]
    exact hconserved.step hchange

end ZcHolds

/-- **The hash table.** Whatever calls are made in turn, with memory given or refused,
the table returns from each of them, answers it as the dictionary of the calls before
does, holds as many entries as it counts, and is never fuller than its load factor
allows. -/
theorem hashtable_refines {f : ZcFns κ} (hf : f.Lawful) {aSize : ℕ} (hsize : aSize ≠ 0)
    {t₀ t : ZcHashtable κ ν} {ls : List (ZcCall κ ν × ZcAnswer κ ν)}
    (hnew : ZcHashtable.new aSize true true = some t₀)
    (hrun : Lts.Run (zcTables f aSize) t₀ ls t) :
    ∃ D l, Lts.Run (zcDicts f) (fun _ => none) ls D ∧ Lists f.equal l D ∧ t.nelem = l.length ∧
      10 * t.nelem ≤ 13 * t.tab.length + 10 ∧
      ∀ c : ZcCall κ ν, c.Fresh t → ∀ fuel, t.nelem < fuel →
        ∃ t' ans D', c.run f fuel t = .ok (t', ans) ∧ ZcDictStep f D (c, ans) D' := by
  obtain ⟨D, l, hdict, h, hconserved⟩ := ZcHolds.run hf hsize hnew hrun
  obtain ⟨bs, hstored, hl⟩ := h.stored
  refine ⟨D, l, hdict, h.lists, ?_, hconserved.load, fun c hfresh fuel hfuel => ?_⟩
  · rw [hstored.count, ← hl, zcPairs, List.length_map]
  · obtain ⟨t', ans, D', l', gone, hcall, -, hstep, -⟩ := h.step hf hfresh hfuel
    exact ⟨t', ans, D', hcall, hstep⟩

/-- The functions of a table with strings for keys and values of its own. -/
def stringFns : ZcFns (List UInt8) := ⟨zcHashtableStrHash, zcHashtableStrEqual, false, true⟩

theorem stringFns_lawful : stringFns.Lawful where
  refl k := beq_self_eq_true k
  symm h := beq_iff_eq.mpr (beq_iff_eq.mp h).symm
  trans h h' := beq_iff_eq.mpr ((beq_iff_eq.mp h).trans (beq_iff_eq.mp h'))
  hash h := congrArg zcHashtableStrHash (beq_iff_eq.mp h)

/-- Three strings in a table of one place, which the last of them doubles. -/
def threeStrings : List (ZcCall (List UInt8) ℕ × ZcAnswer (List UInt8) ℕ) :=
  [(.put [97] (some 1) true (some 8), .rc 0), (.put [98] (some 2) true (some 9), .rc 0),
    (.put [99] (some 3) true (some 10), .rc 0), (.put [98] (some 4) false none, .rc 0),
    (.get [98], .value (some 4))]

theorem threeStrings_run : ∃ t, Lts.Run (zcTables stringFns 1)
    ⟨0, [none], fun _ => none, [], []⟩ threeStrings t ∧ t.tab.length = 2 := by
  have hfresh {t : ZcHashtable (List UInt8) ℕ} {k : List UInt8} {v : Option ℕ} {g : Bool} {p : ℕ}
      (hp : t.entries p = none) : (ZcCall.put k v g (some p)).Fresh t := by
    rintro _ _ _ q hq
    cases hq
    exact hp
  refine ⟨_, .cons ⟨hfresh rfl, rfl⟩ (.cons ⟨hfresh rfl, rfl⟩ (.cons ⟨hfresh rfl, rfl⟩
    (.cons ⟨?_, rfl⟩ (.single ⟨?_, rfl⟩)))), rfl⟩
  · rintro _ _ _ q hq
    cases hq
  · rintro _ _ _ q hq
    cases hq

theorem hashtable_refines_three : ∃ t D l,
    Lts.Run (zcDicts stringFns) (fun _ => none) threeStrings D ∧ Lists stringFns.equal l D ∧
      t.nelem = l.length ∧ 10 * t.nelem ≤ 13 * t.tab.length + 10 ∧
      ∀ c : ZcCall (List UInt8) ℕ, c.Fresh t → ∀ fuel, t.nelem < fuel →
        ∃ t' ans D', c.run stringFns fuel t = .ok (t', ans) ∧
          ZcDictStep stringFns D (c, ans) D' := by
  obtain ⟨t, hrun, -⟩ := threeStrings_run
  exact ⟨t, hashtable_refines stringFns_lawful one_ne_zero rfl hrun⟩

/-- **Nothing is lost.** When `zc_hashtable_del` ends the life of a table, no entry of
it is left in memory, and the keys and the values that were handed over in its life
were each deleted once, or never where the table has no function for it. -/
theorem hashtable_deletes_once {f : ZcFns κ} (hf : f.Lawful) {aSize : ℕ} (hsize : aSize ≠ 0)
    {t₀ t : ZcHashtable κ ν} {ls : List (ZcCall κ ν × ZcAnswer κ ν)}
    (hnew : ZcHashtable.new aSize true true = some t₀)
    (hrun : Lts.Run (zcTables f aSize) t₀ ls t) :
    ∃ t', t.del f (t.nelem + 1) = .ok t' ∧ (∀ a, t'.entries a = none) ∧
      t'.keysDeleted.Perm (if f.keyDel then (ls.flatMap handedOver).map Prod.fst else []) ∧
      t'.valuesDeleted.Perm (if f.valueDel then (ls.flatMap handedOver).map Prod.snd else []) := by
  obtain ⟨D, l, -, h, hconserved⟩ := ZcHolds.run hf hsize hnew hrun
  obtain ⟨bs, hstored, rfl⟩ := h.stored
  obtain ⟨t', hdel, hfree, -, hkeys, hvalues⟩ := hstored.del (Nat.lt_succ_self _)
  refine ⟨t', hdel, hfree, ?_, ?_⟩
  · have hkept := hconserved.keys
    rw [hkeys]
    cases hf : f.keyDel with
    | true =>
      rw [hf, if_pos rfl] at hkept
      exact hkept.symm
    | false =>
      rw [hf] at hkept
      rw [show t.keysDeleted = [] from hkept]
      exact .rfl
  · have hkept := hconserved.values
    rw [hvalues]
    cases hf : f.valueDel with
    | true =>
      rw [hf, if_pos rfl] at hkept
      exact hkept.symm
    | false =>
      rw [hf] at hkept
      rw [show t.valuesDeleted = [] from hkept]
      exact .rfl

theorem hashtable_deletes_once_three : ∃ t t' : ZcHashtable (List UInt8) ℕ,
    t.del stringFns (t.nelem + 1) = .ok t' ∧ (∀ a, t'.entries a = none) ∧
      t'.keysDeleted.Perm [] ∧ t'.valuesDeleted.Perm [some 1, some 2, some 3, some 4] := by
  obtain ⟨t, hrun, -⟩ := threeStrings_run
  exact ⟨t, hashtable_deletes_once stringFns_lawful one_ne_zero rfl hrun⟩

end TsmVm
