import TsmVm.FilledBlocks
import TsmVm.FmHashtable

/-!
# Overwriting

A table that can be used can be written to. The value that is replaced is freed,
and the table can be used on where no key lies in it, the one just written
included. A clean table, with keys of its own only, stays clean.
-/

namespace TsmVm

/-- The bytes bound to a text. -/
def Bre.content (t : Bre) (x : List UInt8) : Option (List UInt8) :=
  (t.lookup x).map FmBytes.content

/-- Writing under a key frees no key. -/
def Bre.CanPut (t : Bre) (key : Key) : Prop :=
  ∀ old, t.lookup key.text = some old → key.storage ≠ some old.addr ∧
    ∀ e ∈ t, e.key.text ≠ key.text → e.key.storage ≠ some old.addr

/-- What a table is after a write. -/
structure Bre.Written (t : Bre) (key : Key) (value : Option FmBytes) (t' : Bre) : Prop where
  /-- The text is bound to the value and the others are as they were. -/
  lookup_eq : ∀ x, t'.lookup x = if x = key.text then value else t.lookup x
  /-- It can be used where no key has been freed. -/
  sound_iff : t'.sound = true ↔ t.CanPut key
  /-- It has the key, and those of the other texts. -/
  keys_iff : ∀ k, (∃ e ∈ t', e.key = k) ↔ k = key ∨ ∃ e ∈ t, e.key = k ∧ k.text ≠ key.text

theorem Bre.sound_iff {t : Bre} : t.sound = true ↔ ∀ e ∈ t, e.dangling = false := by
  simp only [Bre.sound, List.all_eq_true, Bool.not_eq_true']

/-- A table that can be used reads as the map it stands for. -/
theorem Bre.get_eq {t : Bre} (h : t.sound = true) (x : List UInt8) :
    zcHashtableGet t x = .ok (t.lookup x) :=
  if_pos h

/-- What is read is what the map holds, in a table that can be used. -/
theorem Bre.of_get {t : Bre} {x : List UInt8} {v : Option FmBytes}
    (h : zcHashtableGet t x = .ok v) : t.sound = true ∧ t.lookup x = v := by
  unfold zcHashtableGet at h
  split at h
  · exact ⟨‹_›, Except.ok.inj h⟩
  · cases h

theorem Key.inside_some (k : Key) (v : FmBytes) :
    k.inside (some v) = false ↔ k.storage ≠ some v.addr := by
  cases hstorage : k.storage <;> simp [Key.inside, hstorage]

theorem Key.inside_none (k : Key) : k.inside none = false := by
  cases hstorage : k.storage <;> simp [Key.inside, hstorage]

/-- A text no entry has is not looked up. -/
theorem Bre.entry?_eq_none {t : Bre} {x : List UInt8} :
    t.entry? x = none ↔ ∀ e ∈ t, e.key.text ≠ x := by
  simp [Bre.entry?]

/-- Adding an entry. -/
theorem Bre.Written.append {t : Bre} (h : t.sound = true) {key : Key}
    (hnew : t.entry? key.text = none) (value : Option FmBytes) :
    t.Written key value (t ++ [⟨key, value, false⟩]) where
  lookup_eq := Bre.lookup_append (e := ⟨key, value, false⟩) hnew
  sound_iff := by
    have hnone : t.lookup key.text = none := by rw [Bre.lookup, hnew, Option.bind_none]
    refine iff_of_true (Bre.sound_iff.mpr fun e he => ?_) fun old hold => ?_
    · rcases List.mem_append.mp he with he | he
      · exact Bre.sound_iff.mp h e he
      · rw [List.mem_singleton.mp he]
    · rw [hnone] at hold
      cases hold
  keys_iff := fun k => by
    have hne := Bre.entry?_eq_none.mp hnew
    constructor
    · rintro ⟨e, he, rfl⟩
      rcases List.mem_append.mp he with he | he
      · exact .inr ⟨e, he, rfl, hne e he⟩
      · exact .inl (by rw [List.mem_singleton.mp he])
    · rintro (rfl | ⟨e, he, rfl, -⟩)
      · exact ⟨_, List.mem_append_right t (List.mem_singleton_self _), rfl⟩
      · exact ⟨e, List.mem_append_left _ he, rfl⟩

/-- The keys of a table with an entry replaced and a value freed. -/
theorem Bre.mem_free_replace {t : Bre} {key : Key} {value freed : Option FmBytes}
    {e : BreEntry} :
    e ∈ Bre.free (t.map fun e => if e.key.text = key.text then ⟨key, value, false⟩ else e) freed ↔
      (e = ⟨key, value, key.inside freed⟩ ∧ ∃ e₀ ∈ t, e₀.key.text = key.text) ∨
      ∃ e₀ ∈ t, e₀.key.text ≠ key.text ∧
        e = { e₀ with dangling := e₀.dangling || e₀.key.inside freed } := by
  unfold Bre.free
  simp only [List.mem_map, exists_exists_and_eq_and]
  constructor
  · rintro ⟨e₀, he₀, rfl⟩
    by_cases htext : e₀.key.text = key.text
    · exact .inl ⟨by simp [htext], e₀, he₀, htext⟩
    · exact .inr ⟨e₀, he₀, htext, by rw [if_neg htext]⟩
  · rintro (⟨rfl, e₀, he₀, htext⟩ | ⟨e₀, he₀, htext, rfl⟩)
    · exact ⟨e₀, he₀, by simp [htext]⟩
    · exact ⟨e₀, he₀, by rw [if_neg htext]⟩

/-- Freeing a value changes nothing in the map. -/
theorem Bre.lookup_free (t : Bre) (freed : Option FmBytes) (x : List UInt8) :
    (Bre.free t freed).lookup x = t.lookup x := by
  unfold Bre.lookup Bre.entry? Bre.free
  rw [List.find?_map]
  have hsame : ((fun e : BreEntry => e.key.text == x) ∘ fun e : BreEntry =>
      { e with dangling := e.dangling || e.key.inside freed }) = fun e => e.key.text == x := rfl
  rw [hsame]
  cases t.find? fun e => e.key.text == x <;> rfl

/-- Replacing an entry. -/
theorem Bre.Written.replace {t : Bre} (h : t.sound = true) {key : Key} {old : BreEntry}
    (hold : t.entry? key.text = some old) (value : Option FmBytes) :
    t.Written key value
      (Bre.free (t.map fun e => if e.key.text = key.text then ⟨key, value, false⟩ else e)
        old.value) where
  lookup_eq := fun x => by
    rw [Bre.lookup_free]
    exact Bre.lookup_replace (e := ⟨key, value, false⟩) hold x
  sound_iff := by
    have hlookup : t.lookup key.text = old.value := by rw [Bre.lookup, hold, Option.bind_some]
    have hmem : old ∈ t := List.mem_of_find?_eq_some hold
    have htext : old.key.text = key.text := by simpa using List.find?_some hold
    have hsound := Bre.sound_iff.mp h
    rw [Bre.sound_iff]
    simp only [Bre.mem_free_replace]
    cases hvalue : old.value with
    | none =>
      refine iff_of_true ?_ fun v hv => ?_
      · rintro e (⟨rfl, -⟩ | ⟨e₀, he₀, -, rfl⟩)
        · exact key.inside_none
        · dsimp only
          rw [hsound e₀ he₀, e₀.key.inside_none, Bool.or_false]
      · rw [hlookup, hvalue] at hv
        cases hv
    | some v =>
      rw [hvalue] at hlookup
      constructor
      · intro hall v' hv'
        obtain rfl : v = v' := Option.some.inj (hlookup.symm.trans hv')
        refine ⟨(key.inside_some v).mp (hall _ (.inl ⟨rfl, old, hmem, htext⟩)),
          fun e he hne => (e.key.inside_some v).mp ?_⟩
        have hnew := hall _ (.inr ⟨e, he, hne, rfl⟩)
        simpa [hsound e he] using hnew
      · rintro hcan e (⟨rfl, -⟩ | ⟨e₀, he₀, hne, rfl⟩)
        · exact (key.inside_some v).mpr (hcan v hlookup).1
        · dsimp only
          rw [hsound e₀ he₀, (e₀.key.inside_some v).mpr ((hcan v hlookup).2 e₀ he₀ hne),
            Bool.or_false]
  keys_iff := fun k => by
    have hmem : old ∈ t := List.mem_of_find?_eq_some hold
    have htext : old.key.text = key.text := by simpa using List.find?_some hold
    simp only [Bre.mem_free_replace]
    constructor
    · rintro ⟨e, ⟨rfl, -⟩ | ⟨e₀, he₀, hne, rfl⟩, rfl⟩
      · exact .inl rfl
      · exact .inr ⟨e₀, he₀, rfl, hne⟩
    · rintro (rfl | ⟨e₀, he₀, rfl, hne⟩)
      · exact ⟨_, .inl ⟨rfl, old, hmem, htext⟩, rfl⟩
      · exact ⟨_, .inr ⟨e₀, he₀, hne, rfl⟩, rfl⟩

/-- **Writing** to a table that can be used. -/
theorem Bre.put {t : Bre} (h : t.sound = true) (key : Key) (value : Option FmBytes) :
    ∃ t', zcHashtablePut t key value = .ok t' ∧ t.Written key value t' := by
  unfold zcHashtablePut
  rw [if_pos h]
  cases hold : t.entry? key.text with
  | none => exact ⟨_, rfl, .append h hold value⟩
  | some old => exact ⟨_, rfl, .replace h hold value⟩

/-- What has been written was written to a table that can be used. -/
theorem Bre.of_put {t t' : Bre} {key : Key} {value : Option FmBytes}
    (h : zcHashtablePut t key value = .ok t') : t.sound = true ∧ t.Written key value t' := by
  have hsound : t.sound = true := by
    unfold zcHashtablePut at h
    split at h
    · assumption
    · cases h
  obtain ⟨t'', hput, hwritten⟩ := Bre.put hsound key value
  obtain rfl := Except.ok.inj (h.symm.trans hput)
  exact ⟨hsound, hwritten⟩

/-- The bytes that are bound then. -/
theorem Bre.Written.content_eq {t t' : Bre} {key : Key} {value : Option FmBytes}
    (h : t.Written key value t') (x : List UInt8) :
    t'.content x = if x = key.text then value.map FmBytes.content else t.content x := by
  unfold Bre.content
  rw [h.lookup_eq]
  split <;> rfl

/-- The values are byte strings if those before and the new one are. -/
theorem Bre.Written.values {t t' : Bre} {key : Key} {value : Option FmBytes}
    (h : t.Written key value t') (hvalue : ∀ v, value = some v → v.Valid)
    (hvalues : ∀ x v, t.lookup x = some v → v.Valid) :
    ∀ x v, t'.lookup x = some v → v.Valid := by
  intro x v hv
  rw [h.lookup_eq] at hv
  split at hv
  · exact hvalue v hv
  · exact hvalues x v hv

/-- What is looked up is in an entry. -/
theorem Bre.values_of_entries {t : Bre} (h : ∀ e ∈ t, ∀ v, e.value = some v → v.Valid) :
    ∀ x v, t.lookup x = some v → v.Valid := by
  intro x v hv
  obtain ⟨e, he, hvalue⟩ := Option.bind_eq_some_iff.mp hv
  exact h e (List.mem_of_find?_eq_some he) v hvalue

/-- Bytes and their number are read where the map holds the bytes. -/
theorem Bre.bound_iff {t : Bre} (hsound : t.sound = true)
    (hvalues : ∀ x v, t.lookup x = some v → v.Valid) {x bs : List UInt8} {n : ℤ}
    (hn : (bs.length : ℤ) = n) :
    (∃ v, zcHashtableGet t x = .ok (some v) ∧ v.content = bs ∧ v.leng = n) ↔
      t.content x = some bs := by
  unfold Bre.content
  rw [Bre.get_eq hsound]
  constructor
  · rintro ⟨v, hv, hbytes, -⟩
    rw [Except.ok.inj hv, Option.map_some, hbytes]
  · intro hbytes
    obtain ⟨v, hv, hbytes⟩ := Option.map_eq_some_iff.mp hbytes
    have hleng := (hvalues x v hv).length_content
    refine ⟨v, by rw [hv], hbytes, ?_⟩
    rw [hbytes] at hleng
    omega

/-! ## Tables that never free a key -/

/-- All keys lie in storage the table never frees. -/
def Bre.Clean (t : Bre) : Prop := ∀ e ∈ t, e.key.storage = none ∧ e.dangling = false

theorem Bre.Clean.nil : Bre.Clean [] := by simp [Bre.Clean]

/-- A clean table can be used. -/
theorem Bre.Clean.isSound {t : Bre} (h : t.Clean) : t.sound = true :=
  Bre.sound_iff.mpr fun e he => (h e he).2

/-- Reading a clean table reads the map it stands for. -/
theorem Bre.Clean.get {t : Bre} (h : t.Clean) (text : List UInt8) :
    zcHashtableGet t text = Except.ok (t.lookup text) :=
  Bre.get_eq h.isSound text

/-- Writing to a clean table under a key of its own storage succeeds, keeps the
table clean and changes the map it stands for at that key only. -/
theorem Bre.Clean.put {t : Bre} (h : t.Clean) (key : Key) (hkey : key.storage = none)
    (value : Option FmBytes) :
    ∃ t', zcHashtablePut t key value = Except.ok t' ∧ t'.Clean ∧
      ∀ x, t'.lookup x = if x = key.text then value else t.lookup x := by
  obtain ⟨t', hput, hwritten⟩ := Bre.put h.isSound key value
  have hcan : t.CanPut key := by
    intro old _
    refine ⟨by rw [hkey]; exact nofun, fun e he _ => ?_⟩
    rw [(h e he).1]
    exact nofun
  refine ⟨t', hput, fun e he => ⟨?_, ?_⟩, hwritten.lookup_eq⟩
  · obtain hnew | ⟨e₀, he₀, hold, -⟩ := (hwritten.keys_iff e.key).mp ⟨e, he, rfl⟩
    · rw [hnew, hkey]
    · rw [← hold, (h e₀ he₀).1]
  · exact Bre.sound_iff.mp (hwritten.sound_iff.mpr hcan) e he

end TsmVm
