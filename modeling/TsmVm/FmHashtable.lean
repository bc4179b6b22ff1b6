import TsmVm.FmBytes

/-!
# The variable environment (`fm_hashtable.c`)

The table is taken as a correct map on NUL-terminated keys. What a map does not
show is where the text of a key lies: the table stores the caller's pointer, and
overwriting an entry frees the value it had. A key that lies in a freed value
makes every later use of the table undefined.
-/

namespace TsmVm

/-- A key as the table stores it. -/
structure Key where
  /-- The C string at the key's address. -/
  text : List UInt8
  /-- The buffer of a stored value the text lies in, if it does not lie in
  storage the table never frees. -/
  storage : Option ℕ
  deriving DecidableEq, Repr

/-- `zc_hashtable_entry_t`. -/
structure BreEntry where
  /-- The key. -/
  key : Key
  /-- The value, possibly `NULL`. -/
  value : Option FmBytes
  /-- The key's storage has been freed. -/
  dangling : Bool
  deriving DecidableEq, Repr

/-- The environment of a CCB, `bre`. -/
abbrev Bre := List BreEntry

/-- The entry stored under a text. -/
def Bre.entry? (t : Bre) (text : List UInt8) : Option BreEntry :=
  t.find? fun e => e.key.text == text

/-- The value stored under a text, the map the table stands for. -/
def Bre.lookup (t : Bre) (text : List UInt8) : Option FmBytes :=
  (t.entry? text).bind BreEntry.value

/-- No key lies in freed storage. -/
def Bre.sound (t : Bre) : Bool := t.all fun e => !e.dangling

/-- `zc_hashtable_get`. -/
def zcHashtableGet (t : Bre) (text : List UInt8) : Res (Option FmBytes) :=
  if t.sound then .ok (t.lookup text) else .error .wildAccess

/-- The key lies in the buffer of this value. -/
def Key.inside (k : Key) (value : Option FmBytes) : Bool :=
  match k.storage, value with
  | some a, some v => a == v.addr
  | _, _ => false

/-- The table after the old value of an entry has been freed. -/
def Bre.free (t : Bre) (value : Option FmBytes) : Bre :=
  t.map fun e => { e with dangling := e.dangling || e.key.inside value }

/-- `zc_hashtable_put`. -/
def zcHashtablePut (t : Bre) (key : Key) (value : Option FmBytes) : Res Bre :=
  if t.sound then
    match t.entry? key.text with
    | none => .ok (t ++ [⟨key, value, false⟩])
    | some old =>
      let t := t.map fun e => if e.key.text = key.text then ⟨key, value, false⟩ else e
      .ok (Bre.free t old.value)
  else .error .wildAccess

private theorem entry?_replace (t : Bre) (e' : BreEntry) (x : List UInt8) :
    Bre.entry? (t.map fun e => if e.key.text = e'.key.text then e' else e) x =
      if x = e'.key.text then (t.entry? x).map fun _ => e' else t.entry? x := by
  induction t with
  | nil => simp [Bre.entry?]
  | cons e t ih =>
    simp only [Bre.entry?, List.map_cons, List.find?_cons] at ih ⊢
    by_cases hsame : e.key.text = e'.key.text
    · by_cases hx : x = e'.key.text
      · simp [hsame, hx]
      · have hne : (e'.key.text == x) = false := by simpa using fun h => hx h.symm
        simpa [hsame, hx, hne] using ih
    · by_cases hex : e.key.text = x
      · have hx : ¬ x = e'.key.text := fun h => hsame (hex.trans h)
        simp [hex, hx]
      · have hne : (e.key.text == x) = false := by simpa using hex
        simpa [hsame, hne] using ih

/-- A new entry is what its key stands for. -/
theorem Bre.lookup_append {t : Bre} {e : BreEntry} (hold : t.entry? e.key.text = none)
    (x : List UInt8) :
    Bre.lookup (t ++ [e]) x = if x = e.key.text then e.value else t.lookup x := by
  unfold Bre.entry? at hold
  by_cases hx : x = e.key.text
  · subst hx
    simp [Bre.lookup, Bre.entry?, List.find?_append, hold]
  · have hne : (e.key.text == x) = false := by simpa using fun h => hx h.symm
    simp [Bre.lookup, Bre.entry?, List.find?_append, hne, hx]

/-- A replaced entry is what its key stands for. -/
theorem Bre.lookup_replace {t : Bre} {e old : BreEntry} (hold : t.entry? e.key.text = some old)
    (x : List UInt8) :
    Bre.lookup (t.map fun e' => if e'.key.text = e.key.text then e else e') x =
      if x = e.key.text then e.value else t.lookup x := by
  have hrep := entry?_replace t e x
  by_cases hx : x = e.key.text
  · subst hx
    simp only [Bre.lookup, hrep, if_true, hold, Option.map_some, Option.bind_some]
  · simp only [Bre.lookup, hrep, if_neg hx]

end TsmVm
