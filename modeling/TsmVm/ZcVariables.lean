import TsmVm.FmHashtable
import TsmVm.ZcTableRuns

/-!
# The variables of a CCB in the hash table

The model of the interpreter takes the variable environment as a list of entries
that is looked up by text. Here the hash table makes good for it: calls for which the
list answers, no key of it lying in freed memory, are answered alike by the table
`ccb_create_ccb` makes, and the entries `zc_hashtable_foreach` goes through are those
of the list.
-/

namespace TsmVm

open Dictionary

/-- `HASH_TABLE_DEFAULT_SIZE`. -/
def hashTableDefaultSize : ℕ := 64

/-- The functions of the table of a CCB, on the texts of its keys. -/
def breFns : ZcFns Key where
  hash k := zcHashtableStrHash k.text
  equal k k' := zcHashtableStrEqual k.text k'.text
  keyDel := false
  valueDel := true

theorem breFns_lawful : breFns.Lawful where
  refl k := beq_self_eq_true k.text
  symm h := beq_iff_eq.mpr (beq_iff_eq.mp h).symm
  trans h h' := beq_iff_eq.mpr ((beq_iff_eq.mp h).trans (beq_iff_eq.mp h'))
  hash h := congrArg zcHashtableStrHash (beq_iff_eq.mp h)

/-- The calls the interpreter makes, memory being given to them. -/
inductive BreCall
  | put (key : Key) (value : Option FmBytes) (cell : ℕ)
  | get (key : Key)

/-- A call of the functions of the table. -/
def BreCall.zcCall : BreCall → ZcCall Key FmBytes
  | .put key value cell => .put key value true (some cell)
  | .get key => .get key

/-- A call as the model of the interpreter takes it. -/
def BreCall.run : BreCall → Bre → Res (Bre × ZcAnswer Key FmBytes)
  | .put key value _, t => return (← zcHashtablePut t key value, .rc 0)
  | .get key, t => return (t, .value (← zcHashtableGet t key.text))

/-- The calls one after the other, with what they return. -/
def runBreCalls (calls : List BreCall) (t : Bre) : Res (Bre × List (ZcAnswer Key FmBytes)) :=
  calls.foldlM (fun s c => do
    let (t, ans) ← c.run s.1
    return (t, s.2 ++ [ans])) (t, [])

/-- The keys and values of a list of entries. -/
def Bre.pairs (t : Bre) : List (Key × Option FmBytes) := t.map fun e => (e.key, e.value)

variable {b b' : Bre} {D : Dict Key (Option FmBytes)} {key : Key} {value : Option FmBytes}

/-- What the list has under a text. -/
theorem Bre.entry?_eq (hD : Lists breFns.equal b.pairs D) (key : Key) :
    (b.entry? key.text).map (fun e => (e.key, e.value)) = D key := by
  rw [hD.find, Bre.pairs, List.find?_map, Bre.entry?]
  congr 2
  funext e
  exact Bool.beq_comm

/-- `zc_hashtable_get` on the list looks a key up. -/
theorem zcHashtableGet_lists (hD : Lists breFns.equal b.pairs D) {ans : Option FmBytes}
    (h : zcHashtableGet b key.text = .ok ans) : ans = (D key).bind Prod.snd := by
  rw [zcHashtableGet] at h
  split at h
  · obtain rfl := Except.ok.inj h
    rw [Bre.lookup, ← Bre.entry?_eq hD, Option.bind_map]
    rfl
  · cases h

/-- `zc_hashtable_put` on the list writes a key. -/
theorem zcHashtablePut_lists (hD : Lists breFns.equal b.pairs D)
    (h : zcHashtablePut b key value = .ok b') :
    Lists breFns.equal b'.pairs (write breFns.equal D key value) := by
  have hfind := Bre.entry?_eq hD key
  rw [zcHashtablePut] at h
  split at h
  · cases hold : b.entry? key.text with
    | none =>
      rw [hold] at h hfind
      obtain rfl := Except.ok.inj h
      have hnew : Lists breFns.equal ((key, value) :: b.pairs) _ := hD.add hfind.symm
      refine hnew.perm breFns_lawful.toEquality ?_
      rw [Bre.pairs, Bre.pairs, List.map_append]
      exact (List.perm_append_singleton _ _).symm
    | some old =>
      rw [hold] at h hfind
      obtain rfl := Except.ok.inj h
      have hreplace := hD.map_replace breFns_lawful.toEquality (v := value) (by
        rw [← hfind]
        simp)
      convert hreplace using 1
      rw [Bre.pairs, Bre.pairs, Bre.free, List.map_map, List.map_map, List.map_map]
      refine List.map_congr_left fun e _ => ?_
      by_cases he : e.key.text = key.text
      · simp [he, breFns, zcHashtableStrEqual]
      · have he' : ¬ key.text = e.key.text := fun hke => he hke.symm
        simp [he, he', breFns, zcHashtableStrEqual]
  · cases h

/-- A call with memory given to it has one answer and one outcome. -/
theorem BreCall.answer (c : BreCall) {ans ans' : ZcAnswer Key FmBytes}
    {D' : Dict Key (Option FmBytes)} (hD : Lists breFns.equal b.pairs D)
    (hrun : c.run b = .ok (b', ans)) (hstep : ZcDictStep breFns D (c.zcCall, ans') D') :
    ans' = ans ∧ Lists breFns.equal b'.pairs D' := by
  cases c with
  | put key value cell =>
    obtain ⟨b₁, hput, hrest⟩ := bind_eq_ok.mp hrun
    obtain ⟨rfl, rfl⟩ := Prod.mk.inj (Except.ok.inj hrest)
    rw [BreCall.zcCall] at hstep
    cases hstep with
    | put => exact ⟨rfl, zcHashtablePut_lists hD hput⟩
    | putFailed _ hfail => simp at hfail
  | get key =>
    obtain ⟨found, hget, hrest⟩ := bind_eq_ok.mp hrun
    obtain ⟨rfl, rfl⟩ := Prod.mk.inj (Except.ok.inj hrest)
    rw [BreCall.zcCall] at hstep
    cases hstep with
    | get => exact ⟨by rw [zcHashtableGet_lists hD hget], hD⟩

/-- A dictionary answers the calls as the list does. -/
theorem runBreCalls_answers {ls : List (ZcCall Key FmBytes × ZcAnswer Key FmBytes)}
    (hdict : Lts.Run (zcDicts breFns) (fun _ => none) ls D) {calls : List BreCall}
    (hcalls : ls.map Prod.fst = calls.map BreCall.zcCall)
    {answers : List (ZcAnswer Key FmBytes)} (hrun : runBreCalls calls [] = .ok (b, answers)) :
    ls.map Prod.snd = answers ∧ Lists breFns.equal b.pairs D := by
  induction hdict generalizing calls b answers with
  | nil =>
    obtain rfl : calls = [] := by simpa using hcalls.symm
    obtain ⟨rfl, rfl⟩ := Prod.mk.inj (Except.ok.inj hrun)
    exact ⟨rfl, lists_nil breFns.equal⟩
  | @snoc D₁ D₂ ls label _ hstep ih =>
    obtain ⟨c', ans'⟩ := label
    rw [List.map_append] at hcalls
    obtain ⟨before, last, rfl, hbefore, hlast⟩ := List.append_eq_map_iff.mp hcalls
    obtain ⟨c, rfl, rfl⟩ : ∃ c, last = [c] ∧ c.zcCall = c' := by
      rcases last with _ | ⟨c, _ | _⟩
      · simp at hlast
      · exact ⟨c, rfl, by simpa using hlast⟩
      · simp at hlast
    -- the list up to the last call, then that call
    rw [runBreCalls, List.foldlM_append] at hrun
    obtain ⟨⟨b₁, answers₁⟩, hrun₁, hrest⟩ := bind_eq_ok.mp hrun
    simp only [List.foldlM_cons, List.foldlM_nil, bind_pure] at hrest
    obtain ⟨⟨b₂, ans⟩, hcall, hrest⟩ := bind_eq_ok.mp hrest
    obtain ⟨rfl, rfl⟩ := Prod.mk.inj (Except.ok.inj hrest)
    obtain ⟨rfl, hD₁⟩ := ih hbefore.symm hrun₁
    obtain ⟨rfl, hD₂⟩ := c.answer hD₁ hcall hstep
    exact ⟨by rw [List.map_append, List.map_singleton], hD₂⟩

/-- **The variables are in the table.** Calls the list of entries answers, which it
does while no key lies in freed memory, are answered alike by the table of a CCB in
memory, and what `zc_hashtable_foreach` then goes through is what is in the list. -/
theorem bre_in_the_table {t₀ t : ZcHashtable Key FmBytes}
    {ls : List (ZcCall Key FmBytes × ZcAnswer Key FmBytes)} {calls : List BreCall}
    {answers : List (ZcAnswer Key FmBytes)}
    (hnew : ZcHashtable.new hashTableDefaultSize true true = some t₀)
    (hrun : Lts.Run (zcTables breFns hashTableDefaultSize) t₀ ls t)
    (hcalls : ls.map Prod.fst = calls.map BreCall.zcCall)
    (hbre : runBreCalls calls [] = .ok (b, answers)) :
    ls.map Prod.snd = answers ∧
      ∃ l, t.foreach (t.nelem + 1) = .ok l ∧ l.Perm b.pairs := by
  obtain ⟨D, l, hdict, h, -⟩ := ZcHolds.run breFns_lawful (by decide) hnew hrun
  obtain ⟨hanswers, hD⟩ := runBreCalls_answers hdict hcalls hbre
  obtain ⟨bs, hstored, rfl⟩ := h.stored
  refine ⟨hanswers, _, hstored.foreach (Nat.lt_succ_self _), ?_⟩
  exact h.lists.unique breFns_lawful.toEquality hD

/-- A variable that is written twice and read. -/
theorem bre_in_the_table_twice : ∃ (t : ZcHashtable Key FmBytes)
    (ls : List (ZcCall Key FmBytes × ZcAnswer Key FmBytes)),
    ls.map Prod.snd = [.rc 0, .rc 0, .value (some ⟨1, 1, 32, [2]⟩)] ∧
      ∃ l, t.foreach (t.nelem + 1) = .ok l ∧
        l.Perm (Bre.pairs [⟨⟨[97], none⟩, some ⟨1, 1, 32, [2]⟩, false⟩]) := by
  have hrun : ∃ t : ZcHashtable Key FmBytes, Lts.Run (zcTables breFns hashTableDefaultSize)
      ⟨0, List.replicate hashTableDefaultSize none, fun _ => none, [], []⟩
      [(.put ⟨[97], none⟩ (some ⟨1, 1, 16, [1]⟩) true (some 8), .rc 0),
        (.put ⟨[97], none⟩ (some ⟨1, 1, 32, [2]⟩) true (some 9), .rc 0),
        (.get ⟨[97], none⟩, .value (some ⟨1, 1, 32, [2]⟩))] t := by
    refine ⟨_, .cons ⟨?_, rfl⟩ (.cons ⟨?_, rfl⟩ (.single ⟨?_, rfl⟩))⟩
    · rintro _ _ _ q hq
      cases hq
      rfl
    · rintro _ _ _ q hq
      cases hq
      rfl
    · rintro _ _ _ q hq
      cases hq
  obtain ⟨t, hrun⟩ := hrun
  refine ⟨t, _, bre_in_the_table rfl hrun (show _ = List.map BreCall.zcCall
    [.put ⟨[97], none⟩ (some ⟨1, 1, 16, [1]⟩) 8, .put ⟨[97], none⟩ (some ⟨1, 1, 32, [2]⟩) 9,
      .get ⟨[97], none⟩] from rfl) ?_⟩
  rfl

end TsmVm
