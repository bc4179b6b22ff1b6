import TsmVm.Concurrent

/-!
# Adding a library to a bytecode table

`ccb_add_bc` fills a new table and copies the old one and the functions of the
library into it. The helpers it uses count slots and move bytes, so at most an
eighth of either table arrives, and the functions go to a place that is counted
in slots and multiplied by the size of a slot once more.
-/

namespace TsmVm

/-- A table with two slots at least, in a block of its own. -/
structure BytecodeTable extends ByteCode where
  /-- It can grow by a half. -/
  two_le : 2 ≤ cnt
  /-- The block holds the slots. -/
  length_eq : bc.length = 8 * cnt.toNat

/-- The functions of the library join the table at its base; the other entries
stay, and what is new is reserved. -/
def AddsLibrary (e : CreateEnv) (lib : BcSet) (t : BytecodeTable) : Prop :=
  ∃ t', ccbAddBc e (some lib) t.toByteCode = .ok t' ∧
    lib.base + lib.cnt ≤ t'.cnt ∧ t.cnt ≤ t'.cnt ∧
    (∀ (i p : ℕ), lib.bc[i]? = some p → t'.slot (lib.base + i) = .ok p) ∧
    ∀ k : ℕ, k < t'.cnt → ¬ (lib.base ≤ k ∧ (k : ℤ) < lib.base + lib.cnt) →
      t'.slot k = if (k : ℤ) < t.cnt then t.slot k else .ok e.reserve

/-! ## What the new table holds -/

/-- The table grows to the end of the library, and no further than it has to. -/
theorem ccbGrow_ok {limit c : ℤ} (hc : 2 ≤ c) {rounds : ℕ} (hrounds : limit ≤ c + rounds) :
    ∃ n, ccbGrow limit rounds c = .ok n ∧ limit ≤ n ∧ c ≤ n ∧ (limit ≤ c → n = c) := by
  induction rounds generalizing c with
  | zero =>
    refine ⟨c, ?_, by omega, le_rfl, fun _ => rfl⟩
    rw [ccbGrow, if_neg (by omega)]
  | succ rounds ih =>
    rw [ccbGrow]
    by_cases hlt : c < limit
    · obtain ⟨n, hn, hlimit, hle, -⟩ := ih (c := c + c / 2) (by omega) (by omega)
      refine ⟨n, ?_, hlimit, by omega, by omega⟩
      rw [if_pos hlt, hn]
    · refine ⟨c, ?_, by omega, le_rfl, fun _ => rfl⟩
      rw [if_neg hlt]

/-- A new table of `n` slots after the first of `c` has been copied into it. -/
structure Prepared (t : BytecodeTable) (c n : ℕ) (mem : List UInt8) : Prop where
  /-- It is as large as it says. -/
  length_eq : mem.length = 8 * n
  /-- Neither the filling nor the copy has reached the end. -/
  zero : ∀ i, n + 3 ≤ i → i < 8 * n → mem[i]? = some 0
  /-- The copy is in front. -/
  front : ∀ i < c + 3, mem[i]? = t.bc[i]?

/-- The new table before the functions of the library go to it. -/
theorem ccbAddBc_eq (e : CreateEnv) (lib : BcSet) (t : BytecodeTable) :
    ∃ (n : ℕ) (mem : List UInt8), Prepared t t.cnt.toNat n mem ∧
      lib.base + lib.cnt ≤ n ∧ t.cnt.toNat ≤ n ∧ (lib.base + lib.cnt ≤ t.cnt → n = t.cnt.toNat) ∧
      ccbAddBc e (some lib) t.toByteCode = (do
        let tail ← memcpyInt (mem.drop (64 * t.cnt.toNat)) lib.bytes lib.cnt
        return { cnt := n, bc := mem.take (64 * t.cnt.toNat) ++ tail }) := by
  have htwo := t.two_le
  have hold := t.length_eq
  obtain ⟨z, hgrow, hlimit, hle, hsame⟩ := ccbGrow_ok htwo
    (show lib.base + lib.cnt ≤ t.cnt + ((lib.base + lib.cnt - t.cnt).toNat : ℕ) by omega)
  obtain ⟨n, rfl⟩ := Int.eq_ofNat_of_zero_le (show 0 ≤ z by omega)
  obtain ⟨filled, hset, hfilled, hzero⟩ := memsetInt_zeros e.reserve (n := n) (by omega)
  obtain ⟨rounds, hrounds⟩ : ∃ rounds, t.cnt.toNat = rounds + 1 :=
    Nat.exists_eq_succ_of_ne_zero (by omega)
  have hcopy : memcpyInt filled t.bc t.cnt =
      .ok (t.bc.take (t.cnt.toNat + 3) ++ filled.drop (t.cnt.toNat + 3)) := by
    unfold memcpyInt
    rw [hrounds, memcpyIntLoop_eq (by omega) (by omega)]
    simp only [List.take_zero, List.drop_zero, List.nil_append, Nat.zero_add]
  have hfront : (t.bc.take (t.cnt.toNat + 3)).length = t.cnt.toNat + 3 := by
    rw [List.length_take]
    omega
  refine ⟨n, t.bc.take (t.cnt.toNat + 3) ++ filled.drop (t.cnt.toNat + 3), ⟨?_, ?_, ?_⟩, hlimit,
    by omega, fun h => by have := hsame h; omega, ?_⟩
  · rw [List.length_append, hfront, List.length_drop]
    omega
  · intro i hi hlt
    rw [List.getElem?_append_right (by omega), hfront, List.getElem?_drop,
      show t.cnt.toNat + 3 + (i - (t.cnt.toNat + 3)) = i by omega]
    exact hzero i hi hlt
  · intro i hi
    rw [List.getElem?_append_left (by omega), List.getElem?_take_of_lt hi]
  · have hoffset : (64 * t.cnt).toNat = 64 * t.cnt.toNat := by omega
    unfold ccbAddBc
    rw [derefOption_some, ok_bind]
    dsimp only
    rw [hgrow, ok_bind, Int.toNat_natCast, hset, ok_bind, hcopy, ok_bind, hoffset]

section Joined

variable {lib : BcSet} {t : BytecodeTable} {c n : ℕ} {mem tail : List UInt8}

/-- The functions of a library are stored inside the table. -/
theorem functions_fit (hmem : Prepared t c n mem) (hne : lib.bc ≠ [])
    (h : memcpyInt (mem.drop (64 * c)) lib.bytes lib.cnt = .ok tail) :
    64 * c + lib.bc.length + 3 ≤ 8 * n := by
  have hlen := hmem.length_eq
  obtain ⟨m, hm⟩ := Nat.exists_eq_succ_of_ne_zero (List.length_pos_iff.mpr hne).ne'
  have hcnt : lib.cnt.toNat = m + 1 := by
    unfold BcSet.cnt
    omega
  unfold memcpyInt at h
  rw [hcnt] at h
  have hfits := memcpyIntLoop_fits h
  rw [List.length_drop] at hfits
  omega

/-- They leave the end of the table as it was, and what is in front of them. -/
theorem joined_zero (hmem : Prepared t c n mem)
    (h : memcpyInt (mem.drop (64 * c)) lib.bytes lib.cnt = .ok tail) {i : ℕ} (hi : n + 3 ≤ i)
    (hlt : i < 8 * n) (haway : lib.bc = [] ∨ i < 64 * c ∨ 64 * c + lib.bc.length + 3 ≤ i) :
    (mem.take (64 * c) ++ tail)[i]? = some 0 := by
  have hlen := hmem.length_eq
  have hzero := hmem.zero i hi hlt
  by_cases hempty : lib.bc = []
  · have hcnt := BcSet.cnt_of_empty hempty
    rw [hcnt] at h
    obtain rfl := Except.ok.inj h
    rwa [List.take_append_drop]
  · have haway := haway.resolve_left hempty
    have hfits := functions_fit hmem hempty h
    have hfront : (mem.take (64 * c)).length = 64 * c := by
      rw [List.length_take]
      omega
    rcases haway with hbefore | hbehind
    · rw [List.getElem?_append_left (by omega), List.getElem?_take_of_lt hbefore, hzero]
    · have hcnt : lib.cnt.toNat = lib.bc.length := Int.toNat_natCast _
      unfold memcpyInt at h
      rw [hcnt] at h
      obtain ⟨-, hdrop⟩ := memcpyIntLoop_drop h (k := lib.bc.length + 3) (by omega)
      have hback : 64 * c + (i - 64 * c) = i := by omega
      rw [List.getElem?_append_right (by omega), hfront,
        getElem?_of_drop_eq hdrop (i := i - 64 * c) (by omega), List.getElem?_drop, hback, hzero]

end Joined

/-! ## When a library joins -/

/-- A slot that is new is never `NULL` where the library joins the table. -/
theorem new_slot_ne_zero {e : CreateEnv} {lib : BcSet} {t t' : ByteCode}
    (hfunctions : ∀ (i p : ℕ), lib.bc[i]? = some p → t'.slot (lib.base + i) = .ok p)
    (hothers : ∀ k : ℕ, k < t'.cnt → ¬ (lib.base ≤ k ∧ (k : ℤ) < lib.base + lib.cnt) →
      t'.slot k = if (k : ℤ) < t.cnt then t.slot k else .ok e.reserve)
    {j : ℕ} (hnew : t.cnt ≤ j) (hj : j < t'.cnt) : t'.slot j ≠ .ok 0 := by
  intro hzero
  by_cases hin : lib.base ≤ j ∧ (j : ℤ) < lib.base + lib.cnt
  · have hi : (j - lib.base).toNat < lib.bc.length := by
      unfold BcSet.cnt at hin
      omega
    have hslot := hfunctions _ _ (List.getElem?_eq_getElem hi)
    rw [show lib.base + ((j - lib.base).toNat : ℕ) = j by omega, hzero] at hslot
    exact lib.bc_ne_zero _ (List.getElem_mem hi) (Except.ok.inj hslot).symm
  · have hslot := hothers j hj hin
    rw [if_neg (by omega), hzero] at hslot
    exact e.reserve_ne_zero (Except.ok.inj hslot).symm

/-- The library that joins a table has no functions and leaves its size. -/
theorem empty_of_addsLibrary {e : CreateEnv} {lib : BcSet} {t : BytecodeTable}
    (h : AddsLibrary e lib t) : lib.bc = [] ∧ lib.base ≤ t.cnt := by
  obtain ⟨t', hadd, -, -, hfunctions, hothers⟩ := h
  have htwo := t.two_le
  obtain ⟨n, mem, hmem, hlimit, hle, hsame, heq⟩ := ccbAddBc_eq e lib t
  rw [heq] at hadd
  obtain ⟨tail, htail, hadd⟩ := bind_eq_ok.mp hadd
  obtain rfl := Except.ok.inj hadd
  -- a slot of the new table that nothing has reached
  have hnone : ∀ j : ℕ, t.cnt.toNat ≤ j → j < n → n + 3 ≤ 8 * j →
      ¬ (lib.bc = [] ∨ 8 * j + 8 ≤ 64 * t.cnt.toNat ∨
        64 * t.cnt.toNat + lib.bc.length + 3 ≤ 8 * j) := by
    intro j hnew hj hfill haway
    refine new_slot_ne_zero hfunctions hothers (j := j) (by omega) (Int.ofNat_lt.mpr hj) ?_
    refine slot_zero fun i hi hlt => joined_zero hmem htail (by omega) (by omega) ?_
    rcases haway with hempty | hbefore | hbehind
    · exact .inl hempty
    · exact .inr (.inl (by omega))
    · exact .inr (.inr (by omega))
  have hempty : lib.bc = [] := by
    by_contra hne
    have hfits := functions_fit hmem hne htail
    have hbase : 0 ≤ lib.base := by
      obtain ⟨a, rest, hcons⟩ := List.exists_cons_of_ne_nil hne
      have hslot := hfunctions 0 a (by rw [hcons, List.getElem?_cons_zero])
      by_contra hneg
      unfold ByteCode.slot memRead at hslot
      rw [if_neg (by decide), if_neg (by omega)] at hslot
      cases hslot
    have hcount : (lib.bc.length : ℤ) ≤ n := by
      unfold BcSet.cnt at hlimit
      omega
    by_cases hlast : 64 * t.cnt.toNat + lib.bc.length + 3 ≤ 8 * (n - 1)
    · exact hnone (n - 1) (by omega) (by omega) (by omega) (.inr (.inr hlast))
    · exact hnone ((n + 10) / 8) (by omega) (by omega) (by omega) (.inr (.inl (by omega)))
  refine ⟨hempty, ?_⟩
  by_contra hbeyond
  have hcnt := BcSet.cnt_of_empty hempty
  exact hnone (n - 1) (by omega) (by omega) (by omega) (.inl hempty)

/-- A library without functions that fits leaves the first bytes of the table. -/
theorem ccbAddBc_empty (e : CreateEnv) {lib : BcSet} (t : BytecodeTable) (hempty : lib.bc = [])
    (hbase : lib.base ≤ t.cnt) :
    ∃ mem, Prepared t t.cnt.toNat t.cnt.toNat mem ∧
      ccbAddBc e (some lib) t.toByteCode = .ok { cnt := t.cnt, bc := mem } := by
  have htwo := t.two_le
  have hcnt := BcSet.cnt_of_empty hempty
  obtain ⟨n, mem, hmem, -, -, hsame, heq⟩ := ccbAddBc_eq e lib t
  obtain rfl : n = t.cnt.toNat := hsame (by omega)
  refine ⟨mem, hmem, ?_⟩
  have htail : memcpyInt (mem.drop (64 * t.cnt.toNat)) lib.bytes lib.cnt =
      .ok (mem.drop (64 * t.cnt.toNat)) := by
    rw [hcnt]
    rfl
  rw [heq, htail, ok_bind, List.take_append_drop, Int.toNat_of_nonneg (by omega)]
  rfl

/-- The new table is the old one if the end of that is zero. -/
theorem prepared_eq {t : BytecodeTable} {mem : List UInt8}
    (h : Prepared t t.cnt.toNat t.cnt.toNat mem)
    (hzero : ∀ b ∈ t.bc.drop (t.cnt.toNat + 3), b = 0) : mem = t.bc := by
  have hlen := h.length_eq
  have hold := t.length_eq
  refine List.ext_getElem? fun i => ?_
  by_cases hfront : i < t.cnt.toNat + 3
  · exact h.front i hfront
  · by_cases hlt : i < 8 * t.cnt.toNat
    · have hmem : t.bc[i] ∈ t.bc.drop (t.cnt.toNat + 3) := by
        refine List.mem_iff_getElem?.mpr ⟨i - (t.cnt.toNat + 3), ?_⟩
        rw [List.getElem?_drop, show t.cnt.toNat + 3 + (i - (t.cnt.toNat + 3)) = i by omega]
        exact List.getElem?_eq_getElem (by omega)
      rw [h.zero i (by omega) hlt, List.getElem?_eq_getElem (by omega), hzero _ hmem]
    · rw [List.getElem?_eq_none (by omega), List.getElem?_eq_none (by omega)]

/-- Bytes of a slot that reads the same. -/
theorem slot_bytes_inj {t t' : ByteCode} {k : ℕ} (hlen : 8 * k + 8 ≤ t.bc.length)
    (hlen' : 8 * k + 8 ≤ t'.bc.length) (h : t'.slot k = t.slot k) {i : ℕ} (hi : 8 * k ≤ i)
    (hlt : i < 8 * k + 8) : t'.bc[i]? = t.bc[i]? := by
  rw [slot_natCast hlen, slot_natCast hlen'] at h
  have hbytes := leValue_inj (by simp only [List.length_take, List.length_drop]; omega)
    (Except.ok.inj h)
  have hget := congrArg (fun l => l[i - 8 * k]?) hbytes
  rw [List.getElem?_take_of_lt (by omega), List.getElem?_take_of_lt (by omega),
    List.getElem?_drop, List.getElem?_drop, show 8 * k + (i - 8 * k) = i by omega] at hget
  exact hget

/-- Where the entries stay the end of the table is zero. -/
theorem zeros_of_addsLibrary {e : CreateEnv} {lib : BcSet} {t : BytecodeTable}
    (h : AddsLibrary e lib t) : ∀ b ∈ t.bc.drop (t.cnt.toNat + 3), b = 0 := by
  obtain ⟨hempty, hbase⟩ := empty_of_addsLibrary h
  obtain ⟨mem, hmem, hadd⟩ := ccbAddBc_empty e t hempty hbase
  obtain ⟨t', hadd', -, -, -, hothers⟩ := h
  obtain rfl : { cnt := t.cnt, bc := mem } = t' := Except.ok.inj (hadd.symm.trans hadd')
  have hcnt := BcSet.cnt_of_empty hempty
  have hlen := hmem.length_eq
  have hold := t.length_eq
  intro b hb
  obtain ⟨d, hd, rfl⟩ := List.mem_iff_getElem.mp hb
  rw [List.length_drop] at hd
  rw [List.getElem_drop]
  have hi : t.cnt.toNat + 3 + d < 8 * t.cnt.toNat := by omega
  -- the slot the byte is in, which nothing has joined
  have hk : 8 * ((t.cnt.toNat + 3 + d) / 8) + 8 ≤ 8 * t.cnt.toNat := by omega
  have hslot := hothers ((t.cnt.toNat + 3 + d) / 8) (by dsimp only; omega) (by omega)
  rw [if_pos (by omega)] at hslot
  have hsame := slot_bytes_inj (t := t.toByteCode) (by omega)
    (by dsimp only; omega) hslot (i := t.cnt.toNat + 3 + d) (by omega) (by omega)
  rw [hmem.zero _ (by omega) hi] at hsame
  exact (List.getElem?_eq_some_iff.mp hsame.symm).2

/-- **Adding a library.** It joins a table as it should exactly when it has no
functions and lies within the table, and the end of that is zero. -/
theorem addsLibrary_iff (e : CreateEnv) (lib : BcSet) (t : BytecodeTable) :
    AddsLibrary e lib t ↔ lib.bc = [] ∧ lib.base ≤ t.cnt ∧
      ∀ b ∈ t.bc.drop (t.cnt.toNat + 3), b = 0 := by
  constructor
  · intro h
    obtain ⟨hempty, hbase⟩ := empty_of_addsLibrary h
    exact ⟨hempty, hbase, zeros_of_addsLibrary h⟩
  · rintro ⟨hempty, hbase, hzero⟩
    have hcnt := BcSet.cnt_of_empty hempty
    obtain ⟨mem, hmem, hadd⟩ := ccbAddBc_empty e t hempty hbase
    obtain rfl := prepared_eq hmem hzero
    refine ⟨t.toByteCode, hadd, by omega, le_rfl, ?_, fun k hk _ => ?_⟩
    · intro i p hp
      rw [hempty] at hp
      cases hp
    · rw [if_pos hk]

/-- A table of two reserved slots. -/
def twoSlots : BytecodeTable :=
  { cnt := 2, bc := leBytes 8 1 ++ leBytes 8 1, two_le := le_rfl, length_eq := rfl }

/-- A library of one function. -/
def oneFunction : BcSet := { name := [], base := 0, bc := [2], bc_ne_zero := by decide }

/-- The function is stored behind the table. -/
theorem addsLibrary_fails : ¬ ∀ (e : CreateEnv) (lib : BcSet) (t : BytecodeTable),
    0 ≤ lib.base → AddsLibrary e lib t := by
  intro h
  have e : CreateEnv := ⟨1, by decide, .null, fun _ => none, fun _ => none⟩
  have hempty := (empty_of_addsLibrary (h e oneFunction twoSlots le_rfl)).1
  cases hempty

end TsmVm
