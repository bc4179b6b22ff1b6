import TsmVm.FmUtil

/-!
# Arrays of pointers and the bulk helpers

`memset_int` and `memcpy_int` are handed a number of pointers, but move on by a byte and
store an `int` each time. Of `n` pointers they write the first `n + 3` bytes and nothing
else, and `memset_int` leaves the low byte of the value everywhere but in its last word.
-/

namespace TsmVm

/-- The memory of an array of pointers. -/
def pointerBytes (ps : List UInt64) : List UInt8 := ps.flatMap fun p => leBytes 8 p.toNat

section Bulk

variable {n : ℕ}

/-- `memcpy_int` turns the pointers at `dst` into those at `src`. What lies behind the two
arrays does not matter, and what lies behind the first stays. -/
def CopiesPointers (dst src : Vector UInt64 n) : Prop :=
  ∀ behind behind', memcpyInt (pointerBytes dst.toList ++ behind)
    (pointerBytes src.toList ++ behind') n = .ok (pointerBytes src.toList ++ behind)

/-- `memset_int` turns every pointer of an array into `v`, and leaves what lies behind. -/
def SetsPointers (mem : Vector UInt64 n) (v : UInt64) : Prop :=
  ∀ behind, memsetInt (pointerBytes mem.toList ++ behind) v.toNat n =
    .ok (pointerBytes (List.replicate n v) ++ behind)

end Bulk

/-! ## The bytes of an array -/

/-- A pointer is eight bytes. -/
theorem length_pointerBytes (ps : List UInt64) : (pointerBytes ps).length = 8 * ps.length := by
  induction ps with
  | nil => rfl
  | cons p ps ih =>
    rw [pointerBytes, List.flatMap_cons, List.length_append, leBytes_length, ← pointerBytes, ih,
      List.length_cons]
    omega

/-- The bytes of one pointer. -/
theorem pointerBytes_slot {ps : List UInt64} {i : ℕ} {p : UInt64} (h : ps[i]? = some p) :
    ((pointerBytes ps).drop (8 * i)).take 8 = leBytes 8 p.toNat := by
  induction ps generalizing i with
  | nil => cases h
  | cons q ps ih =>
    rw [pointerBytes, List.flatMap_cons, ← pointerBytes]
    cases i with
    | zero =>
      obtain rfl := Option.some.inj h
      exact List.take_left' (leBytes_length 8 _)
    | succ i =>
      have hskip : 8 * (i + 1) = (leBytes 8 q.toNat).length + 8 * i := by
        rw [leBytes_length]
        omega
      rw [hskip, List.drop_length_add_append]
      exact ih h

/-- Pointers with the same bytes are the same. -/
theorem leBytes_toNat_inj {p q : UInt64} (h : leBytes 8 p.toNat = leBytes 8 q.toNat) : p = q := by
  have hlow : ∀ r : UInt64, r.toNat % 256 ^ 8 = r.toNat := fun r => Nat.mod_eq_of_lt r.toNat_lt
  have hvalue := congrArg leValue h
  rw [leValue_leBytes, leValue_leBytes, hlow, hlow] at hvalue
  exact UInt64.toNat_inj.mp hvalue

/-- Where the ends of two arrays are the same bytes, the pointers there are the same. -/
theorem pointer_eq_of_drop_eq {ps qs : List UInt64} {i k : ℕ} {p q : UInt64}
    (h : (pointerBytes ps).drop k = (pointerBytes qs).drop k) (hk : k ≤ 8 * i)
    (hp : ps[i]? = some p) (hq : qs[i]? = some q) : p = q := by
  have hdrop := congrArg (List.drop (8 * i - k)) h
  rw [List.drop_drop, List.drop_drop, Nat.add_sub_cancel' hk] at hdrop
  apply leBytes_toNat_inj
  rw [← pointerBytes_slot hp, ← pointerBytes_slot hq, hdrop]

/-- The bytes of one pointer over and over. -/
theorem getElem?_pointerBytes_replicate {n i : ℕ} (v : UInt64) (hi : i < 8 * n) :
    (pointerBytes (List.replicate n v))[i]? = (leBytes 8 v.toNat)[i % 8]? := by
  induction n generalizing i with
  | zero => omega
  | succ n ih =>
    have hlen := leBytes_length 8 v.toNat
    rw [List.replicate_succ, pointerBytes, List.flatMap_cons, ← pointerBytes]
    by_cases hfirst : i < 8
    · rw [List.getElem?_append_left (by omega), Nat.mod_eq_of_lt hfirst]
    · rw [List.getElem?_append_right (by omega), hlen, ih (by omega),
        ← Nat.mod_eq_sub_mod (by omega)]

/-! ## What the helpers leave there -/

/-- A part of a list that is repeated behind a byte, at least once, is that byte alone. -/
theorem replicate_append_take_iff {as : List UInt8} {b : UInt8} {m k : ℕ} (hm : 1 ≤ m)
    (hlen : m + k ≤ as.length) :
    List.replicate m b ++ as.take k = as.take (m + k) ↔ ∀ i < m + k, as[i]? = some b := by
  constructor
  · intro h i
    -- behind the repeated bytes each is the one `m` places before
    induction i using Nat.strong_induction_on with
    | h i ih =>
      intro hi
      have hat : as[i]? = (List.replicate m b ++ as.take k)[i]? := by
        rw [h, List.getElem?_take_of_lt hi]
      rw [hat]
      by_cases hfront : i < m
      · rw [List.getElem?_append_left (by rwa [List.length_replicate]), List.getElem?_replicate,
          if_pos hfront]
      · rw [List.getElem?_append_right (by rw [List.length_replicate]; omega),
          List.length_replicate, List.getElem?_take_of_lt (by omega)]
        exact ih (i - m) (by omega) (by omega)
  · intro h
    have hall : as.take (m + k) = List.replicate (m + k) b := by
      refine List.eq_replicate_iff.mpr ⟨List.length_take_of_le hlen, fun a ha => ?_⟩
      obtain ⟨i, hi⟩ := List.mem_iff_getElem?.mp ha
      have hlt : i < m + k := by
        by_contra hge
        rw [List.getElem?_take_eq_none (by omega)] at hi
        cases hi
      rw [List.getElem?_take_of_lt hlt, h i hlt] at hi
      exact (Option.some.inj hi).symm
    have hword : as.take k = List.replicate k b := by
      have htake := congrArg (List.take k) hall
      rwa [List.take_take, List.take_replicate, Nat.min_eq_left (by omega)] at htake
    rw [hall, hword, List.replicate_append_replicate]

section Bulk

variable {n : ℕ} {dst src : Vector UInt64 n} {v : UInt64}

/-- Of `n` pointers `memcpy_int` copies the first `n + 3` bytes. -/
theorem memcpyInt_pointers (dst src : Vector UInt64 n) (behind behind' : List UInt8) :
    memcpyInt (pointerBytes dst.toList ++ behind) (pointerBytes src.toList ++ behind') n =
      .ok ((pointerBytes src.toList).take (n + 3) ++ (pointerBytes dst.toList).drop (n + 3) ++
        behind) := by
  have hdst := length_pointerBytes dst.toList
  have hsrc := length_pointerBytes src.toList
  rw [Vector.length_toList] at hdst hsrc
  cases n with
  | zero =>
    rw [List.length_eq_zero_iff.mp hdst, List.length_eq_zero_iff.mp hsrc]
    rfl
  | succ m =>
    unfold memcpyInt
    rw [Int.toNat_natCast, memcpyIntLoop_eq (by rw [List.length_append]; omega)
      (by rw [List.length_append]; omega)]
    simp only [List.take_zero, List.drop_zero, List.nil_append, Nat.zero_add]
    rw [List.take_append_of_le_length (by omega), List.drop_append_of_le_length (by omega),
      List.append_assoc]

/-- `memset_int` sets the first `n + 3` bytes, all but the last word to the low byte. -/
theorem memsetInt_pointers {m : ℕ} (mem : Vector UInt64 (m + 1)) (v : UInt64)
    (behind : List UInt8) :
    memsetInt (pointerBytes mem.toList ++ behind) v.toNat (m + 1 : ℕ) =
      .ok (List.replicate m (UInt8.ofNat (v.toNat % 256)) ++ (leBytes 8 v.toNat).take 4 ++
        (pointerBytes mem.toList).drop (m + 4) ++ behind) := by
  have hmem := length_pointerBytes mem.toList
  rw [Vector.length_toList] at hmem
  -- the pointer is cut to an `int`
  have hcut : u32 v.toNat = v.toNat % 256 ^ 4 := by
    unfold u32
    omega
  have hlow : v.toNat % 256 ^ 4 % 256 = v.toNat % 256 := by omega
  unfold memsetInt
  rw [Int.toNat_natCast, memsetIntLoop_eq _ (by rw [List.length_append]; omega), hcut, hlow,
    leBytes_mod, leBytes_take 4 4]
  simp only [List.take_zero, List.nil_append, Nat.zero_add]
  rw [List.drop_append_of_le_length (by omega), List.append_assoc _ _ behind]

/-- Pointers are copied where the bytes that are not reached are there already. -/
theorem copiesPointers_iff (dst src : Vector UInt64 n) :
    CopiesPointers dst src ↔
      (pointerBytes dst.toList).drop (n + 3) = (pointerBytes src.toList).drop (n + 3) := by
  unfold CopiesPointers
  simp only [memcpyInt_pointers]
  constructor
  · intro h
    have hbytes := List.append_cancel_right (Except.ok.inj (h [] []))
    exact List.append_cancel_left (hbytes.trans (List.take_append_drop (n + 3) _).symm)
  · intro h behind behind'
    rw [h, List.take_append_drop]

/-- The bytes `memset_int` stores are those of the pointer where they are all the same. One
pointer gets its own first word. -/
theorem stored_pointers_iff (m : ℕ) (v : UInt64) :
    List.replicate m (UInt8.ofNat (v.toNat % 256)) ++ (leBytes 8 v.toNat).take 4 =
        (pointerBytes (List.replicate (m + 1) v)).take (m + 4) ↔
      (2 ≤ m + 1 → ∀ b ∈ (leBytes 8 v.toNat).take (m + 4), b = UInt8.ofNat (v.toNat % 256)) := by
  have hlen := length_pointerBytes (List.replicate (m + 1) v)
  rw [List.length_replicate] at hlen
  have hword : (leBytes 8 v.toNat).take 4 =
      (pointerBytes (List.replicate (m + 1) v)).take 4 := by
    rw [← pointerBytes_slot (List.getElem?_replicate_of_lt (Nat.succ_pos m)), List.take_take]
    rfl
  obtain rfl | hm := Nat.eq_zero_or_pos m
  · rw [hword]
    exact iff_of_true rfl fun h => absurd h (by omega)
  rw [hword, replicate_append_take_iff hm (by omega)]
  have hpointer := leBytes_length 8 v.toNat
  constructor
  · intro h _ b hb
    obtain ⟨i, hi, rfl⟩ := List.mem_take_iff_getElem.mp hb
    have hat := h i (by omega)
    rw [getElem?_pointerBytes_replicate v (by omega), Nat.mod_eq_of_lt (by omega),
      List.getElem?_eq_getElem (by omega)] at hat
    exact Option.some.inj hat
  · intro h i hi
    have hmod : i % 8 ≤ i := Nat.mod_le i 8
    rw [getElem?_pointerBytes_replicate v (by omega), List.getElem?_eq_getElem (by omega)]
    exact congrArg some (h (by omega) _ (List.mem_take_iff_getElem.mpr ⟨i % 8, by omega, rfl⟩))

/-- A pointer is set where the bytes that are not reached are its own already, and, in two
slots or more, those that are reached are all the same in it. -/
theorem setsPointers_iff (mem : Vector UInt64 n) (v : UInt64) :
    SetsPointers mem v ↔
      (pointerBytes mem.toList).drop (n + 3) =
          (pointerBytes (List.replicate n v)).drop (n + 3) ∧
        (2 ≤ n → ∀ b ∈ (leBytes 8 v.toNat).take (n + 3), b = UInt8.ofNat (v.toNat % 256)) := by
  have hmem := length_pointerBytes mem.toList
  rw [Vector.length_toList] at hmem
  cases n with
  | zero =>
    rw [List.length_eq_zero_iff.mp hmem]
    exact iff_of_true (fun _ => by rw [List.length_eq_zero_iff.mp hmem]; rfl)
      ⟨rfl, fun h => absurd h (by omega)⟩
  | succ m =>
    have hset := length_pointerBytes (List.replicate (m + 1) v)
    rw [List.length_replicate] at hset
    have hstored : (List.replicate m (UInt8.ofNat (v.toNat % 256)) ++
        (leBytes 8 v.toNat).take 4).length = m + 4 := by
      rw [List.length_append, List.length_replicate, List.length_take, leBytes_length]
      omega
    unfold SetsPointers
    simp only [memsetInt_pointers]
    rw [← stored_pointers_iff, and_comm]
    constructor
    · intro h
      have hbytes := List.append_cancel_right (Except.ok.inj (h []))
      refine List.append_inj (hbytes.trans (List.take_append_drop (m + 4) _).symm) ?_
      rw [hstored, List.length_take]
      omega
    · rintro ⟨hfront, hback⟩ behind
      rw [hfront, hback, List.take_append_drop]

/-- `memcpy_int` stores nothing behind the array. -/
theorem memcpyInt_inside (dst src : Vector UInt64 n) :
    ∃ mem : List UInt8, mem.length = 8 * n ∧ ∀ behind behind',
      memcpyInt (pointerBytes dst.toList ++ behind) (pointerBytes src.toList ++ behind') n =
        .ok (mem ++ behind) := by
  refine ⟨_, ?_, memcpyInt_pointers dst src⟩
  rw [List.length_append, List.length_take, List.length_drop, length_pointerBytes,
    length_pointerBytes, Vector.length_toList, Vector.length_toList]
  omega

/-- Nor does `memset_int`. -/
theorem memsetInt_inside (mem : Vector UInt64 n) (v : UInt64) :
    ∃ mem' : List UInt8, mem'.length = 8 * n ∧ ∀ behind,
      memsetInt (pointerBytes mem.toList ++ behind) v.toNat n = .ok (mem' ++ behind) := by
  cases n with
  | zero => exact ⟨pointerBytes mem.toList, by simp [length_pointerBytes], fun behind => rfl⟩
  | succ m =>
    refine ⟨_, ?_, memsetInt_pointers mem v⟩
    rw [List.length_append, List.length_append, List.length_replicate, List.length_take,
      leBytes_length, List.length_drop, length_pointerBytes, Vector.length_toList]
    omega

/-- **Bulk pointer helpers.** Of `n` pointers the helpers reach `n + 3` bytes. -/
theorem bulkHelpers_iff (dst src : Vector UInt64 n) (v : UInt64) :
    (CopiesPointers dst src ↔
      (pointerBytes dst.toList).drop (n + 3) = (pointerBytes src.toList).drop (n + 3)) ∧
    (SetsPointers dst v ↔
      (pointerBytes dst.toList).drop (n + 3) =
          (pointerBytes (List.replicate n v)).drop (n + 3) ∧
        (2 ≤ n → ∀ b ∈ (leBytes 8 v.toNat).take (n + 3), b = UInt8.ofNat (v.toNat % 256))) ∧
    (∃ mem : List UInt8, mem.length = 8 * n ∧ ∀ behind behind',
      memcpyInt (pointerBytes dst.toList ++ behind) (pointerBytes src.toList ++ behind') n =
        .ok (mem ++ behind)) ∧
    ∃ mem : List UInt8, mem.length = 8 * n ∧ ∀ behind,
      memsetInt (pointerBytes dst.toList ++ behind) v.toNat n = .ok (mem ++ behind) :=
  ⟨copiesPointers_iff dst src, setsPointers_iff dst v, memcpyInt_inside dst src,
    memsetInt_inside dst v⟩

/-! ## Tables that have just been cleared -/

/-- Behind the bytes it reaches, `memcpy_int` leaves a cleared table `NULL`. -/
theorem not_copiesPointers_cleared {i : ℕ} (hi : i < n) (hreach : n + 3 ≤ 8 * i)
    (hsrc : src[i] ≠ 0) : ¬ CopiesPointers (Vector.replicate n 0) src := by
  intro h
  have hcleared : (Vector.replicate n (0 : UInt64)).toList[i]? = some 0 :=
    List.getElem?_replicate_of_lt hi
  have hpointer : src.toList[i]? = some src[i] := by
    rw [List.getElem?_eq_getElem (by rwa [Vector.length_toList]), Vector.getElem_toList]
  exact hsrc (pointer_eq_of_drop_eq ((copiesPointers_iff _ src).mp h) hreach hcleared hpointer).symm

/-- A cleared table of two slots or more is not set to any pointer but `NULL`. -/
theorem not_setsPointers_cleared (hn : 2 ≤ n) (hv : v ≠ 0) :
    ¬ SetsPointers (Vector.replicate n 0) v := by
  intro h
  have hlast : ∀ p : UInt64, (List.replicate n p)[n - 1]? = some p := fun p =>
    List.getElem?_replicate_of_lt (by omega)
  have hback := ((setsPointers_iff _ v).mp h).1
  exact hv (pointer_eq_of_drop_eq hback (by omega) (hlast 0) (hlast v)).symm

/-- A new bytecode table is not set to `tsm_reserve`, and a script table that grows does not
get all of its entries. -/
theorem bulkHelpers_miss :
    ¬ SetsPointers (Vector.replicate 512 0) 0x401136 ∧
      ¬ CopiesPointers (Vector.replicate 128 0) (Vector.replicate 128 0x405290) := by
  refine ⟨not_setsPointers_cleared (by omega) (by decide),
    not_copiesPointers_cleared (i := 127) (by omega) (by omega) ?_⟩
  rw [Vector.getElem_replicate]
  decide

end Bulk

end TsmVm
