import Mathlib.Data.List.Basic
import Mathlib.Algebra.Order.Ring.Int

/-!
# Results, pointers and raw memory

Every function of the model returns either its result or the reason it never
gets there: an access C leaves undefined, or one of the endless loops the
source enters on purpose. A pointer into a block is modelled by the bytes
readable from it on, so reading past the list is reading outside the block.
-/

namespace TsmVm

/-- Why a computation does not reach its next statement. -/
inductive Stop
  /-- Access through `NULL`. -/
  | nullDeref
  /-- Access through an uninitialised, freed or integer-valued pointer. -/
  | wildAccess
  /-- Access outside the block a pointer points into. -/
  | outOfBounds
  /-- Call through a value that is not the address of a function. -/
  | badCall
  /-- The endless loop of `SKB_ASSERT`. -/
  | skbAssert
  /-- The endless loop of `skb_over_panic`. -/
  | skbOverPanic
  /-- The endless loop of `skb_under_panic`. -/
  | skbUnderPanic
  /-- A loop of the source that does not end. -/
  | hang
  deriving DecidableEq, Repr

/-- The result of a computation that may stop. -/
abbrev Res (α : Type) := Except Stop α

variable {α β : Type}

@[simp] theorem ok_bind (a : α) (f : α → Res β) : (Except.ok a >>= f) = f a := rfl

@[simp] theorem error_bind (e : Stop) (f : α → Res β) :
    ((Except.error e : Res α) >>= f) = Except.error e := rfl

@[simp] theorem pure_eq_ok (a : α) : (pure a : Res α) = Except.ok a := rfl

/-- A sequence of two computations returns exactly when both do. -/
theorem bind_eq_ok {x : Res α} {f : α → Res β} {b : β} :
    (x >>= f) = Except.ok b ↔ ∃ a, x = Except.ok a ∧ f a = Except.ok b := by
  cases x <;> simp

/-- A sequence comes to its end exactly when both parts do. -/
theorem exists_bind_ok {x : Res α} {f : α → Res β} :
    (∃ b, (x >>= f) = Except.ok b) ↔ ∃ a, x = Except.ok a ∧ ∃ b, f a = Except.ok b := by
  cases x <;> simp

/-- What holds of every result of the second part holds of the result of the
sequence. -/
theorem bind_imp {x : Res α} {f : α → Res β} {b : β} {p : Prop}
    (hf : ∀ a, f a = Except.ok b → p) (h : (x >>= f) = Except.ok b) : p := by
  obtain ⟨a, _, ha⟩ := bind_eq_ok.mp h
  exact hf a ha

/-- A C pointer to an object of type `α`; `wild` is any value that is neither
`NULL` nor the address of a live object. -/
inductive Ptr (α : Type)
  | null
  | obj (a : α)
  | wild
  deriving DecidableEq, Repr

/-- Reading the object a pointer points to. -/
def Ptr.deref : Ptr α → Res α
  | .null => .error .nullDeref
  | .obj a => .ok a
  | .wild => .error .wildAccess

/-- Reading through a pointer that is known not to be wild. -/
def derefOption : Option α → Res α
  | none => .error .nullDeref
  | some a => .ok a

@[simp] theorem derefOption_some (a : α) : derefOption (some a) = Except.ok a := rfl

@[simp] theorem derefOption_eq_ok {p : Option α} {a : α} :
    derefOption p = Except.ok a ↔ p = some a := by
  cases p <;> simp [derefOption]

/-- The value of an `int` stored to a `u8`. -/
def u8 (z : ℤ) : UInt8 := UInt8.ofNat (z % 256).toNat

/-- The low byte of a number. -/
theorem toNat_u8_natCast (n : ℕ) : (u8 n).toNat = n % 256 := by
  have hlt : n % 256 < UInt8.size := Nat.mod_lt n (by decide)
  unfold u8
  rw [show ((n : ℤ) % 256).toNat = n % 256 by omega, UInt8.toNat_ofNat_of_lt' hlt]

/-- A number stored to a byte. -/
theorem u8_natCast (n : ℕ) : u8 n = UInt8.ofNat n := by
  rw [← UInt8.toNat_inj, toNat_u8_natCast, UInt8.toNat_ofNat']

theorem u8_natCast_eq_zero_iff {n : ℕ} : u8 n = 0 ↔ n % 256 = 0 := by
  rw [← UInt8.toNat_inj, toNat_u8_natCast, UInt8.toNat_zero]

/-- The value of an `int` converted to `unsigned int`. -/
def u32 (z : ℤ) : ℕ := (z % 4294967296).toNat

/-- The conversion of a small number. -/
theorem u32_natCast {n : ℕ} (h : n < 4294967296) : u32 n = n := by
  unfold u32
  omega

/-- The value of an `unsigned int` converted to `int`. -/
def int32 (w : UInt32) : ℤ := w.toBitVec.toInt

/-- The next element of a list, and those behind it. -/
theorem next_of_drop {as rest : List α} {a : α} {i : ℕ} (h : as.drop i = a :: rest) :
    as[i]? = some a ∧ as.drop (i + 1) = rest := by
  constructor
  · rw [← List.head?_drop, h, List.head?_cons]
  · rw [← List.drop_drop, h, List.drop_one, List.tail_cons]

/-- The byte at index `i` of the memory a pointer points to. -/
def byteAt (mem : List UInt8) (i : ℤ) : Res UInt8 :=
  if i < 0 then .error .outOfBounds
  else match mem[i.toNat]? with
    | none => .error .outOfBounds
    | some b => .ok b

/-- A byte within the memory is read. -/
theorem byteAt_natCast {mem : List UInt8} {i : ℕ} {b : UInt8} (h : mem[i]? = some b) :
    byteAt mem i = .ok b := by
  unfold byteAt
  rw [if_neg (by omega), Int.toNat_natCast, h]

/-- A byte within the memory can be read. -/
theorem exists_byteAt {mem : List UInt8} {i : ℕ} (h : i < mem.length) :
    ∃ b, byteAt mem i = .ok b :=
  ⟨mem[i], byteAt_natCast (List.getElem?_eq_getElem h)⟩

/-- Nothing is read in front of the memory. -/
theorem byteAt_neg {mem : List UInt8} {i : ℤ} (h : i < 0) : byteAt mem i = .error .outOfBounds :=
  if_pos h

/-- Nothing is read behind the memory. -/
theorem byteAt_end {mem : List UInt8} {i : ℕ} (h : mem.length ≤ i) :
    byteAt mem i = .error .outOfBounds := by
  unfold byteAt
  rw [if_neg (by omega), Int.toNat_natCast, List.getElem?_eq_none h]

/-- The `len` bytes a `memcpy` reads at offset `off`. A negative `int` length
becomes a `size_t` no block has. -/
def memRead (mem : List UInt8) (off len : ℤ) : Res (List UInt8) :=
  if len = 0 then .ok []
  else if 0 ≤ off ∧ 0 < len ∧ off + len ≤ mem.length then
    .ok ((mem.drop off.toNat).take len.toNat)
  else .error .outOfBounds

/-- A copy of bytes the memory holds. -/
theorem memRead_natCast (mem : List UInt8) (i k : ℕ) :
    memRead mem i k =
      if k ≤ (mem.drop i).length then .ok ((mem.drop i).take k) else .error .outOfBounds := by
  unfold memRead
  rw [List.length_drop]
  rcases Nat.eq_zero_or_pos k with rfl | hk
  · simp
  · rw [if_neg (by omega)]
    by_cases hfit : k ≤ mem.length - i
    · rw [if_pos hfit, if_pos (by omega)]
      rfl
    · rw [if_neg hfit, if_neg (by omega)]

/-- A copy of the first bytes of the memory. -/
theorem memRead_front {mem : List UInt8} {k : ℕ} (h : k ≤ mem.length) :
    memRead mem 0 k = .ok (mem.take k) := by
  have hread := memRead_natCast mem 0 k
  rwa [List.drop_zero, if_pos h] at hread

/-- A copy has the length that was asked for. -/
theorem memRead_length {mem bs : List UInt8} {off len : ℤ} (h : memRead mem off len = .ok bs) :
    (bs.length : ℤ) = len := by
  unfold memRead at h
  split at h
  · obtain rfl := Except.ok.inj h
    simp only [List.length_nil]
    omega
  · split at h
    · obtain rfl := Except.ok.inj h
      rw [List.length_take, List.length_drop]
      omega
    · cases h

/-- The memory after a `memcpy` has stored `bs` at offset `off`; only the first
`size` bytes belong to the block. -/
def memWrite (mem : List UInt8) (size : ℕ) (off : ℤ) (bs : List UInt8) : Res (List UInt8) :=
  if bs = [] then .ok mem
  else if 0 ≤ off ∧ off + bs.length ≤ size ∧ size ≤ mem.length then
    .ok (mem.take off.toNat ++ bs ++ mem.drop (off.toNat + bs.length))
  else .error .outOfBounds

/-- A store at an index of the memory. -/
theorem memWrite_natCast (mem bs : List UInt8) (size i : ℕ) :
    memWrite mem size i bs =
      if bs = [] ∨ i + bs.length ≤ size ∧ size ≤ mem.length then
        .ok (mem.take i ++ bs ++ mem.drop (i + bs.length))
      else .error .outOfBounds := by
  unfold memWrite
  by_cases hbs : bs = []
  · rw [if_pos hbs, if_pos (.inl hbs), hbs]
    simp
  · rw [if_neg hbs]
    by_cases hfit : i + bs.length ≤ size ∧ size ≤ mem.length
    · have hint : 0 ≤ (i : ℤ) ∧ (i : ℤ) + bs.length ≤ size ∧ size ≤ mem.length := by omega
      rw [if_pos hint, if_pos (Or.inr hfit)]
      rfl
    · have hint : ¬ (0 ≤ (i : ℤ) ∧ (i : ℤ) + bs.length ≤ size ∧ size ≤ mem.length) := by omega
      rw [if_neg hint, if_neg (not_or.mpr ⟨hbs, hfit⟩)]

/-- A store within the block succeeds, and the memory keeps its size. -/
theorem memWrite_fits {mem bs : List UInt8} {size i : ℕ} (h : i + bs.length ≤ size)
    (hsize : size ≤ mem.length) :
    ∃ mem', memWrite mem size i bs = .ok mem' ∧ mem'.length = mem.length := by
  refine ⟨_, (memWrite_natCast mem bs size i).trans (if_pos (.inr ⟨h, hsize⟩)), ?_⟩
  simp only [List.length_append, List.length_take, List.length_drop]
  omega

/-- Bytes are stored where there is room for them. -/
theorem memWrite_ok_iff {mem bs : List UInt8} {i : ℕ} :
    (∃ mem', memWrite mem mem.length i bs = .ok mem') ↔
      bs = [] ∨ i + bs.length ≤ mem.length := by
  rw [memWrite_natCast]
  by_cases hfit : bs = [] ∨ i + bs.length ≤ mem.length ∧ mem.length ≤ mem.length
  · rw [if_pos hfit]
    exact ⟨fun _ => hfit.imp_right And.left, fun _ => ⟨_, rfl⟩⟩
  · rw [if_neg hfit]
    refine ⟨fun h => by simp at h, fun h => (hfit ?_).elim⟩
    exact h.imp_right fun hle => ⟨hle, le_rfl⟩

/-- Bytes that fill a block are written. -/
theorem memWrite_block {mem bs : List UInt8} {k : ℕ} (hbs : bs.length = k) (hk : k ≤ mem.length) :
    ∃ mem', memWrite mem k 0 bs = .ok mem' := by
  obtain ⟨mem', hmem', -⟩ := memWrite_fits (i := 0) (show 0 + bs.length ≤ k by omega) hk
  exact ⟨mem', hmem'⟩

/-- Bytes that are written over as many others. -/
theorem memWrite_span (front behind : List UInt8) {old bs : List UInt8} {size : ℕ}
    (hlen : old.length = bs.length) (hfit : front.length + bs.length ≤ size)
    (hsize : size ≤ (front ++ (old ++ behind)).length) :
    memWrite (front ++ (old ++ behind)) size front.length bs = .ok (front ++ (bs ++ behind)) := by
  rw [memWrite_natCast, if_pos (.inr ⟨hfit, hsize⟩), List.take_left, ← List.drop_drop,
    List.drop_left, ← hlen, List.drop_left, List.append_assoc]

/-- What is in the same end of the memory is the same. -/
theorem getElem?_of_drop_eq {mem mem' : List UInt8} {i k : ℕ} (h : mem'.drop k = mem.drop k)
    (hi : k ≤ i) : mem'[i]? = mem[i]? := by
  have hget := congrArg (fun l => l[i - k]?) h
  simp only [List.getElem?_drop] at hget
  rwa [Nat.add_sub_cancel' hi] at hget

/-- A store leaves the memory behind it as it is. -/
theorem memWrite_drop {mem mem' bs : List UInt8} {i k : ℕ}
    (h : memWrite mem mem.length i bs = .ok mem') (hk : i + bs.length ≤ k) :
    mem'.length = mem.length ∧ mem'.drop k = mem.drop k := by
  unfold memWrite at h
  split at h
  · obtain rfl := Except.ok.inj h
    exact ⟨rfl, rfl⟩
  · split at h
    · obtain rfl := Except.ok.inj h
      rename_i hfit
      have htake : (mem.take i ++ bs).length = i + bs.length := by
        rw [List.length_append, List.length_take]
        omega
      constructor
      · simp only [List.length_append, List.length_take, List.length_drop]
        omega
      · have hnat : ((i : ℕ) : ℤ).toNat = i := rfl
        rw [hnat, List.drop_append, htake, List.drop_of_length_le (by omega), List.nil_append,
          List.drop_drop]
        congr 1
        omega
    · cases h

/-- It leaves the memory in front of it, too. -/
theorem memWrite_front {mem mem' bs : List UInt8} {size i k : ℕ}
    (h : memWrite mem size i bs = .ok mem') (hk : k < i) : mem'[k]? = mem[k]? := by
  rw [memWrite_natCast] at h
  split at h
  · obtain rfl := Except.ok.inj h
    rcases ‹_ ∨ _› with rfl | hfit
    · rw [List.append_nil, List.length_nil, Nat.add_zero, List.take_append_drop]
    · have htake : (mem.take i).length = i := by
        rw [List.length_take]
        omega
      rw [List.append_assoc, List.getElem?_append_left (by omega), List.getElem?_take_of_lt hk]
  · cases h

/-- A byte that was stored is there. -/
theorem memWrite_byte {mem mem' : List UInt8} {b : UInt8} {size i : ℕ}
    (h : memWrite mem size i [b] = .ok mem') : mem'[i]? = some b := by
  rw [memWrite_natCast] at h
  split at h
  · obtain rfl := Except.ok.inj h
    have hfit := (‹_ ∨ _›).resolve_left (List.cons_ne_nil _ _)
    have htake : (mem.take i).length = i := by
      rw [List.length_take]
      rw [List.length_singleton] at hfit
      omega
    rw [List.append_assoc, List.getElem?_append_right (by omega), htake, Nat.sub_self]
    rfl
  · cases h

/-- The C string a pointer points to: the bytes before the first NUL. -/
def cString : List UInt8 → Res (List UInt8)
  | [] => .error .outOfBounds
  | b :: mem => if b = 0 then .ok [] else do
      let s ← cString mem
      return b :: s

/-- A terminated buffer reads as the string before its terminator. -/
theorem cString_terminated {s : List UInt8} (hs : ∀ b ∈ s, b ≠ 0) (behind : List UInt8) :
    cString (s ++ 0 :: behind) = Except.ok s := by
  induction s with
  | nil => rfl
  | cons b s ih =>
    have hb : b ≠ 0 := hs b (by simp)
    simp [cString, hb, ih fun c hc => hs c (by simp [hc])]

/-- A C string and the memory behind it. -/
theorem cString_eq_ok {mem name : List UInt8} (h : cString mem = .ok name) :
    (∃ behind, mem = name ++ 0 :: behind) ∧ ∀ b ∈ name, b ≠ 0 := by
  induction mem generalizing name with
  | nil => cases h
  | cons b mem ih =>
    unfold cString at h
    split at h
    · obtain rfl := Except.ok.inj h
      subst b
      exact ⟨⟨mem, rfl⟩, by simp⟩
    · obtain ⟨rest, hrest, h⟩ := bind_eq_ok.mp h
      obtain rfl : b :: rest = name := by simpa using h
      obtain ⟨⟨behind, rfl⟩, hne⟩ := ih hrest
      exact ⟨⟨behind, rfl⟩, List.forall_mem_cons.mpr ⟨‹_›, hne⟩⟩

/-- The contents of a cleared block of `size` bytes with `bs` stored at its front. -/
def zeroed (size : ℕ) (bs : List UInt8) : List UInt8 :=
  bs ++ List.replicate (size - bs.length) 0

theorem zeroed_nil (size : ℕ) : zeroed size [] = List.replicate size 0 := rfl

theorem zeroed_length {size : ℕ} {bs : List UInt8} (h : bs.length ≤ size) :
    (zeroed size bs).length = size := by
  rw [zeroed, List.length_append, List.length_replicate]
  omega

/-- More bytes are stored behind the first ones. -/
theorem memWrite_zeroed (behind : List UInt8) {size : ℕ} {bs bs' : List UInt8}
    (h : bs.length + bs'.length ≤ size) :
    memWrite (zeroed size bs ++ behind) size bs.length bs' =
      .ok (zeroed size (bs ++ bs') ++ behind) := by
  have hzeros : List.replicate (size - bs.length) (0 : UInt8) =
      List.replicate bs'.length 0 ++ List.replicate (size - (bs ++ bs').length) 0 := by
    rw [List.replicate_append_replicate, List.length_append]
    congr 1
    omega
  simp only [zeroed, hzeros, List.append_assoc]
  refine memWrite_span _ _ List.length_replicate h ?_
  simp only [List.length_append, List.length_replicate]
  omega

/-- Bytes stored behind those at the front of a block. -/
theorem memWrite_behind (size : ℕ) (bs bs' : List UInt8) (h : bs.length + bs'.length ≤ size) :
    memWrite (zeroed size bs) size bs.length bs' = .ok (zeroed size (bs ++ bs')) := by
  simpa only [List.append_nil] using memWrite_zeroed [] h

/-- Bytes stored at the front of a cleared block. -/
theorem memWrite_cleared {size : ℕ} {bs : List UInt8} (h : bs.length ≤ size) :
    memWrite (List.replicate size 0) size 0 bs = .ok (zeroed size bs) := by
  have hwrite := memWrite_behind size [] bs (by simpa using h)
  rwa [zeroed_nil, List.nil_append] at hwrite

/-- The terminator of a string is in the cleared block already. -/
theorem zeroed_terminated {size : ℕ} {s : List UInt8} (h : s.length < size) :
    zeroed size (s ++ [0]) = zeroed size s := by
  obtain ⟨m, hm⟩ : ∃ m, size - s.length = m + 1 := ⟨size - s.length - 1, by omega⟩
  have hm' : size - (s ++ [0]).length = m := by
    rw [List.length_append, List.length_singleton]
    omega
  rw [zeroed, zeroed, hm, hm', List.replicate_succ, List.append_assoc, List.singleton_append]

/-- The string in a block that is not full. -/
theorem cString_zeroed {size : ℕ} {bs : List UInt8} (hbs : ∀ b ∈ bs, b ≠ 0)
    (h : bs.length < size) : cString (zeroed size bs) = .ok bs := by
  obtain ⟨n, hn⟩ : ∃ n, size - bs.length = n + 1 := ⟨size - bs.length - 1, by omega⟩
  rw [zeroed, hn, List.replicate_succ, cString_terminated hbs]

/-- Where there is no terminator the string runs out of its block. -/
theorem cString_unterminated {bs : List UInt8} (hbs : ∀ b ∈ bs, b ≠ 0) :
    cString bs = .error .outOfBounds := by
  induction bs with
  | nil => rfl
  | cons b bs ih =>
    obtain ⟨hb, hrest⟩ := List.forall_mem_cons.mp hbs
    rw [cString, if_neg hb, ih hrest, error_bind]

/-- A C string, without its terminator. -/
structure CText where
  /-- The characters. -/
  chars : List UInt8
  /-- None of them is the terminator. -/
  ne_zero : ∀ b ∈ chars, b ≠ 0

/-- The `n` low bytes of a number, least significant first, as they lie in the
memory of the little-endian target. -/
def leBytes : ℕ → ℕ → List UInt8
  | 0, _ => []
  | n + 1, v => UInt8.ofNat (v % 256) :: leBytes n (v / 256)

@[simp] theorem leBytes_length (n v : ℕ) : (leBytes n v).length = n := by
  induction n generalizing v with
  | zero => rfl
  | succ n ih => simp [leBytes, ih]

/-- The number a list of bytes denotes, least significant first. -/
def leValue : List UInt8 → ℕ
  | [] => 0
  | b :: bs => b.toNat + 256 * leValue bs

/-- Bytes of the same number denote different numbers. -/
theorem leValue_inj {bs cs : List UInt8} (hlen : bs.length = cs.length)
    (h : leValue bs = leValue cs) : bs = cs := by
  induction bs generalizing cs with
  | nil => exact (List.length_eq_zero_iff.mp hlen.symm).symm
  | cons b bs ih =>
    cases cs with
    | nil => cases hlen
    | cons c cs =>
      have hb := b.toNat_lt
      have hc := c.toNat_lt
      simp only [leValue] at h
      have hhead : b.toNat = c.toNat := by omega
      have hrest : leValue bs = leValue cs := by omega
      rw [UInt8.toNat_inj.mp hhead, ih (by simpa using hlen) hrest]

/-- The bytes of a number denote what is left of it. -/
theorem leValue_leBytes (n v : ℕ) : leValue (leBytes n v) = v % 256 ^ n := by
  induction n generalizing v with
  | zero => rw [pow_zero, Nat.mod_one, leBytes, leValue]
  | succ n ih =>
    rw [leBytes, leValue, ih, UInt8.toNat_ofNat_of_lt' (Nat.mod_lt v (by decide)), pow_succ',
      Nat.mod_mul]

/-- Bytes that are cut off do not count. -/
theorem leBytes_mod (n v : ℕ) : leBytes n (v % 256 ^ n) = leBytes n v :=
  leValue_inj (by simp) (by rw [leValue_leBytes, leValue_leBytes, Nat.mod_mod])

/-- The low bytes of a number come first. -/
theorem leBytes_take (n k v : ℕ) : (leBytes (n + k) v).take n = leBytes n v := by
  induction n generalizing v with
  | zero => rfl
  | succ n ih => rw [Nat.add_right_comm, leBytes, List.take_succ_cons, ih, leBytes]

@[simp] theorem leValue_replicate_zero (n : ℕ) : leValue (List.replicate n 0) = 0 := by
  induction n with
  | zero => rfl
  | succ n ih => simp [List.replicate_succ, leValue, ih]

end TsmVm
