import TsmVm.Base

/-!
# Counted byte strings (`fm_Bytes.c`)

An `fmBytes` has an allocated size, a used length and a buffer. The buffer is
the memory readable from its address: the allocated bytes and what the
allocator happens to keep readable behind them, which only string functions
that run past the end ever see.
-/

namespace TsmVm

/-- `fmBytes`. The field `addr` is the value of the pointer `buf`. -/
structure FmBytes where
  /-- Number of bytes allocated at `buf`. -/
  size : ℤ
  /-- Number of bytes in use. -/
  leng : ℤ
  /-- The address held by `buf`; `0` is `NULL`. -/
  addr : ℕ
  /-- The memory from `buf` on. -/
  buf : List UInt8
  deriving DecidableEq, Repr

/-- `fmBytes_alloc`: a zeroed block at an address the allocator chooses. A
negative size becomes a `size_t` no allocator can serve. -/
def fmBytesAlloc (addr : ℕ) (behind : List UInt8) (size : ℤ) : Option FmBytes :=
  if size < 0 then none
  else some { size := size, leng := 0, addr := addr,
              buf := List.replicate size.toNat 0 ++ behind }

/-- A block of a size that can be served. -/
theorem fmBytesAlloc_natCast (addr n : ℕ) (behind : List UInt8) :
    fmBytesAlloc addr behind n =
      some { size := n, leng := 0, addr := addr, buf := List.replicate n 0 ++ behind } := by
  unfold fmBytesAlloc
  rw [if_neg (by omega), Int.toNat_natCast]

/-- `fmBytes_get_length`. -/
def fmBytesGetLength (p : Option FmBytes) : Res ℤ := do
  let p ← derefOption p
  return p.leng

/-- `fmBytes_get_buf`, as an address. -/
def fmBytesGetBuf : Option FmBytes → ℕ
  | none => 0
  | some p => p.addr

/-- `fmBytes_set_length`. -/
def FmBytes.setLength (p : FmBytes) (len : ℤ) : FmBytes := { p with leng := len }

/-- `fmBytes_copy`: the return value and the destination afterwards. -/
def fmBytesCopy (des : Option FmBytes) (offset1 : ℤ) (src : Option FmBytes) (offset2 len : ℤ) :
    Res (ℤ × Option FmBytes) :=
  match src, des with
  | some s, some d =>
    if s.addr = 0 ∨ d.addr = 0 then .ok (-1, des)
    else if d.size - offset1 < len then .ok (-1, des)
    else if s.leng - offset2 < len then .ok (-1, des)
    else do
      let bs ← memRead s.buf offset2 len
      let buf ← memWrite d.buf d.size.toNat offset1 bs
      return (0, some { d with buf := buf, leng := d.leng + len })
  | _, _ => .ok (-1, des)

/-- `fmBytes_copy_from`; `src` is `NULL` or the memory it points to. -/
def fmBytesCopyFrom (des : Option FmBytes) (offset1 : ℤ) (src : Option (List UInt8))
    (offset2 len : ℤ) : Res (ℤ × Option FmBytes) :=
  match src, des with
  | some mem, some d =>
    if d.addr = 0 then .ok (-1, des)
    else if d.size - offset1 < len then .ok (-1, des)
    else do
      let bs ← memRead mem offset2 len
      let buf ← memWrite d.buf d.size.toNat offset1 bs
      return (0, some { d with buf := buf, leng := d.leng + len })
  | _, _ => .ok (-1, des)

/-- `fmBytes_compare`. -/
def fmBytesCompare (p1 : Option FmBytes) (offset1 : ℤ) (p2 : Option FmBytes) (offset2 len : ℤ) :
    Res Bool :=
  match p1, p2 with
  | some a, some b =>
    if a.addr = 0 ∨ b.addr = 0 then .ok false
    else if a.leng < offset1 + len ∨ b.leng < offset2 + len then .ok false
    else do
      let xs ← memRead a.buf offset1 len
      let ys ← memRead b.buf offset2 len
      return xs == ys
  | _, _ => .ok false

/-- The loop of `fmBytes2intBE` from index `i`, with `n` rounds to go; `ret`
starts out uninitialised. -/
def fmBytes2intBELoop (buf : List UInt8) : ℕ → ℕ → UInt32 → Res UInt32
  | 0, _, ret => .ok ret
  | n + 1, i, ret => do
      let b ← byteAt buf i
      fmBytes2intBELoop buf n (i + 1) ((ret <<< UInt32.ofNat (i * 8)) ||| b.toUInt32)

/-- `fmBytes2intBE`; `junk` is what the uninitialised `ret` holds on entry. -/
def fmBytes2intBE (junk : UInt32) (p : Option FmBytes) : Res ℤ := do
  let p ← derefOption p
  if p.leng > 4 then return -1
  let ret ← fmBytes2intBELoop p.buf p.leng.toNat 0 junk
  return int32 ret

/-- `fmBytes_array_t`. The field `addr` is the address of the structure itself. -/
structure FmBytesArray where
  /-- Address of the structure. -/
  addr : ℕ
  /-- Number of slots. -/
  size : ℤ
  /-- Number of slots in use. -/
  cnt : ℤ
  /-- The slots readable from `array` on. -/
  array : List (Option FmBytes)
  deriving DecidableEq, Repr

/-- Reading `fba->array[i]`. -/
def FmBytesArray.at (fba : FmBytesArray) (i : ℤ) : Res (Option FmBytes) :=
  if i < 0 then .error .outOfBounds
  else match fba.array[i.toNat]? with
    | none => .error .outOfBounds
    | some p => .ok p

/-- `fba->array[i] = p`. -/
def FmBytesArray.store (fba : FmBytesArray) (i : ℤ) (p : Option FmBytes) : Res FmBytesArray :=
  if 0 ≤ i ∧ i < fba.array.length then .ok { fba with array := fba.array.set i.toNat p }
  else .error .outOfBounds

/-- `fmBytes_array_alloc` for a size that can be served. -/
def fmBytesArrayAlloc (addr : ℕ) (size : ℕ) : FmBytesArray :=
  { addr := addr, size := size, cnt := 0, array := List.replicate size none }

/-- `fmBytes_array_resize`: the slots in use move to a larger array. -/
def fmBytesArrayResize (addr : ℕ) (oldFba : FmBytesArray) (newSize : ℕ) : FmBytesArray :=
  if (newSize : ℤ) ≤ oldFba.size then oldFba
  else
    let used := oldFba.array.take oldFba.cnt.toNat
    { addr := addr, size := newSize, cnt := oldFba.cnt,
      array := used ++ List.replicate (newSize - used.length) none }

/-- The bytes in use. -/
def FmBytes.content (p : FmBytes) : List UInt8 := p.buf.take p.leng.toNat

/-! ## Byte strings in memory -/

/-- The bytes in use lie within the block. -/
structure FmBytes.Valid (p : FmBytes) : Prop where
  /-- Their number is none below zero. -/
  leng_nonneg : 0 ≤ p.leng
  /-- The block holds them. -/
  leng_le : p.leng ≤ p.buf.length
  /-- It lies somewhere. -/
  addr_ne_zero : p.addr ≠ 0

/-- A copy of all its bytes is not made, or stays within its block. -/
def FmBytes.Copyable (p : FmBytes) : Prop := p.addr = 0 ∨ p.leng ≤ p.buf.length

/-- The copy of a whole byte string into a block that is allocated for it. -/
theorem fmBytesCopy_all_iff {addr : ℕ} (haddr : addr ≠ 0) (behind : List UInt8) (p : FmBytes) :
    (∃ r, fmBytesCopy (fmBytesAlloc addr behind p.leng) 0 (some p) 0 p.leng = .ok r) ↔
      p.Copyable := by
  by_cases hneg : p.leng < 0
  · have hfits : p.Copyable := .inr (by omega)
    refine iff_of_true ⟨(-1, none), ?_⟩ hfits
    rw [fmBytesAlloc, if_pos hneg]
    rfl
  · obtain ⟨n, hn⟩ := Int.eq_ofNat_of_zero_le (not_lt.mp hneg)
    rw [hn, fmBytesAlloc_natCast]
    by_cases hnull : p.addr = 0
    · exact iff_of_true ⟨_, if_pos (.inl hnull)⟩ (.inl hnull)
    · have hcopy : fmBytesCopy
          (some { size := n, leng := 0, addr := addr, buf := List.replicate n 0 ++ behind }) 0
          (some p) 0 n = (do
            let bs ← memRead p.buf 0 n
            let buf ← memWrite (List.replicate n 0 ++ behind) n 0 bs
            return (0, some { size := n, leng := 0 + n, addr := addr, buf := buf })) := by
        unfold fmBytesCopy
        dsimp only
        rw [if_neg (by simp [hnull, haddr]), if_neg (by omega), if_neg (by omega)]
        rfl
      have hread := memRead_natCast p.buf 0 n
      rw [List.drop_zero, Nat.cast_zero] at hread
      rw [hcopy, hread]
      by_cases hfit : n ≤ p.buf.length
      · have hroom : n ≤ (List.replicate n 0 ++ behind).length := by
          rw [List.length_append, List.length_replicate]
          omega
        obtain ⟨buf, hwrite⟩ := memWrite_block (List.length_take_of_le hfit) hroom
        refine iff_of_true ?_ (.inr (by omega))
        rw [if_pos hfit, ok_bind, hwrite]
        exact ⟨_, rfl⟩
      · rw [if_neg hfit]
        refine iff_of_false ?_ ?_
        · rintro ⟨r, hr⟩
          cases hr
        · rintro (h | h)
          · exact hnull h
          · omega

/-- A byte string in a block of its own. -/
structure HeapBytes extends FmBytes where
  /-- The block holds the bytes in use and no others. -/
  leng_eq : leng = buf.length
  /-- It lies somewhere. -/
  addr_ne_zero : addr ≠ 0

theorem HeapBytes.valid (p : HeapBytes) : p.toFmBytes.Valid := by
  have h := p.leng_eq
  exact ⟨by omega, by omega, p.addr_ne_zero⟩

theorem HeapBytes.content_eq (p : HeapBytes) : p.content = p.buf := by
  have h := p.leng_eq
  rw [FmBytes.content, h, Int.toNat_natCast, List.take_length]

/-- It can be read as a number. -/
theorem HeapBytes.int_ok (junk : UInt32) (p : HeapBytes) :
    ∃ addr, fmBytes2intBE junk (some p.toFmBytes) = .ok addr := by
  have hloop : ∀ (n i : ℕ) (ret : UInt32), i + n ≤ p.buf.length →
      ∃ ret', fmBytes2intBELoop p.buf n i ret = .ok ret' := by
    intro n
    induction n with
    | zero => exact fun i ret _ => ⟨ret, rfl⟩
    | succ n ih =>
      intro i ret hi
      obtain ⟨b, hb⟩ : ∃ b, byteAt p.buf i = .ok b := exists_byteAt (by omega)
      obtain ⟨ret', hret⟩ := ih (i + 1) _ (by omega)
      exact ⟨ret', by rw [fmBytes2intBELoop, hb, ok_bind, hret]⟩
  unfold fmBytes2intBE
  rw [derefOption_some, ok_bind]
  split
  · exact ⟨-1, rfl⟩
  · have hleng := p.leng_eq
    obtain ⟨ret, hret⟩ := hloop p.leng.toNat 0 junk (by omega)
    exact ⟨int32 ret, by rw [hret, ok_bind, pure_eq_ok]⟩

end TsmVm
