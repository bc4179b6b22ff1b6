import TsmVm.BigEndian

/-!
# Blocks filled from the front

The bytecodes that make a new value allocate a block and copy into it from the
front. At any time it holds the bytes copied so far and zeros behind them.
-/

namespace TsmVm

/-- A byte string is as long as its length says. -/
theorem FmBytes.Valid.length_content {v : FmBytes} (h : v.Valid) :
    (v.content.length : ℤ) = v.leng :=
  ByteString.length_content { v with valid := h }

/-- A block of a number of bytes, filled with `bs` so far. -/
def filledBytes (addr : ℕ) (behind : List UInt8) (size : ℕ) (bs : List UInt8) : FmBytes :=
  { size := size, leng := bs.length, addr := addr,
    buf := bs ++ (List.replicate (size - bs.length) 0 ++ behind) }

section Block

variable {addr : ℕ} {behind : List UInt8} {size : ℕ} {bs bs' : List UInt8}

theorem filledBytes_valid (haddr : addr ≠ 0) : (filledBytes addr behind size bs).Valid :=
  ⟨Int.natCast_nonneg _, by simp only [filledBytes, List.length_append]; omega, haddr⟩

theorem content_filledBytes : (filledBytes addr behind size bs).content = bs := by
  rw [FmBytes.content, filledBytes]
  dsimp only
  rw [Int.toNat_natCast, List.take_left]

/-- A fresh block holds nothing. -/
theorem fmBytesAlloc_filledBytes (addr : ℕ) (behind : List UInt8) (size : ℕ) :
    fmBytesAlloc addr behind size = some (filledBytes addr behind size []) :=
  fmBytesAlloc_natCast addr size behind

/-- Bytes stored behind the others. -/
theorem memWrite_filledBytes (addr : ℕ) (behind bs bs' : List UInt8)
    (h : bs.length + bs'.length ≤ size) :
    memWrite (filledBytes addr behind size bs).buf size bs.length bs' =
      .ok (filledBytes addr behind size (bs ++ bs')).buf := by
  have hwrite := memWrite_zeroed behind h
  simp only [zeroed, List.append_assoc] at hwrite
  simpa only [filledBytes, List.append_assoc] using hwrite

/-- Bytes copied behind the others. -/
theorem fmBytesCopy_filledBytes (behind : List UInt8) (haddr : addr ≠ 0) {src : FmBytes}
    (hsrc : src.Valid) (bs : List UInt8) (size i n : ℕ) (hi : i + n ≤ src.content.length)
    (h : bs.length + n ≤ size) :
    fmBytesCopy (some (filledBytes addr behind size bs)) bs.length (some src) i n =
      .ok (0, some (filledBytes addr behind size (bs ++ (src.content.drop i).take n))) := by
  have hleng := hsrc.length_content
  have hle := hsrc.leng_le
  have hlen : ((src.content.drop i).take n).length = n := by
    rw [List.length_take, List.length_drop]
    omega
  have hread : memRead src.buf i n = .ok ((src.content.drop i).take n) := by
    rw [memRead_natCast, if_pos (by rw [List.length_drop]; omega), FmBytes.content, List.drop_take,
      List.take_take, min_eq_left (by omega)]
  have hwrite := memWrite_filledBytes addr behind bs ((src.content.drop i).take n)
    (show bs.length + _ ≤ size by omega)
  have hlength : ((bs.length : ℕ) : ℤ) + n =
      ((bs ++ (src.content.drop i).take n).length : ℕ) := by
    rw [List.length_append, hlen]
    push_cast
    rfl
  have hplace : ¬ (src.addr = 0 ∨ (filledBytes addr behind size bs).addr = 0) :=
    not_or.mpr ⟨hsrc.addr_ne_zero, haddr⟩
  have hroom : ¬ (filledBytes addr behind size bs).size - bs.length < n := by
    change ¬ (size : ℤ) - bs.length < n
    omega
  have hsize : (filledBytes addr behind size bs).size.toNat = size := Int.toNat_natCast size
  unfold fmBytesCopy
  dsimp only
  rw [if_neg hplace, if_neg hroom, if_neg (by omega), hread, ok_bind, hsize, hwrite, ok_bind]
  dsimp only [filledBytes]
  rw [hlength]
  rfl

end Block

end TsmVm
