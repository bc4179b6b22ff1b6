import TsmVm.FmBytes
import TsmVm.FmUtil

/-!
# Numbers in operands (`fmBytes2intBE`)

Addresses, bounds and indices are read from operands of up to four bytes, most
significant first. The reader starts with a variable that was never assigned,
and shifts it by eight times the index of the next byte instead of by eight. Of
four bytes the shifts push out all but two, and with them what the variable held
before; of less than four bytes they never do.
-/

namespace TsmVm

/-- The number a list of bytes denotes, most significant first. -/
def beValue (bs : List UInt8) : ℕ := bs.foldl (fun v b => 256 * v + b.toNat) 0

/-- A byte string. -/
structure ByteString extends FmBytes where
  /-- The bytes in use lie within the block. -/
  valid : toFmBytes.Valid

/-- The reader returns the number the bytes denote, and -1 for more than four of
them, whatever its variable held before. -/
def ReadsBigEndian (p : ByteString) : Prop :=
  ∀ junk, fmBytes2intBE junk (some p.toFmBytes) =
    .ok (if p.leng ≤ 4 then int32 (UInt32.ofNat (beValue p.content)) else -1)

/-- A number and how many bytes of it are kept, which is enough of them. -/
structure FittingInt where
  /-- The 32 bits of the number. -/
  word : UInt32
  /-- How many of its bytes are kept. -/
  count : ℕ
  /-- One at least. -/
  one_le : 1 ≤ count
  /-- Four at most. -/
  le_four : count ≤ 4
  /-- The others are zero. -/
  word_lt : word.toNat < 256 ^ count

/-- The last bytes `int2byteBE` writes of the number. -/
def FittingInt.bytes (v : FittingInt) : List UInt8 :=
  (int2byteBE (int32 v.word)).drop (4 - v.count)

/-- From its last bytes the number is read back. -/
def FittingInt.RoundTrips (v : FittingInt) : Prop :=
  ∀ p : ByteString, p.content = v.bytes → ∀ junk,
    fmBytes2intBE junk (some p.toFmBytes) = .ok (int32 v.word)

/-! ## The loop -/

/-- What the variable holds after the bytes from index `i` on. -/
def accumulate : ℕ → List UInt8 → UInt32 → UInt32
  | _, [], ret => ret
  | i, b :: bs, ret => accumulate (i + 1) bs ((ret <<< UInt32.ofNat (i * 8)) ||| b.toUInt32)

theorem fmBytes2intBELoop_eq {buf bs : List UInt8} {i : ℕ} (h : bs <+: buf.drop i) (ret : UInt32) :
    fmBytes2intBELoop buf bs.length i ret = .ok (accumulate i bs ret) := by
  induction bs generalizing i ret with
  | nil => rfl
  | cons b bs ih =>
    obtain ⟨rest, hrest⟩ := h
    obtain ⟨hget, hnext⟩ := next_of_drop hrest.symm
    rw [List.length_cons, fmBytes2intBELoop, byteAt_natCast hget, ok_bind, ih ⟨rest, hnext.symm⟩]
    rfl

/-- The length of the bytes in use. -/
theorem ByteString.length_content (p : ByteString) : (p.content.length : ℤ) = p.leng := by
  obtain ⟨hnonneg, hle, -⟩ := p.valid
  rw [FmBytes.content, List.length_take]
  omega

/-- What the reader returns of up to four bytes. -/
theorem fmBytes2intBE_eq (p : ByteString) (h : p.leng ≤ 4) (junk : UInt32) :
    fmBytes2intBE junk (some p.toFmBytes) = .ok (int32 (accumulate 0 p.content junk)) := by
  have hlen := p.length_content
  have hfront : p.content <+: p.buf.drop 0 := List.take_prefix _ _
  have hloop := fmBytes2intBELoop_eq hfront junk
  rw [show p.content.length = p.leng.toNat by omega] at hloop
  unfold fmBytes2intBE
  rw [derefOption_some, ok_bind, if_neg (by omega), hloop]
  rfl

/-! ## What the shifts leave of it -/

/-- A shift is a product in 32 bits. -/
theorem toNat_shiftLeft_ofNat (x : UInt32) {k : ℕ} (hk : k < 32) :
    (x <<< UInt32.ofNat k).toNat = x.toNat * 2 ^ k % 2 ^ 32 := by
  have hsize : k < UInt32.size := hk.trans (by decide)
  rw [UInt32.toNat_shiftLeft, UInt32.toNat_ofNat_of_lt' hsize, Nat.mod_eq_of_lt hk,
    Nat.shiftLeft_eq]

/-- A shift moves the ones at the top of a word up; an or with another number
takes none of them away. -/
theorem le_toNat_shiftLeft_or {x : UInt32} (b : UInt32) {m k : ℕ} (hmk : m + k < 32)
    (hx : 2 ^ 32 ≤ x.toNat + 2 ^ m) :
    2 ^ 32 ≤ ((x <<< UInt32.ofNat k) ||| b).toNat + 2 ^ (m + k) := by
  have hor : x.toNat * 2 ^ k % 2 ^ 32 ≤ ((x <<< UInt32.ofNat k) ||| b).toNat := by
    rw [UInt32.toNat_or, toNat_shiftLeft_ofNat x (by omega)]
    exact Nat.left_le_or
  have hlt := x.toNat_lt
  obtain ⟨y, hy⟩ : ∃ y, x.toNat + y = 2 ^ 32 := ⟨2 ^ 32 - x.toNat, by omega⟩
  have hle : y * 2 ^ k ≤ 2 ^ (m + k) := by
    rw [pow_add]
    exact Nat.mul_le_mul_right _ (by omega)
  have hpos : 0 < y * 2 ^ k := Nat.mul_pos (by omega) (Nat.two_pow_pos k)
  have hroom : 2 ^ (m + k) ≤ 2 ^ 31 := Nat.pow_le_pow_right (by decide) (by omega)
  have hmul : x.toNat * 2 ^ k + y * 2 ^ k = 2 ^ 32 * 2 ^ k := by
    rw [← Nat.add_mul, hy]
  have hk : 0 < 2 ^ k := Nat.two_pow_pos k
  omega

/-- A byte fits into the room a shift by eight or more has made. -/
theorem toNat_shiftLeft_or (x : UInt32) (b : UInt8) {k : ℕ} (h8 : 8 ≤ k) (hk : k < 32) :
    ((x <<< UInt32.ofNat k) ||| b.toUInt32).toNat = x.toNat * 2 ^ k % 2 ^ 32 + b.toNat := by
  have hroom : x.toNat * 2 ^ k % 2 ^ 32 = (x.toNat % 2 ^ (32 - k)) <<< k := by
    rw [Nat.shiftLeft_eq, ← Nat.mul_mod_mul_right, ← pow_add, Nat.sub_add_cancel hk.le]
  have hb : b.toUInt32.toNat < 2 ^ k := by
    have h := b.toNat_lt
    have hpow : 2 ^ 8 ≤ 2 ^ k := Nat.pow_le_pow_right (by decide) h8
    rw [UInt8.toNat_toUInt32]
    omega
  rw [UInt32.toNat_or, toNat_shiftLeft_ofNat x hk, hroom, ← Nat.shiftLeft_add_eq_or_of_lt hb,
    UInt8.toNat_toUInt32]

/-- Of four bytes the last two are left, at the two ends of the word. -/
theorem toNat_accumulate_four (a b c d : UInt8) (junk : UInt32) :
    (accumulate 0 [a, b, c, d] junk).toNat = c.toNat * 2 ^ 24 + d.toNat := by
  have hc := c.toNat_lt
  simp only [accumulate, Nat.zero_add, Nat.reduceAdd, Nat.reduceMul]
  rw [toNat_shiftLeft_or _ d (by decide) (by decide),
    toNat_shiftLeft_or _ c (by decide) (by decide), toNat_shiftLeft_or _ b (by decide) (by decide)]
  omega

/-- Less than four bytes leave the ones at the top of what the variable held before. -/
theorem le_toNat_accumulate {bs : List UInt8} (h : bs.length < 4) :
    2 ^ 24 ≤ (accumulate 0 bs 0xFFFFFFFF).toNat := by
  have hones : 2 ^ 32 ≤ (0xFFFFFFFF : UInt32).toNat + 2 ^ 0 := by decide
  have hfirst (a : UInt8) := le_toNat_shiftLeft_or a.toUInt32 (k := 0 * 8) (by decide) hones
  have hsecond (a b : UInt8) :=
    le_toNat_shiftLeft_or b.toUInt32 (k := (0 + 1) * 8) (by decide) (hfirst a)
  have hthird (a b c : UInt8) :=
    le_toNat_shiftLeft_or c.toUInt32 (k := (0 + 1 + 1) * 8) (by decide) (hsecond a b)
  match bs with
  | [] => exact Nat.le_of_ble_eq_true rfl
  | [a] =>
    have ha := hfirst a
    simp only [accumulate]
    omega
  | [a, b] =>
    have hb := hsecond a b
    simp only [accumulate]
    omega
  | [a, b, c] =>
    have hc := hthird a b c
    simp only [accumulate]
    omega
  | _ :: _ :: _ :: _ :: _ =>
    simp only [List.length_cons] at h
    omega

/-! ## Integers -/

/-- The conversion to `int` loses nothing. -/
theorem int32_inj {v w : UInt32} : int32 v = int32 w ↔ v = w := by
  unfold int32
  rw [BitVec.toInt_inj, UInt32.toBitVec_inj]

/-- It is undone by the conversion back. -/
theorem u32_int32 (w : UInt32) : u32 (int32 w) = w.toNat := by
  have hlt := w.toNat_lt
  unfold u32 int32
  rw [BitVec.toInt_eq_toNat_bmod, UInt32.toNat_toBitVec, Int.bmod_def]
  split <;> omega

/-- The four bytes of a number. -/
theorem int2byteBE_int32 (w : UInt32) :
    int2byteBE (int32 w) =
      [u8 (w.toNat / 16777216 : ℕ), u8 (w.toNat / 65536 : ℕ), u8 (w.toNat / 256 : ℕ),
        u8 (w.toNat : ℕ)] := by
  unfold int2byteBE
  rw [u32_int32]

/-- The number of bytes that are kept. -/
theorem FittingInt.length_bytes (v : FittingInt) : v.bytes.length = v.count := by
  have hle := v.le_four
  rw [FittingInt.bytes, List.length_drop, int2byteBE_length]
  omega

/-- A byte string with given bytes. -/
def ByteString.of (bs : List UInt8) : ByteString where
  size := bs.length
  leng := bs.length
  addr := 1
  buf := bs
  valid := ⟨Int.natCast_nonneg _, le_rfl, one_ne_zero⟩

theorem ByteString.content_of (bs : List UInt8) : (ByteString.of bs).content = bs :=
  List.take_length

/-- The value of four bytes. -/
theorem beValue_four (a b c d : UInt8) :
    beValue [a, b, c, d] =
      a.toNat * 2 ^ 24 + b.toNat * 2 ^ 16 + c.toNat * 2 ^ 8 + d.toNat := by
  simp only [beValue, List.foldl_cons, List.foldl_nil]
  omega

/-- Up to three bytes denote a number below the top byte of a word. -/
theorem beValue_lt {bs : List UInt8} (h : bs.length < 4) : beValue bs < 2 ^ 24 := by
  match bs with
  | [] => decide
  | [a] =>
    have ha := a.toNat_lt
    simp only [beValue, List.foldl_cons, List.foldl_nil]
    omega
  | [a, b] =>
    have ha := a.toNat_lt
    have hb := b.toNat_lt
    simp only [beValue, List.foldl_cons, List.foldl_nil]
    omega
  | [a, b, c] =>
    have ha := a.toNat_lt
    have hb := b.toNat_lt
    have hc := c.toNat_lt
    simp only [beValue, List.foldl_cons, List.foldl_nil]
    omega
  | _ :: _ :: _ :: _ :: _ =>
    simp only [List.length_cons] at h
    omega

/-- Of less than four bytes no number is read whatever the variable holds. -/
theorem exists_fmBytes2intBE_ne (p : ByteString) (h : p.content.length < 4) {w : UInt32}
    (hw : w.toNat < 2 ^ 24) : ∃ junk, fmBytes2intBE junk (some p.toFmBytes) ≠ .ok (int32 w) := by
  have hlen := p.length_content
  refine ⟨0xFFFFFFFF, fun hread => ?_⟩
  rw [fmBytes2intBE_eq p (by omega), Except.ok.injEq, int32_inj] at hread
  have hle := le_toNat_accumulate h
  rw [hread] at hle
  omega

/-- Of four bytes a number is read exactly where the last two denote it. -/
theorem fmBytes2intBE_four (p : ByteString) {a b c d : UInt8} (h : p.content = [a, b, c, d])
    (w : UInt32) :
    (∀ junk, fmBytes2intBE junk (some p.toFmBytes) = .ok (int32 w)) ↔
      c.toNat * 2 ^ 24 + d.toNat = w.toNat := by
  have hlen := p.length_content
  rw [h] at hlen
  simp only [List.length_cons, List.length_nil] at hlen
  have hread (junk : UInt32) : fmBytes2intBE junk (some p.toFmBytes) = .ok (int32 w) ↔
      c.toNat * 2 ^ 24 + d.toNat = w.toNat := by
    rw [fmBytes2intBE_eq p (by omega), Except.ok.injEq, int32_inj, ← UInt32.toNat_inj, h,
      toNat_accumulate_four]
  exact ⟨fun hall => (hread 0).mp (hall 0), fun hval junk => (hread junk).mpr hval⟩

/-- The reader is right about byte strings that are too long and about four bytes
the first three of which are zero. -/
theorem readsBigEndian_iff (p : ByteString) :
    ReadsBigEndian p ↔ 4 < p.leng ∨ p.leng = 4 ∧ p.content.take 3 = [0, 0, 0] := by
  have hlen := p.length_content
  unfold ReadsBigEndian
  by_cases hlong : 4 < p.leng
  · refine iff_of_true (fun junk => ?_) (.inl hlong)
    unfold fmBytes2intBE
    rw [derefOption_some, ok_bind, if_pos hlong, if_neg (by omega)]
    rfl
  · simp only [if_pos (not_lt.mp hlong)]
    have hlist : p.content.length < 4 ∨ p.content.length = 4 := by omega
    rcases hlist with hshort | hfour
    · have hval : (UInt32.ofNat (beValue p.content)).toNat < 2 ^ 24 := by
        have := beValue_lt hshort
        rw [UInt32.toNat_ofNat_of_lt' (this.trans (by decide))]
        exact this
      obtain ⟨junk, hjunk⟩ := exists_fmBytes2intBE_ne p hshort hval
      refine iff_of_false (fun hall => hjunk (hall junk)) fun hcond => ?_
      omega
    · obtain ⟨a, b, c, d, hbytes⟩ : ∃ a b c d, p.content = [a, b, c, d] := by
        match p.content, hfour with
        | [a, b, c, d], _ => exact ⟨a, b, c, d, rfl⟩
      have ha := a.toNat_lt
      have hb := b.toNat_lt
      have hc := c.toNat_lt
      have hd := d.toNat_lt
      have hsize : beValue [a, b, c, d] < UInt32.size := by
        rw [beValue_four]
        simp only [UInt32.size]
        omega
      rw [fmBytes2intBE_four p hbytes, hbytes, UInt32.toNat_ofNat_of_lt' hsize, beValue_four]
      have hzero : (a = 0 ∧ b = 0 ∧ c = 0) ↔ a.toNat = 0 ∧ b.toNat = 0 ∧ c.toNat = 0 := by
        simp only [← UInt8.toNat_inj, UInt8.toNat_zero]
      simp only [List.take_succ_cons, List.take_zero, List.cons.injEq, and_true]
      rw [hzero]
      omega

/-- A number is read back where it was kept in four bytes and needs one. -/
theorem FittingInt.roundTrips_iff (v : FittingInt) :
    v.RoundTrips ↔ v.count = 4 ∧ v.word.toNat < 256 := by
  have hle := v.le_four
  have hlen := v.length_bytes
  rcases hle.lt_or_eq with hshort | hfour
  · have hval : v.word.toNat < 2 ^ 24 := by
      have hpow : 256 ^ v.count ≤ 256 ^ 3 := Nat.pow_le_pow_right (by decide) (by omega)
      have := v.word_lt
      omega
    have hcontent := ByteString.content_of v.bytes
    obtain ⟨junk, hjunk⟩ := exists_fmBytes2intBE_ne (.of v.bytes) (by rw [hcontent]; omega) hval
    refine iff_of_false (fun hall => hjunk (hall _ hcontent junk)) fun hcond => ?_
    omega
  · have hbytes : v.bytes = int2byteBE (int32 v.word) := by
      rw [FittingInt.bytes, hfour, Nat.sub_self, List.drop_zero]
    rw [int2byteBE_int32] at hbytes
    have hlow : (u8 (v.word.toNat : ℕ)).toNat = v.word.toNat % 256 := toNat_u8_natCast _
    have hhigh : (u8 (v.word.toNat / 256 : ℕ)).toNat = v.word.toNat / 256 % 256 :=
      toNat_u8_natCast _
    have hlt := v.word.toNat_lt
    constructor
    · intro hall
      have hcontent := ByteString.content_of v.bytes
      have hread := (fmBytes2intBE_four _ (hcontent.trans hbytes) v.word).mp (hall _ hcontent)
      omega
    · rintro ⟨-, hword⟩ p hp
      refine (fmBytes2intBE_four p (hp.trans hbytes) v.word).mpr ?_
      omega

/-- What the reader makes of the bytes it is given, and of those the writer leaves. -/
theorem fmBytes2intBE_reads_iff (p : ByteString) (v : FittingInt) :
    (ReadsBigEndian p ↔ 4 < p.leng ∨ p.leng = 4 ∧ p.content.take 3 = [0, 0, 0]) ∧
      (v.RoundTrips ↔ v.count = 4 ∧ v.word.toNat < 256) :=
  ⟨readsBigEndian_iff p, v.roundTrips_iff⟩

/-- The number five in one byte. -/
def fiveInOneByte : FittingInt where
  word := 5
  count := 1
  one_le := le_rfl
  le_four := by decide
  word_lt := by decide

/-- The number five, kept in one byte, comes back as whatever the variable held
with a five in it; the number 256, kept in four bytes, comes back as 16777216. -/
theorem not_fiveInOneByte_roundTrips :
    ¬ fiveInOneByte.RoundTrips ∧ ¬ ReadsBigEndian (.of [0, 0, 1, 0]) := by
  constructor
  · intro h
    have hread := h (.of [5]) (ByteString.content_of _) 0xFFFFFFFF
    simp [fmBytes2intBE, ByteString.of, fmBytes2intBELoop, byteAt, fiveInOneByte, int32] at hread
  · intro h
    have hread := h 0
    simp [fmBytes2intBE, ByteString.of, fmBytes2intBELoop, byteAt, int32, beValue,
      FmBytes.content] at hread

end TsmVm
