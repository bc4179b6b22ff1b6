import TsmVm.FilledBlocks
import TsmVm.HexLiterals
import TsmVm.Lib.Lts

/-!
# Byte strings over any sequence of calls

Everything that reads a byte string trusts its length. Here are the byte strings that
any sequence of allocations, copies and conversions leaves, and what each call reads and
writes on the way: a call stays within its operands if it gets as far where the block of
the source ends behind the bytes in use, and that of the destination behind those that
were allocated.
-/

namespace TsmVm

/-- A byte string, and how many bytes were allocated for it. -/
structure HeldBytes where
  bytes : FmBytes
  allocated : ℕ

/-- The byte strings there are. A pointer is an index, or `NULL`. -/
abbrev ByteHeap := List HeldBytes

/-- What `calloc` returns for the buffer. -/
structure FreshBlock where
  addr : ℕ
  addr_ne_zero : addr ≠ 0
  /-- The memory behind the block. -/
  behind : List UInt8

/-- A call that stores into a byte string. The raw source of `fmBytes_copy_from` has no
length of its own; its bytes are there as far as they are asked for. -/
inductive StoreCall
  | copy (offset1 offset2 len : ℕ)
  | copyFrom (offset1 : ℕ) (src : Option (ℕ → UInt8)) (offset2 len : ℕ)
  | hexstr

/-- The call, on a destination and a source: what is returned, and the destination
afterwards. -/
def StoreCall.run : StoreCall → Option FmBytes → Option FmBytes → Res (ℤ × Option FmBytes)
  | .copy offset1 offset2 len, des, src => fmBytesCopy des offset1 src offset2 len
  | .copyFrom offset1 mem offset2 len, des, _ =>
    fmBytesCopyFrom des offset1 (mem.map fun m => (List.range (offset2 + len)).map m) offset2 len
  | .hexstr, des, src => hexstrToHex src des

/-- The calls. `calloc` may fail. -/
inductive ByteAct
  | alloc (size : ℕ) (block : Option FreshBlock)
  | store (c : StoreCall) (des src : Option ℕ)

/-- The byte string a pointer points to. -/
def pointee (h : ByteHeap) : Option ℕ → Option (Option FmBytes)
  | none => some none
  | some i => h[i]?.map fun o => some o.bytes

/-- The byte strings once the destination of a call has changed. -/
def assign (h : ByteHeap) : Option ℕ → Option FmBytes → ByteHeap
  | some i, some p => h.modify i fun o => { o with bytes := p }
  | _, _ => h

/-- One call that returns. -/
def byteStep (h : ByteHeap) : ByteAct → Option ByteHeap
  | .alloc _ none => some h
  | .alloc size (some b) =>
    match fmBytesAlloc b.addr b.behind size with
    | none => some h
    | some p => some (h ++ [⟨p, size⟩])
  | .store c des src =>
    match pointee h des, pointee h src with
    | some d, some s =>
      match c.run d s with
      | .ok (_, d) => some (assign h des d)
      | .error _ => none
    | _, _ => none

/-- The byte strings a program makes. -/
def byteHeaps : Lts.System ByteHeap ByteAct := Lts.ofFun (fun h => h = []) byteStep

/-- The length is one of bytes that were allocated. -/
structure FmBytes.Represented (p : FmBytes) (allocated : ℕ) : Prop where
  leng_nonneg : 0 ≤ p.leng
  leng_le : p.leng ≤ p.size
  size_eq : p.size = allocated
  /-- The memory holds the block. -/
  allocated_le : allocated ≤ p.buf.length
  addr_ne_zero : p.addr ≠ 0

/-- Every byte string is as it should be. -/
def Represented (h : ByteHeap) : Prop := ∀ o ∈ h, o.bytes.Represented o.allocated

/-- The memory up to the end of the bytes in use. -/
def FmBytes.upToLength (p : FmBytes) : FmBytes := { p with buf := p.buf.take p.leng.toNat }

/-- The memory up to the end of the block. -/
def FmBytes.upToSize (p : FmBytes) : FmBytes := { p with buf := p.buf.take p.size.toNat }

/-- A call reads nothing behind the bytes in use of its source, and writes nothing behind
the block of its destination. -/
def StoreCall.InBounds (c : StoreCall) (d s : Option FmBytes) : Prop :=
  c.run (d.map FmBytes.upToSize) (s.map FmBytes.upToLength) ≠ .error .outOfBounds

/-- A copy that is not refused has room for as many bytes behind those in use, and a text
that is not refused has an even length. -/
def StoreCall.Fits : StoreCall → Option FmBytes → Option FmBytes → Prop
  | .copy offset1 offset2 len, some d, some s =>
    offset1 + len ≤ d.size → offset2 + len ≤ s.leng → d.leng + len ≤ d.size
  | .copyFrom offset1 (some _) _ len, some d, _ => offset1 + len ≤ d.size → d.leng + len ≤ d.size
  | .hexstr, some d, some s => s.leng / 2 ≤ d.size → s.leng % 2 = 0
  | _, _, _ => True

/-- What holds of the operands of every call. -/
def OfOperands (P : StoreCall → Option FmBytes → Option FmBytes → Prop) (h : ByteHeap) :
    ByteAct → Prop
  | .alloc _ _ => True
  | .store c des src => ∀ d s, pointee h des = some d → pointee h src = some s → P c d s

/-! ## One call -/

section Operands

variable {d s p : FmBytes} {a b offset1 offset2 len : ℕ} {buf : List UInt8}

theorem FmBytes.Represented.size_le (h : p.Represented a) : p.size ≤ p.buf.length := by
  rw [h.size_eq]
  exact Int.ofNat_le.mpr h.allocated_le

theorem FmBytes.Represented.leng_le_buf (h : p.Represented a) : p.leng ≤ p.buf.length :=
  h.leng_le.trans h.size_le

/-- A byte string with other contents and a length within the block. -/
theorem FmBytes.Represented.store (h : p.Represented a) (hbuf : buf.length = p.buf.length)
    {leng : ℤ} (hleng : 0 ≤ leng) :
    ({ p with buf := buf, leng := leng } : FmBytes).Represented a ↔ leng ≤ p.size :=
  ⟨fun hnew => hnew.leng_le, fun hle =>
    ⟨hleng, hle, h.size_eq, hbuf.symm ▸ h.allocated_le, h.addr_ne_zero⟩⟩

/-- What is left of the memory of the operands is all a call may touch. -/
theorem upToSize_length (h : p.Represented a) : p.upToSize.size ≤ p.upToSize.buf.length := by
  have hsize := h.size_le
  simp only [FmBytes.upToSize, List.length_take]
  omega

theorem upToLength_length (h : p.Represented a) :
    (p.upToLength.buf.length : ℤ) = p.upToLength.leng := by
  have hleng := h.leng_le_buf
  have hpos := h.leng_nonneg
  simp only [FmBytes.upToLength, List.length_take]
  omega

/-- A copy the checks let through. -/
theorem fmBytesCopy_accepted (hd : d.addr ≠ 0) (hs : s.addr ≠ 0) (hdbuf : d.size ≤ d.buf.length)
    (hsbuf : s.leng ≤ s.buf.length) (hroom : (offset1 : ℤ) + len ≤ d.size)
    (hleft : (offset2 : ℤ) + len ≤ s.leng) :
    ∃ buf, fmBytesCopy (some d) offset1 (some s) offset2 len =
      .ok (0, some { d with buf := buf, leng := d.leng + len }) ∧ buf.length = d.buf.length := by
  have hread : memRead s.buf offset2 len = .ok ((s.buf.drop offset2).take len) := by
    rw [memRead_natCast, if_pos (by rw [List.length_drop]; omega)]
  have hlen := memRead_length hread
  have hfit : offset1 + ((s.buf.drop offset2).take len).length ≤ d.size.toNat := by omega
  obtain ⟨buf, hwrite, hbuf⟩ := memWrite_fits hfit (show _ ≤ d.buf.length by omega)
  refine ⟨buf, ?_, hbuf⟩
  unfold fmBytesCopy
  dsimp only
  rw [if_neg (not_or.mpr ⟨hs, hd⟩), if_neg (by omega), if_neg (by omega), hread, ok_bind, hwrite]
  rfl

/-- A copy the checks refuse. -/
theorem fmBytesCopy_refused (h : ¬ ((offset1 : ℤ) + len ≤ d.size ∧ (offset2 : ℤ) + len ≤ s.leng)) :
    fmBytesCopy (some d) offset1 (some s) offset2 len = .ok (-1, some d) := by
  unfold fmBytesCopy
  dsimp only
  split
  · rfl
  split
  · rfl
  · rw [if_pos (by omega)]

/-- A copy from raw memory the check lets through. -/
theorem fmBytesCopyFrom_accepted (mem : ℕ → UInt8) (offset2 : ℕ) (hd : d.addr ≠ 0)
    (hdbuf : d.size ≤ d.buf.length) (hroom : (offset1 : ℤ) + len ≤ d.size) :
    ∃ buf, fmBytesCopyFrom (some d) offset1 (some ((List.range (offset2 + len)).map mem)) offset2
        len = .ok (0, some { d with buf := buf, leng := d.leng + len }) ∧
      buf.length = d.buf.length := by
  have hread : memRead ((List.range (offset2 + len)).map mem) offset2 len =
      .ok ((((List.range (offset2 + len)).map mem).drop offset2).take len) := by
    rw [memRead_natCast, if_pos (by simp)]
  have hlen := memRead_length hread
  have hfit : offset1 + ((((List.range (offset2 + len)).map mem).drop offset2).take len).length ≤
      d.size.toNat := by omega
  obtain ⟨buf, hwrite, hbuf⟩ := memWrite_fits hfit (show _ ≤ d.buf.length by omega)
  refine ⟨buf, ?_, hbuf⟩
  unfold fmBytesCopyFrom
  dsimp only
  rw [if_neg hd, if_neg (by omega), hread, ok_bind, hwrite]
  rfl

theorem fmBytesCopyFrom_refused (mem : List UInt8) (offset2 : ℕ)
    (h : ¬ (offset1 : ℤ) + len ≤ d.size) :
    fmBytesCopyFrom (some d) offset1 (some mem) offset2 len = .ok (-1, some d) := by
  unfold fmBytesCopyFrom
  dsimp only
  split
  · rfl
  · rw [if_pos (by omega)]

/-- The decoder gets through pairs that are all there. -/
theorem hexstrToHexLoop_fits {ibuf obuf : List UInt8} {size n k : ℕ}
    (hin : 2 * (k + n) ≤ ibuf.length) (hout : k + n ≤ size) (hsize : size ≤ obuf.length) :
    ∃ obuf', hexstrToHexLoop ibuf size n k obuf = .ok obuf' ∧ obuf'.length = obuf.length := by
  induction n generalizing k obuf with
  | zero => exact ⟨obuf, rfl, rfl⟩
  | succ n ih =>
    obtain ⟨hi, hhi⟩ : ∃ hi, byteAt ibuf (2 * k : ℕ) = .ok hi := exists_byteAt (by omega)
    obtain ⟨lo, hlo⟩ : ∃ lo, byteAt ibuf (2 * k + 1 : ℕ) = .ok lo := exists_byteAt (by omega)
    have hfit : k + [((hi - 0x30) <<< 4) ||| (lo - 0x30)].length ≤ size := by
      rw [List.length_singleton]
      omega
    obtain ⟨obuf₁, hwrite, hlen₁⟩ := memWrite_fits hfit hsize
    obtain ⟨obuf', hrest, hlen'⟩ := ih (show 2 * (k + 1 + n) ≤ ibuf.length by omega) (by omega)
      (show size ≤ obuf₁.length by omega)
    exact ⟨obuf', by rw [hexstrToHexLoop, hhi, ok_bind, hlo, ok_bind, hwrite, ok_bind, hrest],
      hlen'.trans hlen₁⟩

/-- It leaves the text where the last pair lacks its second character. -/
theorem hexstrToHexLoop_odd (obuf : List UInt8) (size : ℕ) {ibuf : List UInt8} {n k : ℕ}
    (hin : ibuf.length = 2 * (k + n) + 1) :
    hexstrToHexLoop ibuf size (n + 1) k obuf = .error .outOfBounds := by
  induction n generalizing k obuf with
  | zero =>
    obtain ⟨hi, hhi⟩ : ∃ hi, byteAt ibuf (2 * k : ℕ) = .ok hi := exists_byteAt (by omega)
    have hlo : byteAt ibuf (2 * k + 1 : ℕ) = .error .outOfBounds := byteAt_end (by omega)
    rw [hexstrToHexLoop, hhi, ok_bind, hlo, error_bind]
  | succ n ih =>
    obtain ⟨hi, hhi⟩ : ∃ hi, byteAt ibuf (2 * k : ℕ) = .ok hi := exists_byteAt (by omega)
    obtain ⟨lo, hlo⟩ : ∃ lo, byteAt ibuf (2 * k + 1 : ℕ) = .ok lo := exists_byteAt (by omega)
    rw [hexstrToHexLoop, hhi, ok_bind, hlo, ok_bind, memWrite_natCast]
    split
    · rw [ok_bind]
      exact ih _ (by omega)
    · rfl

/-- Of a call that comes to its end, what it leaves in the destination is all that is to
be looked at. -/
theorem kept_iff {run cut : Res (ℤ × Option FmBytes)} {ret : ℤ} {p : FmBytes}
    {r : ℤ × Option FmBytes} (hcut : cut = .ok r) (hrun : run = .ok (ret, some p)) :
    (cut ≠ .error .outOfBounds ∧ ∀ ret' q, run = .ok (ret', some q) → q.Represented a) ↔
      p.Represented a := by
  rw [hcut, hrun]
  constructor
  · exact fun h => h.2 ret p rfl
  · intro hp
    refine ⟨fun herr => (by cases herr), fun ret' q hq => ?_⟩
    obtain ⟨-, rfl⟩ : ret = ret' ∧ p = q := by simpa using hq
    exact hp

/-- A copy fits exactly where it keeps the length within the block. -/
theorem copy_fits_iff (hd : d.Represented a) (hs : s.Represented b) :
    (StoreCall.copy offset1 offset2 len).Fits (some d) (some s) ↔
      (StoreCall.copy offset1 offset2 len).InBounds (some d) (some s) ∧
        ∀ ret p, (StoreCall.copy offset1 offset2 len).run (some d) (some s) = .ok (ret, some p) →
          p.Represented a := by
  have hsleng := (upToLength_length hs).ge
  have hpos := hd.leng_nonneg
  simp only [StoreCall.Fits, StoreCall.InBounds, StoreCall.run, Option.map_some]
  by_cases haccept : (offset1 : ℤ) + len ≤ d.size ∧ (offset2 : ℤ) + len ≤ s.leng
  · obtain ⟨hroom, hleft⟩ := haccept
    obtain ⟨buf, hrun, hbuf⟩ := fmBytesCopy_accepted hd.addr_ne_zero hs.addr_ne_zero hd.size_le
      hs.leng_le_buf hroom hleft
    obtain ⟨buf', hcut, -⟩ := fmBytesCopy_accepted (d := d.upToSize) (s := s.upToLength)
      hd.addr_ne_zero hs.addr_ne_zero (upToSize_length hd) hsleng hroom hleft
    have hstore := hd.store hbuf (show 0 ≤ d.leng + len by omega)
    rw [kept_iff hcut hrun, hstore]
    exact ⟨fun hfits => hfits hroom hleft, fun hfits _ _ => hfits⟩
  · have hcut := fmBytesCopy_refused (d := d.upToSize) (s := s.upToLength) haccept
    rw [kept_iff hcut (fmBytesCopy_refused haccept)]
    exact ⟨fun _ => hd, fun _ hroom hleft => absurd ⟨hroom, hleft⟩ haccept⟩

/-- So does a copy from raw memory. -/
theorem copyFrom_fits_iff (mem : ℕ → UInt8) (src : Option FmBytes) (hd : d.Represented a) :
    (StoreCall.copyFrom offset1 (some mem) offset2 len).Fits (some d) src ↔
      (StoreCall.copyFrom offset1 (some mem) offset2 len).InBounds (some d) src ∧
        ∀ ret p, (StoreCall.copyFrom offset1 (some mem) offset2 len).run (some d) src =
          .ok (ret, some p) → p.Represented a := by
  have hpos := hd.leng_nonneg
  simp only [StoreCall.Fits, StoreCall.InBounds, StoreCall.run, Option.map_some]
  by_cases hroom : (offset1 : ℤ) + len ≤ d.size
  · obtain ⟨buf, hrun, hbuf⟩ := fmBytesCopyFrom_accepted mem offset2 hd.addr_ne_zero
      hd.size_le hroom
    obtain ⟨buf', hcut, -⟩ := fmBytesCopyFrom_accepted (d := d.upToSize) mem offset2
      hd.addr_ne_zero (upToSize_length hd) hroom
    have hstore := hd.store hbuf (show 0 ≤ d.leng + len by omega)
    rw [kept_iff hcut hrun, hstore]
    exact ⟨fun hfits => hfits hroom, fun hfits _ => hfits⟩
  · have hcut := fmBytesCopyFrom_refused (d := d.upToSize)
      ((List.range (offset2 + len)).map mem) offset2 hroom
    rw [kept_iff hcut (fmBytesCopyFrom_refused _ _ hroom)]
    exact ⟨fun _ => hd, fun _ h => absurd h hroom⟩

/-- A text is converted within its operands exactly where its length is even. -/
theorem hexstr_fits_iff (hd : d.Represented a) (hs : s.Represented b) :
    StoreCall.hexstr.Fits (some d) (some s) ↔
      StoreCall.hexstr.InBounds (some d) (some s) ∧
        ∀ ret p, StoreCall.hexstr.run (some d) (some s) = .ok (ret, some p) →
          p.Represented a := by
  have hslen := upToLength_length hs
  have hdlen := upToSize_length hd
  have hpos := hs.leng_nonneg
  have hdpos := hd.leng_nonneg.trans hd.leng_le
  have hhalf : s.leng.tdiv 2 = s.leng / 2 := Int.tdiv_eq_ediv_of_nonneg hpos
  simp only [StoreCall.Fits, StoreCall.InBounds, StoreCall.run, Option.map_some, hexstrToHex,
    derefOption_some, ok_bind]
  have hleng : s.upToLength.leng = s.leng := rfl
  have hsize : d.upToSize.size = d.size := rfl
  rw [hleng] at hslen ⊢
  rw [hsize] at hdlen ⊢
  rw [hhalf]
  by_cases hrefuse : d.size < s.leng / 2
  · rw [if_pos hrefuse, if_pos hrefuse, pure_eq_ok, pure_eq_ok, kept_iff rfl rfl]
    exact ⟨fun _ => hd, fun _ h => by omega⟩
  · rw [if_neg hrefuse, if_neg hrefuse]
    by_cases heven : s.leng % 2 = 0
    · have hsbuf := hs.leng_le_buf
      have hdbuf := hd.size_le
      have hout : 0 + ((s.leng + 1) / 2).toNat ≤ d.size.toNat := by omega
      obtain ⟨buf, hrun, hbuf⟩ := hexstrToHexLoop_fits (show _ ≤ s.buf.length by omega) hout
        (show _ ≤ d.buf.length by omega)
      obtain ⟨buf', hcut, -⟩ := hexstrToHexLoop_fits (show _ ≤ s.upToLength.buf.length by omega)
        hout (show _ ≤ d.upToSize.buf.length by omega)
      have hstore := hd.store hbuf (show 0 ≤ s.leng / 2 by omega)
      rw [hrun, hcut, ok_bind, ok_bind, pure_eq_ok, pure_eq_ok, kept_iff rfl rfl, hstore]
      exact ⟨fun _ => by omega, fun _ _ => heven⟩
    · -- the last round reads a byte behind the text
      obtain ⟨n, hn⟩ : ∃ n, ((s.leng + 1) / 2).toNat = n + 1 := ⟨((s.leng + 1) / 2).toNat - 1, by
        omega⟩
      have hodd := hexstrToHexLoop_odd d.upToSize.buf d.size.toNat
        (show s.upToLength.buf.length = 2 * (0 + n) + 1 by omega)
      rw [hn, hodd]
      exact ⟨fun h => absurd (h (by omega)) heven, fun h => absurd rfl h.1⟩

/-- A call on a byte string fits exactly where it stays within its operands and leaves the
byte string as it should be. -/
theorem StoreCall.fits_iff (c : StoreCall) {src : Option FmBytes} (hd : d.Represented a)
    (hsrc : ∀ s, src = some s → ∃ b, s.Represented b) :
    c.Fits (some d) src ↔ c.InBounds (some d) src ∧
      ∀ ret p, c.run (some d) src = .ok (ret, some p) → p.Represented a := by
  cases c with
  | copy offset1 offset2 len =>
    cases src with
    | none => exact (iff_of_true trivial hd).trans (kept_iff rfl rfl).symm
    | some s =>
      obtain ⟨b, hs⟩ := hsrc s rfl
      exact copy_fits_iff hd hs
  | copyFrom offset1 mem offset2 len =>
    cases mem with
    | none => exact (iff_of_true trivial hd).trans (kept_iff rfl rfl).symm
    | some mem => exact copyFrom_fits_iff mem src hd
  | hexstr =>
    cases src with
    | none =>
      exact ⟨fun _ => ⟨fun herr => (by cases herr), fun ret p hp => (by cases hp)⟩,
        fun _ => trivial⟩
    | some s =>
      obtain ⟨b, hs⟩ := hsrc s rfl
      exact hexstr_fits_iff hd hs

/-- A call without a destination stores nothing. -/
theorem StoreCall.null_inBounds (c : StoreCall) (src : Option FmBytes) :
    c.Fits none src ∧ c.InBounds none src := by
  cases c with
  | copy offset1 offset2 len =>
    refine ⟨trivial, fun herr => ?_⟩
    cases src <;> cases herr
  | copyFrom offset1 mem offset2 len =>
    cases mem with
    | none => exact ⟨trivial, fun herr => (by cases herr)⟩
    | some mem => exact ⟨trivial, fun herr => (by cases herr)⟩
  | hexstr =>
    refine ⟨trivial, fun herr => ?_⟩
    cases src <;> cases herr

end Operands

/-! ## Any sequence of calls -/

variable {h h' : ByteHeap}

/-- What a pointer points to is as it should be. -/
theorem Represented.pointee (hrep : Represented h) {ptr : Option ℕ} {p : FmBytes}
    (hp : pointee h ptr = some (some p)) : ∃ a, p.Represented a := by
  cases ptr with
  | none => cases hp
  | some i =>
    obtain ⟨o, ho, hsome⟩ := Option.map_eq_some_iff.mp hp
    obtain rfl := Option.some.inj hsome
    exact ⟨o.allocated, hrep o (List.mem_of_getElem? ho)⟩

/-- The byte strings are as they should be after a call exactly where its destination is. -/
theorem represented_assign_iff (hrep : Represented h) {i : ℕ} {o : HeldBytes}
    (ho : h[i]? = some o) (p : FmBytes) :
    Represented (assign h (some i) (some p)) ↔ p.Represented o.allocated := by
  have hget : ∀ k : ℕ, (assign h (some i) (some p))[k]? =
      h[k]?.map fun o => if i = k then { o with bytes := p } else o := by
    intro k
    rw [assign, List.getElem?_modify]
    rfl
  constructor
  · intro hall
    have hi := hget i
    rw [ho, Option.map_some, if_pos rfl] at hi
    exact hall _ (List.mem_of_getElem? hi)
  · intro hp o' ho'
    obtain ⟨k, hk⟩ := List.mem_iff_getElem?.mp ho'
    rw [hget] at hk
    obtain ⟨old, hold, rfl⟩ := Option.map_eq_some_iff.mp hk
    split
    · subst k
      obtain rfl := Option.some.inj (ho.symm.trans hold)
      exact hp
    · exact hrep old (List.mem_of_getElem? hold)

/-- A fresh byte string is as it should be. -/
theorem represented_alloc (b : FreshBlock) (size : ℕ) :
    (filledBytes b.addr b.behind size []).Represented size := by
  refine ⟨le_rfl, Int.natCast_nonneg size, rfl, ?_, b.addr_ne_zero⟩
  simp [filledBytes]

/-- A call fits exactly where it stays within its operands and leaves all byte strings as
they should be. -/
theorem byteStep_iff (hrep : Represented h) (act : ByteAct) :
    OfOperands StoreCall.Fits h act ↔ OfOperands StoreCall.InBounds h act ∧
      ∀ h', byteStep h act = some h' → Represented h' := by
  cases act with
  | alloc size block =>
    refine ⟨fun _ => ⟨trivial, fun h' hstep => ?_⟩, fun _ => trivial⟩
    cases block with
    | none =>
      obtain rfl := Option.some.inj hstep
      exact hrep
    | some b =>
      rw [byteStep, fmBytesAlloc_filledBytes] at hstep
      obtain rfl := Option.some.inj hstep
      intro o ho
      obtain ho | ho := List.mem_append.mp ho
      · exact hrep o ho
      · obtain rfl := List.mem_singleton.mp ho
        exact represented_alloc b size
  | store c des src =>
    cases hsrc : pointee h src with
    | none => simp [OfOperands, byteStep, hsrc]
    | some s =>
      have hs : ∀ p, s = some p → ∃ b, p.Represented b := fun p hp => hrep.pointee (hp ▸ hsrc)
      have hpair : ∀ {P : StoreCall → Option FmBytes → Option FmBytes → Prop} {d},
          pointee h des = some d → (OfOperands P h (.store c des src) ↔ P c d s) := by
        intro P d hdes
        simp [OfOperands, hdes, hsrc]
      have hcall : ∀ {d}, pointee h des = some d →
          byteStep h (.store c des src) = match c.run d s with
            | .ok (_, d) => some (assign h des d)
            | .error _ => none := by
        intro d hdes
        simp only [byteStep, hdes, hsrc]
      cases des with
      | none =>
        have hnull := c.null_inBounds s
        rw [hpair rfl, hpair rfl]
        refine ⟨fun _ => ⟨hnull.2, fun h' hstep => ?_⟩, fun _ => hnull.1⟩
        rw [hcall rfl] at hstep
        split at hstep
        · obtain rfl := Option.some.inj hstep
          exact hrep
        · cases hstep
      | some i =>
        cases ho : h[i]? with
        | none => simp [OfOperands, byteStep, pointee, ho]
        | some o =>
          have hdes : pointee h (some i) = some (some o.bytes) := by simp [pointee, ho]
          have hd := hrep o (List.mem_of_getElem? ho)
          rw [hpair hdes, hpair hdes, c.fits_iff hd hs, hcall hdes]
          refine and_congr_right fun _ => ⟨fun hkeeps h' hrun => ?_, fun hall ret p hrun => ?_⟩
          · split at hrun
            · rename_i ret d hok
              obtain rfl := Option.some.inj hrun
              cases d with
              | none => exact hrep
              | some p => exact (represented_assign_iff hrep ho p).mpr (hkeeps ret p hok)
            · cases hrun
          · rw [hrun] at hall
            exact (represented_assign_iff hrep ho p).mp (hall _ rfl)

/-- **The representation of byte strings.** As long as every call fits, every byte string
has a length within the bytes allocated for it, and every call stays within its operands.
Of the calls that can come next those that fit are the ones that keep it so. -/
theorem byteHeaps_represented_iff (h : ByteHeap) :
    (Lts.Reachable (Lts.restrict byteHeaps (OfOperands StoreCall.Fits)) h → Represented h) ∧
    (Represented h → ∀ act, OfOperands StoreCall.Fits h act ↔
      OfOperands StoreCall.InBounds h act ∧
        ∀ h', byteStep h act = some h' → Represented h') := by
  refine ⟨fun hreach => ?_, fun hrep act => byteStep_iff hrep act⟩
  refine hreach.invariant ?_ ?_
  · rintro _ rfl o ho
    cases ho
  · intro a l b ha hstep
    exact ((byteStep_iff ha l).mp hstep.1).2 b hstep.2

/-- A byte written twice to a block of one byte counts twice. -/
theorem byteHeaps_fail : ¬ ∀ h, Lts.Reachable byteHeaps h →
    Represented h ∧ ∀ act, OfOperands StoreCall.InBounds h act := by
  intro hall
  have hrun : ∃ p, [ByteAct.alloc 1 (some ⟨4, by decide, []⟩),
      .store (.copyFrom 0 (some fun _ => 0x2A) 0 1) (some 0) none,
      .store (.copyFrom 0 (some fun _ => 0x2A) 0 1) (some 0) none].foldlM byteStep [] =
        some [⟨p, 1⟩] ∧ p.leng = 2 ∧ p.size = 1 :=
    ⟨_, rfl, rfl, rfl⟩
  obtain ⟨p, hfold, hleng, hsize⟩ := hrun
  have hrep := (hall _ ⟨[], _, rfl, Lts.run_of_foldlM hfold⟩).1 _ (List.mem_singleton_self _)
  have hle := hrep.leng_le
  rw [hleng, hsize] at hle
  exact absurd hle (by decide)

end TsmVm
