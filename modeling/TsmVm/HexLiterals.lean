import TsmVm.BigEndian

/-!
# Hexadecimal literals (`hexstr_to_hex`)

A script writes bytes as pairs of hexadecimal digits. The decoder subtracts the
character `0` from both characters of a pair, whatever they are, and takes a
text of odd length for one that goes on behind its end. So it decodes the texts
of decimal digits only, and refuses none.
-/

namespace TsmVm

/-- The digits of hexadecimal numbers. -/
def isHexDigit (b : UInt8) : Bool := isDigit b || (65 ≤ b && b ≤ 70) || (97 ≤ b && b ≤ 102)

/-- The value of a hexadecimal digit. -/
def hexDigitValue (b : UInt8) : UInt8 :=
  if isDigit b then b - 48 else if b ≤ 70 then b - 55 else b - 87

/-- The bytes a hexadecimal text denotes. -/
def hexBytes : List UInt8 → List UInt8
  | hi :: lo :: text => (16 * hexDigitValue hi + hexDigitValue lo) :: hexBytes text
  | _ => []

/-- Pairs of hexadecimal digits. -/
def IsHexText (text : List UInt8) : Prop :=
  text.length % 2 = 0 ∧ ∀ b ∈ text, isHexDigit b = true

/-- An operand with this text is decoded into the block `data_set` allocates for
it, and refused when it is no hexadecimal text. -/
def DecodesExactly (text : List UInt8) : Prop :=
  ∀ (p : ByteString) (addr : ℕ) (behind : List UInt8), p.content = text →
    (IsHexText text →
      hexstrToHex (some p.toFmBytes) (fmBytesAlloc addr behind (p.leng.tdiv 2)) =
        .ok (0, some ⟨(text.length / 2 : ℕ), (text.length / 2 : ℕ), addr,
          hexBytes text ++ behind⟩)) ∧
    (¬ IsHexText text → ∃ err ≠ 0,
      hexstrToHex (some p.toFmBytes) (fmBytesAlloc addr behind (p.leng.tdiv 2)) =
        .ok (err, fmBytesAlloc addr behind (p.leng.tdiv 2)))

/-! ## A pair of characters -/

/-- What the decoder makes of two characters. -/
def pairByte (hi lo : UInt8) : UInt8 := ((hi - 0x30) <<< 4) ||| (lo - 0x30)

/-- The characters that are hexadecimal digits. -/
theorem isHexDigit_iff {b : UInt8} :
    isHexDigit b = true ↔ isDigit b = true ∨ (65 ≤ b.toNat ∧ b.toNat ≤ 70) ∨
      97 ≤ b.toNat ∧ b.toNat ≤ 102 := by
  simp only [isHexDigit, Bool.or_eq_true, Bool.and_eq_true, decide_eq_true_eq,
    UInt8.le_iff_toNat_le, or_assoc]
  rfl

theorem isDigit_iff {b : UInt8} : isDigit b = true ↔ 48 ≤ b.toNat ∧ b.toNat ≤ 57 := by
  simp only [isDigit, Bool.and_eq_true, decide_eq_true_eq, UInt8.le_iff_toNat_le]
  rfl

/-- The difference of two numbers of eight bits. -/
theorem toNat_sub_of_le {b c : UInt8} (h : c.toNat ≤ b.toNat) :
    (b - c).toNat = b.toNat - c.toNat :=
  UInt8.toNat_sub_of_le _ _ (UInt8.le_iff_toNat_le.mpr h)

/-- The value of a hexadecimal digit as a number. -/
theorem toNat_hexDigitValue {b : UInt8} (h : isHexDigit b = true) :
    (hexDigitValue b).toNat =
      if b.toNat ≤ 57 then b.toNat - 48 else if b.toNat ≤ 70 then b.toNat - 55
        else b.toNat - 87 := by
  have h48 : (48 : UInt8).toNat = 48 := rfl
  have h55 : (55 : UInt8).toNat = 55 := rfl
  have h87 : (87 : UInt8).toNat = 87 := rfl
  have h70 : b ≤ 70 ↔ b.toNat ≤ 70 := UInt8.le_iff_toNat_le
  rw [isHexDigit_iff, isDigit_iff] at h
  unfold hexDigitValue
  simp only [isDigit_iff, h70]
  split_ifs <;> first | omega | rw [toNat_sub_of_le (by omega)]; omega

theorem toNat_hexDigitValue_lt {b : UInt8} (h : isHexDigit b = true) :
    (hexDigitValue b).toNat < 16 := by
  have hvalue := toNat_hexDigitValue h
  rw [isHexDigit_iff, isDigit_iff] at h
  split_ifs at hvalue <;> omega

/-- Of a letter the decoder keeps one to six, and it stands for ten at least. -/
theorem sub_mod_eq_iff {b : UInt8} (h : isHexDigit b = true) :
    (b.toNat - 48) % 16 = (hexDigitValue b).toNat ↔ isDigit b = true := by
  have hvalue := toNat_hexDigitValue h
  rw [isHexDigit_iff, isDigit_iff] at h
  rw [isDigit_iff]
  split_ifs at hvalue <;> omega

/-- The high digit of a pair. -/
theorem toNat_shiftLeft_four (x : UInt8) : (x <<< 4).toNat = x.toNat % 16 * 16 := by
  have h4 : (4 : UInt8).toNat % 8 = 4 := rfl
  rw [UInt8.toNat_shiftLeft, h4, Nat.shiftLeft_eq]
  omega

/-- A pair of decimal digits. -/
theorem toNat_pairByte (hi lo : UInt8) (hlo : (lo - 0x30).toNat < 16) :
    (pairByte hi lo).toNat = (hi - 0x30).toNat % 16 * 16 + (lo - 0x30).toNat := by
  have hshift : ((hi - 0x30) <<< 4).toNat = ((hi - 0x30).toNat % 16) <<< 4 := by
    rw [toNat_shiftLeft_four, Nat.shiftLeft_eq]
  unfold pairByte
  rw [UInt8.toNat_or, hshift, ← Nat.shiftLeft_add_eq_or_of_lt (i := 4) hlo, Nat.shiftLeft_eq]

/-- The low digit of a pair. -/
theorem toNat_pairByte_mod (hi lo : UInt8) :
    (pairByte hi lo).toNat % 16 = (lo - 0x30).toNat % 16 := by
  have hshift : ((hi - 0x30) <<< 4).toNat % 2 ^ 4 = 0 := by
    rw [toNat_shiftLeft_four]
    omega
  unfold pairByte
  rw [UInt8.toNat_or, show 16 = 2 ^ 4 from rfl, Nat.or_mod_two_pow, hshift, Nat.zero_or]

theorem toNat_sub_zero {b : UInt8} (h : isHexDigit b = true) :
    (b - 0x30).toNat = b.toNat - 48 := by
  have h48 : (0x30 : UInt8).toNat = 48 := rfl
  rw [isHexDigit_iff, isDigit_iff] at h
  exact toNat_sub_of_le (by omega)

/-- A pair is decoded if and only if neither of its digits is a letter. -/
theorem pairByte_eq_iff {hi lo : UInt8} (hhi : isHexDigit hi = true) (hlo : isHexDigit lo = true) :
    pairByte hi lo = 16 * hexDigitValue hi + hexDigitValue lo ↔
      isDigit hi = true ∧ isDigit lo = true := by
  have hhv := toNat_hexDigitValue_lt hhi
  have hlv := toNat_hexDigitValue_lt hlo
  have hvalue : (16 * hexDigitValue hi + hexDigitValue lo).toNat =
      16 * (hexDigitValue hi).toNat + (hexDigitValue lo).toNat := by
    have h16 : (16 : UInt8).toNat = 16 := rfl
    rw [UInt8.toNat_add, UInt8.toNat_mul, h16]
    omega
  have hmod := toNat_pairByte_mod hi lo
  have hpair := toNat_pairByte hi lo
  rw [toNat_sub_zero hlo] at hmod hpair
  rw [toNat_sub_zero hhi] at hpair
  rw [← UInt8.toNat_inj, hvalue, ← sub_mod_eq_iff hhi, ← sub_mod_eq_iff hlo]
  constructor
  · intro heq
    rw [heq] at hmod
    -- the low digit is the pair modulo 16, so it is no letter
    have hlow : (lo.toNat - 48) % 16 = (hexDigitValue lo).toNat := by omega
    have hdigit := isDigit_iff.mp ((sub_mod_eq_iff hlo).mp hlow)
    rw [hpair (by omega)] at heq
    omega
  · rintro ⟨hhigh, hlow⟩
    have hdigit := isDigit_iff.mp ((sub_mod_eq_iff hlo).mp hlow)
    rw [hpair (by omega)]
    omega

/-! ## The loop -/

/-- What the decoder makes of a text. -/
def pairBytes : List UInt8 → List UInt8
  | hi :: lo :: text => pairByte hi lo :: pairBytes text
  | _ => []

/-- Pairs of characters are decoded one behind the other. -/
theorem hexstrToHexLoop_eq {ibuf text rest : List UInt8} (front : List UInt8) {n k : ℕ}
    (behind : List UInt8)
    (htext : text <+: ibuf.drop (2 * k)) (hlen : text.length = 2 * n) (hfront : front.length = k)
    (hrest : rest.length = n) :
    hexstrToHexLoop ibuf (k + n) n k (front ++ rest ++ behind) =
      .ok (front ++ pairBytes text ++ behind) := by
  induction n generalizing text front rest k with
  | zero =>
    obtain rfl := List.length_eq_zero_iff.mp hlen
    obtain rfl := List.length_eq_zero_iff.mp hrest
    rfl
  | succ n ih =>
    match text, rest, hlen, hrest with
    | hi :: lo :: text, r :: rest, hlen, hrest =>
      obtain ⟨more, hmore⟩ := htext
      obtain ⟨hhi, hmore⟩ := next_of_drop hmore.symm
      obtain ⟨hlo, hmore⟩ := next_of_drop hmore
      have hnext : text <+: ibuf.drop (2 * (k + 1)) := ⟨more, hmore.symm⟩
      have hwrite : memWrite (front ++ r :: rest ++ behind) (k + (n + 1)) k [pairByte hi lo] =
          .ok (front ++ [pairByte hi lo] ++ rest ++ behind) := by
        have hfit : k + [pairByte hi lo].length ≤ k + (n + 1) ∧
            k + (n + 1) ≤ (front ++ r :: rest ++ behind).length := by
          simp only [List.length_append, List.length_cons, List.length_nil] at hrest ⊢
          omega
        rw [memWrite_natCast, if_pos (.inr hfit), ← hfront]
        simp
      have hround := ih (front ++ [pairByte hi lo]) (k := k + 1) hnext
        (by simpa [Nat.mul_add] using hlen) (by simp [hfront]) (by simpa using hrest)
      rw [show k + 1 + n = k + (n + 1) by omega] at hround
      rw [hexstrToHexLoop, byteAt_natCast hhi, ok_bind, byteAt_natCast hlo, ok_bind]
      change memWrite _ _ _ [pairByte hi lo] >>= _ = _
      rw [hwrite, ok_bind, hround]
      simp [pairBytes]

/-- The decoder never returns an error where the output has room. -/
theorem hexstrToHex_ret {p out : FmBytes} {r : ℤ × Option FmBytes}
    (hroom : p.leng.tdiv 2 ≤ out.size) (h : hexstrToHex (some p) (some out) = .ok r) :
    r.1 = 0 := by
  unfold hexstrToHex at h
  rw [derefOption_some, ok_bind, derefOption_some, ok_bind, if_neg (by omega)] at h
  obtain ⟨obuf, -, h⟩ := bind_eq_ok.mp h
  obtain rfl := Except.ok.inj h
  rfl

/-- It stores the pairs of a text of even length. -/
theorem hexstrToHex_even (p : ByteString) (heven : p.content.length % 2 = 0) (addr : ℕ)
    (behind : List UInt8) :
    hexstrToHex (some p.toFmBytes) (fmBytesAlloc addr behind (p.leng.tdiv 2)) =
      .ok (0, some ⟨(p.content.length / 2 : ℕ), (p.content.length / 2 : ℕ), addr,
        pairBytes p.content ++ behind⟩) := by
  have hleng := p.length_content
  have hhalf : p.leng.tdiv 2 = (p.content.length / 2 : ℕ) := by
    rw [← hleng]
    rfl
  have hrounds : ((p.leng + 1) / 2).toNat = p.content.length / 2 := by omega
  have hpairs : p.content.length = 2 * (p.content.length / 2) := by omega
  have htext : p.content <+: p.buf.drop (2 * 0) := List.take_prefix _ _
  have hzeros : (List.replicate (p.content.length / 2) (0 : UInt8)).length =
      p.content.length / 2 := List.length_replicate
  have hloop := hexstrToHexLoop_eq [] behind htext hpairs List.length_nil hzeros
  rw [Nat.zero_add, List.nil_append, List.nil_append] at hloop
  unfold hexstrToHex
  rw [hhalf, fmBytesAlloc, if_neg (by omega), derefOption_some, ok_bind, derefOption_some, ok_bind,
    hhalf, if_neg (lt_irrefl _), hrounds, Int.toNat_natCast, hloop]
  rfl

/-! ## Which texts are decoded -/

/-- A text of hexadecimal digits is decoded if and only if none is a letter. -/
theorem pairBytes_eq_iff {text : List UInt8} (h : IsHexText text) :
    pairBytes text = hexBytes text ↔ ∀ b ∈ text, isDigit b = true := by
  obtain ⟨heven, hdigits⟩ := h
  induction text using pairBytes.induct with
  | case1 hi lo text ih =>
    simp only [List.forall_mem_cons] at hdigits ⊢
    obtain ⟨hhi, hlo, hdigits⟩ := hdigits
    rw [List.length_cons, List.length_cons] at heven
    have hrest := ih (by omega) hdigits
    simp only [pairBytes, hexBytes, List.cons.injEq]
    rw [pairByte_eq_iff hhi hlo, hrest, and_assoc]
  | case2 text hshort =>
    match text with
    | [] => simp [pairBytes, hexBytes]
    | [_] => simp at heven
    | hi :: lo :: text => exact (hshort hi lo text rfl).elim

/-- A decimal digit is a hexadecimal one. -/
theorem isHexDigit_of_isDigit {b : UInt8} (h : isDigit b = true) : isHexDigit b = true :=
  isHexDigit_iff.mpr (.inl h)

/-- **Only decimal digits are decoded**, and nothing is refused: a text comes out
as it has to if and only if its length is even and it has no letter in it. -/
theorem decodesExactly_iff (text : List UInt8) :
    DecodesExactly text ↔ text.length % 2 = 0 ∧ ∀ b ∈ text, isDigit b = true := by
  constructor
  · intro h
    have hcontent := ByteString.content_of text
    obtain ⟨hgood, hbad⟩ := h (.of text) 1 [] hcontent
    by_cases hhex : IsHexText text
    · have hval := hgood hhex
      rw [hexstrToHex_even _ (by rw [hcontent]; exact hhex.1)] at hval
      simp only [hcontent, List.append_nil, Except.ok.injEq, Prod.mk.injEq, Option.some.injEq,
        FmBytes.mk.injEq, true_and] at hval
      exact ⟨hhex.1, (pairBytes_eq_iff hhex).mp hval⟩
    · obtain ⟨err, herr, hret⟩ := hbad hhex
      have hsize : 0 ≤ (ByteString.of text).leng.tdiv 2 :=
        Int.tdiv_nonneg (ByteString.of text).valid.leng_nonneg (by decide)
      rw [fmBytesAlloc, if_neg (not_lt.mpr hsize)] at hret
      exact (herr (hexstrToHex_ret le_rfl hret)).elim
  · rintro ⟨heven, hdigits⟩ p addr behind rfl
    have hhex : IsHexText p.content := ⟨heven, fun b hb => isHexDigit_of_isDigit (hdigits b hb)⟩
    refine ⟨fun _ => ?_, fun hnot => (hnot hhex).elim⟩
    rw [hexstrToHex_even p heven, (pairBytes_eq_iff hhex).mpr hdigits]

/-- The literal `A0` becomes the byte `10`. -/
theorem not_decodesExactly_A0 : ¬ DecodesExactly [65, 48] := by
  intro h
  have htext : IsHexText [65, 48] :=
    ⟨rfl, List.forall_mem_cons.mpr ⟨rfl, List.forall_mem_singleton.mpr rfl⟩⟩
  have hval := (h (.of [65, 48]) 1 [] rfl).1 htext
  rw [hexstrToHex_even _ rfl] at hval
  simp only [Except.ok.injEq, Prod.mk.injEq, Option.some.injEq, FmBytes.mk.injEq] at hval
  exact absurd hval.2.2.2.2 (by decide)

end TsmVm
