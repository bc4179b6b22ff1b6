import TsmVm.CapLoading
import TsmVm.Lib.BerLength

/-!
# Lengths written by `get_BERLen`

Two loops write a length above 127. The first shifts it down to count its bytes, the
second stores them from the last to the first. They agree for every 32-bit length, and
what they write is the encoding of BER that has no shorter form.
-/

namespace TsmVm

open BerLength

/-- The bytes `get_BERLen` writes. -/
def berBytes (len : UInt32) : List UInt8 :=
  let (count, berlen) := getBERLen len.toNat (List.replicate 5 0)
  berlen.take count

variable {n k : ℕ} {a : UInt8} {old behind : List UInt8}

/-- The first loop counts the octets. -/
theorem berLenFirst_eq (hn : 0 < n) (hk : n < 256 ^ k) : berLenFirst k n = (octets n).length := by
  induction k generalizing n with
  | zero => omega
  | succ k ih =>
    rw [berLenFirst, octets_of_pos hn, List.length_append, List.length_singleton]
    by_cases hlast : n / 256 = 0
    · rw [if_pos hlast, hlast, octets_zero]
      rfl
    · have hrest : n / 256 < 256 ^ k := Nat.div_lt_of_lt_mul (by rwa [← pow_succ'])
      rw [if_neg hlast, ih (by omega) hrest]

/-- The second loop stores them behind the first byte, from the last. -/
theorem berFill_eq (hold : old.length = (octets n).length) (behind : List UInt8) :
    berFill old.length n (a :: (old ++ behind)) = a :: (octets n ++ behind) := by
  induction old using List.reverseRecOn generalizing n behind with
  | nil =>
    have hnil : octets n = [] := List.length_eq_zero_iff.mp hold.symm
    rw [hnil]
    rfl
  | append_singleton old b ih =>
    have hn : 0 < n := by
      by_contra hzero
      obtain rfl : n = 0 := by omega
      rw [octets_zero] at hold
      simp at hold
    rw [octets_of_pos hn, List.length_append, List.length_append] at hold
    have hset : (a :: (old ++ [b] ++ behind)).set (old.length + 1) (u8 n) =
        a :: (old ++ (u8 n :: behind)) := by
      rw [List.set_cons_succ, List.append_assoc, List.set_append_right _ _ le_rfl, Nat.sub_self]
      rfl
    rw [List.length_append, List.length_singleton, berFill, hset, ih (by simpa using hold),
      octets_of_pos hn, u8_natCast, List.append_assoc]
    rfl

/-- Where there is room for the encoding, it is what is written, and nothing else. -/
theorem getBERLen_eq (hn : n < 2 ^ 32) (hold : old.length = (encode n).length)
    (behind : List UInt8) :
    getBERLen n (old ++ behind) = ((encode n).length, encode n ++ behind) := by
  unfold getBERLen
  by_cases hshort : n < 128
  · rw [encode_of_lt hshort] at hold ⊢
    obtain ⟨a, rfl⟩ := List.length_eq_one_iff.mp hold
    rw [if_pos hshort, u8_natCast]
    rfl
  · have hlong : 128 ≤ n := by omega
    rw [encode_of_le hlong] at hold ⊢
    obtain ⟨a, old, rfl⟩ := List.exists_cons_of_length_eq_add_one hold
    have hold : old.length = (octets n).length := Nat.succ.inj hold
    have hcount : berLenFirst 4 n = old.length := by
      rw [hold, berLenFirst_eq (by omega) hn]
    have hfirst : u8 ((old.length : ℤ) + 128) = UInt8.ofNat (128 + (octets n).length) := by
      rw [← u8_natCast, ← hold, Nat.add_comm]
      rfl
    rw [if_neg hshort, hcount]
    dsimp only
    rw [List.cons_append, List.set_cons_zero, berFill_eq hold, hfirst, hold]
    rfl

/-- There are five bytes at most. -/
theorem length_encode (hn : n < 2 ^ 32) : 1 ≤ (encode n).length ∧ (encode n).length ≤ 5 := by
  obtain hshort | hlong := Nat.lt_or_ge n 128
  · rw [encode_of_lt hshort]
    exact ⟨le_rfl, by simp⟩
  · have hle : (octets n).length ≤ 4 := length_octets_le_iff.mpr hn
    rw [encode_of_le hlong, List.length_cons]
    omega

/-- The bytes that are written are the encoding. -/
theorem berBytes_eq (len : UInt32) : berBytes len = encode len.toNat := by
  have hn := len.toNat_lt
  have hle := (length_encode hn).2
  have hroom : (List.replicate (encode len.toNat).length (0 : UInt8)).length =
      (encode len.toNat).length := List.length_replicate
  have hfive : List.replicate 5 (0 : UInt8) = List.replicate (encode len.toNat).length 0 ++
      List.replicate (5 - (encode len.toNat).length) 0 := by
    rw [List.replicate_append_replicate, Nat.add_sub_cancel' hle]
  unfold berBytes
  rw [hfive, getBERLen_eq hn hroom]
  exact List.take_left

/-- **BER lengths.** `get_BERLen` writes as many bytes as it returns, from one to five;
they are the only shortest encoding of the length, and no encoding starts another. -/
theorem getBERLen_canonical (len : UInt32) :
    (1 ≤ (berBytes len).length ∧ (berBytes len).length ≤ 5) ∧
    (∀ old behind : List UInt8, old.length = (berBytes len).length →
      getBERLen len.toNat (old ++ behind) = ((berBytes len).length, berBytes len ++ behind)) ∧
    Canonical (berBytes len) len.toNat ∧
    ∀ len', len ≠ len' → ¬ berBytes len <+: berBytes len' := by
  have hcanonical : ∀ l : UInt32, Canonical (encode l.toNat) l.toNat := fun l =>
    canonical_encode (l.toNat_lt.trans_le (by norm_num))
  simp only [berBytes_eq]
  refine ⟨length_encode len.toNat_lt, fun old behind hold => getBERLen_eq len.toNat_lt hold behind,
    hcanonical len, fun len' hne hpre => hne ?_⟩
  exact UInt32.toNat_inj.mp ((hcanonical len).eq_of_starts (hcanonical len') hpre)

end TsmVm
