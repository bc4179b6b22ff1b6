import Mathlib.Data.Nat.Digits.Lemmas

/-!
# Lengths in BER

A length below 128 is one octet. Any other is an octet with the top bit set, which
counts the octets behind it, and these are the length, the most significant octet
first. The decoder takes every such form, also one with zeros in front; the encoder
makes the shortest.
-/

namespace BerLength

/-- The number some octets stand for, the most significant first. -/
def value (bs : List UInt8) : ℕ := Nat.ofDigits 256 (bs.reverse.map UInt8.toNat)

/-- The octets of a number without zeros in front. -/
def octets (n : ℕ) : List UInt8 := (Nat.digits 256 n).reverse.map UInt8.ofNat

/-- A length in as few octets as it takes. -/
def encode (n : ℕ) : List UInt8 :=
  if n < 128 then [UInt8.ofNat n] else UInt8.ofNat (128 + (octets n).length) :: octets n

/-- The length at the start of some octets, and how many of them it takes up. -/
def decode : List UInt8 → Option (ℕ × ℕ)
  | [] => none
  | b :: rest =>
    if b.toNat < 128 then some (b.toNat, 1)
    -- the indefinite form, and the octet that is reserved
    else if b.toNat = 128 ∨ b.toNat = 255 then none
    else
      let k := b.toNat - 128
      if k ≤ rest.length then some (value (rest.take k), k + 1) else none

/-- The only shortest encoding of a length. -/
structure Canonical (enc : List UInt8) (n : ℕ) : Prop where
  /-- It is read back, whatever lies behind it. -/
  decodes : ∀ behind, decode (enc ++ behind) = some (n, enc.length)
  /-- No other is shorter. -/
  minimal : ∀ bs, decode bs = some (n, bs.length) → enc.length ≤ bs.length
  /-- No other is as short. -/
  unique : ∀ bs, decode bs = some (n, bs.length) → bs.length ≤ enc.length → bs = enc

variable {bs enc enc' rest : List UInt8} {b : UInt8} {m n k : ℕ}

/-! ## Octets -/

theorem octets_zero : octets 0 = [] := by
  rw [octets, Nat.digits_zero]
  rfl

/-- The last octet is the remainder. -/
theorem octets_of_pos (hn : 0 < n) : octets n = octets (n / 256) ++ [UInt8.ofNat n] := by
  have hlast : UInt8.ofNat (n % 256) = UInt8.ofNat n := by
    rw [← UInt8.toNat_inj, UInt8.toNat_ofNat', UInt8.toNat_ofNat', Nat.mod_mod]
  rw [octets, Nat.digits_def' (by decide) hn, List.reverse_cons, List.map_append, ← octets,
    List.map_singleton, hlast]

theorem length_octets (n : ℕ) : (octets n).length = (Nat.digits 256 n).length := by
  rw [octets, List.length_map, List.length_reverse]

/-- A number has as many octets as it needs. -/
theorem length_octets_le_iff : (octets n).length ≤ k ↔ n < 256 ^ k := by
  rw [length_octets, Nat.digits_length_le_iff (by decide)]

theorem value_octets (n : ℕ) : value (octets n) = n := by
  have hdigits : (Nat.digits 256 n).map (UInt8.toNat ∘ UInt8.ofNat) = Nat.digits 256 n := by
    have hid : ∀ d ∈ Nat.digits 256 n, (UInt8.toNat ∘ UInt8.ofNat) d = id d := fun d hd =>
      UInt8.toNat_ofNat_of_lt' (Nat.digits_lt_base (by decide) hd)
    rw [List.map_congr_left hid, List.map_id]
  rw [value, octets, ← List.map_reverse, List.reverse_reverse, List.map_map, hdigits,
    Nat.ofDigits_digits]

theorem toNat_lt_of_mem_map {d : ℕ} (hd : d ∈ bs.map UInt8.toNat) : d < 256 := by
  obtain ⟨b, -, rfl⟩ := List.mem_map.mp hd
  exact b.toNat_lt

theorem value_lt (bs : List UInt8) : value bs < 256 ^ bs.length := by
  have h := Nat.ofDigits_lt_base_pow_length (b := 256) (l := bs.reverse.map UInt8.toNat)
    (by decide) fun _ => toNat_lt_of_mem_map
  rwa [List.length_map, List.length_reverse] at h

/-- As many octets of the same number are the same. -/
theorem eq_of_value_eq {cs : List UInt8} (hlen : bs.length = cs.length)
    (h : value bs = value cs) : bs = cs := by
  have hmap := Nat.ofDigits_inj_of_len_eq (by decide)
    (by simpa using hlen) (fun _ => toNat_lt_of_mem_map) (fun _ => toNat_lt_of_mem_map) h
  exact List.reverse_injective
    (List.map_injective_iff.mpr (fun _ _ => UInt8.toNat_inj.mp) hmap)

/-! ## Encoding and decoding -/

theorem encode_of_lt (hn : n < 128) : encode n = [UInt8.ofNat n] := if_pos hn

theorem encode_of_le (hn : 128 ≤ n) :
    encode n = UInt8.ofNat (128 + (octets n).length) :: octets n := if_neg (by omega)

/-- A number of more than one octet at least has an octet. -/
theorem length_octets_pos (hn : 128 ≤ n) : 0 < (octets n).length := by
  rw [octets_of_pos (by omega), List.length_append, List.length_singleton]
  omega

/-- A length is read back, if the octets behind the first can be counted in it. -/
theorem decode_encode (hn : n < 256 ^ 126) (behind : List UInt8) :
    decode (encode n ++ behind) = some (n, (encode n).length) := by
  obtain hshort | hlong := Nat.lt_or_ge n 128
  · have hb : (UInt8.ofNat n).toNat = n := UInt8.toNat_ofNat_of_lt' (show n < 256 by omega)
    rw [encode_of_lt hshort, List.singleton_append, decode, hb, if_pos hshort]
    rfl
  · have hle := length_octets_le_iff.mpr hn
    have hpos := length_octets_pos hlong
    have hb : (UInt8.ofNat (128 + (octets n).length)).toNat = 128 + (octets n).length :=
      UInt8.toNat_ofNat_of_lt' (show 128 + (octets n).length < 256 by omega)
    rw [encode_of_le hlong, List.cons_append, decode, hb, if_neg (by omega), if_neg (by omega)]
    dsimp only
    rw [Nat.add_sub_cancel_left, if_pos (by simp), List.take_left, value_octets]
    rfl

/-- What is read of all of some octets. -/
theorem decode_eq_some (h : decode bs = some (n, bs.length)) :
    bs = [UInt8.ofNat n] ∧ n < 128 ∨
      ∃ b rest, bs = b :: rest ∧ rest ≠ [] ∧ b.toNat = 128 + rest.length ∧ value rest = n := by
  cases bs with
  | nil => cases h
  | cons b rest =>
    rw [decode] at h
    split at h
    · rename_i hshort
      obtain ⟨rfl, hlen⟩ := Prod.mk.inj (Option.some.inj h)
      obtain rfl : rest = [] := List.length_eq_zero_iff.mp (Nat.succ.inj hlen).symm
      exact .inl ⟨by rw [UInt8.ofNat_toNat], hshort⟩
    split at h
    · cases h
    dsimp only at h
    split at h
    · obtain ⟨hvalue, hlen⟩ := Prod.mk.inj (Option.some.inj h)
      have hk : b.toNat - 128 = rest.length := Nat.succ.inj hlen
      rw [hk, List.take_length] at hvalue
      refine .inr ⟨b, rest, rfl, ?_, by omega, hvalue⟩
      rintro rfl
      rw [List.length_nil] at hk
      omega
    · cases h

/-- The encoder makes the only shortest encoding. -/
theorem canonical_encode (hn : n < 256 ^ 126) : Canonical (encode n) n where
  decodes := decode_encode hn
  minimal bs h := by
    obtain ⟨rfl, hshort⟩ | ⟨b, rest, rfl, -, -, rfl⟩ := decode_eq_some h
    · rw [encode_of_lt hshort]
    · obtain hshort | hlong := Nat.lt_or_ge (value rest) 128
      · rw [encode_of_lt hshort, List.length_singleton, List.length_cons]
        omega
      · rw [encode_of_le hlong, List.length_cons, List.length_cons]
        exact Nat.succ_le_succ (length_octets_le_iff.mpr (value_lt rest))
  unique bs h hle := by
    obtain ⟨rfl, hshort⟩ | ⟨b, rest, rfl, hne, hb, rfl⟩ := decode_eq_some h
    · rw [encode_of_lt hshort]
    · have hrest := List.length_pos_iff.mpr hne
      have hlong : 128 ≤ value rest := by
        by_contra hshort
        rw [encode_of_lt (by omega), List.length_cons, List.length_singleton] at hle
        omega
      rw [encode_of_le hlong, List.length_cons, List.length_cons] at hle
      -- it has as many octets, and they are the same number
      have hlen : rest.length = (octets (value rest)).length :=
        le_antisymm (by omega) (length_octets_le_iff.mpr (value_lt rest))
      have hsame := eq_of_value_eq hlen (value_octets _).symm
      rw [encode_of_le hlong, ← hsame, ← hb, UInt8.ofNat_toNat]

/-- Of two lengths with canonical encodings none starts the other. -/
theorem Canonical.eq_of_starts (h : Canonical enc m) (h' : Canonical enc' n)
    (hpre : enc <+: enc') : m = n := by
  obtain ⟨behind, rfl⟩ := hpre
  have hfirst := h.decodes behind
  have hwhole := h'.decodes []
  rw [List.append_nil, hfirst] at hwhole
  exact congrArg Prod.fst (Option.some.inj hwhole)

end BerLength
