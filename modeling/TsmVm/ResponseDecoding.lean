import TsmVm.Concurrent
import TsmVm.TagFormat

/-!
# Decoding a response

The decoder takes the byte behind the length of an element for its length, and
the bytes behind its data for the data. It moves its cursor by the length it has
read. A fragment therefore comes out right only where its sequence number
happens to count it and its data happen to be repeated behind it, and the array
is never grown, so that the sixteenth fragment is one too many.
-/

namespace TsmVm

variable {u : Unspec} {s : Skb} {fba : FmBytesArray} {head rest room : List UInt8}
variable {a b c : UInt8} {rounds i : ℕ} {f : Fragment} {fs : List Fragment}

/-- `skip_tagAx` followed by `tagA0s_to_fmBytesarray`. -/
def decodeResponse (u : Unspec) (skb : Skb) : Res (FmBytesArray × Skb) := do
  let skb ← skipTagAx skb
  tagA0sToFmBytesArray u skb

/-- Exactly the data of a fragment. -/
def FmBytes.Holds (p : FmBytes) (f : Fragment) : Prop :=
  p.leng = f.bytes.length ∧ p.content = f.bytes

/-- The fragments lie in the slots from `i` on, they are the last ones in use,
and nothing is left of the buffer. -/
structure Decoded (i : ℕ) (fs : List Fragment) (r : FmBytesArray × Skb) : Prop where
  /-- The slots in use end behind the fragments. -/
  cnt_eq : r.1.cnt = i + fs.length
  /-- Each fragment has its slot. -/
  slot : ∀ k f, fs[k]? = some f → ∃ p, r.1.array[i + k]? = some (some p) ∧ p.Holds f
  /-- The buffer is consumed. -/
  consumed : r.2.len = 0

/-- The decoder gets this fragment right, with `rest` of the payload and then
`room` behind it. -/
def Fragment.Readable (f : Fragment) (rest room : List UInt8) : Prop :=
  if f.bytes = [] then f.seq = 1 ∨ rest.length + 1 < f.seq.toNat
  else f.bytes.length < 254 ∧ f.seq.toNat = f.bytes.length + 1 ∧
    (rest ++ room).take f.bytes.length = f.bytes

instance (f : Fragment) (rest room : List UInt8) : Decidable (f.Readable rest room) :=
  inferInstanceAs (Decidable (ite _ _ _))

/-- The decoder gets all of these fragments right. -/
def AllReadable (room : List UInt8) : List Fragment → Prop
  | [] => True
  | f :: fs => f.Readable (tagBody fs) room ∧ AllReadable room fs

/-! ## One round -/

/-- Filling a fresh block from memory. -/
theorem fmBytesCopyFrom_alloc {addr n : ℕ} (haddr : addr ≠ 0) (behind mem : List UInt8) :
    fmBytesCopyFrom (fmBytesAlloc addr behind n) 0 (some mem) 0 n =
      if n ≤ mem.length then
        .ok (0, some { size := n, leng := n, addr := addr, buf := mem.take n ++ behind })
      else .error .outOfBounds := by
  rw [fmBytesAlloc_natCast]
  rcases Nat.eq_zero_or_pos n with rfl | hn
  · simp [fmBytesCopyFrom, haddr, memRead, memWrite]
  · by_cases hfit : n ≤ mem.length
    · have hlen : (mem.take n).length = n := by simp [hfit]
      have hne : mem.take n ≠ [] := fun hnil => by simp [hnil] at hlen; omega
      simp [fmBytesCopyFrom, haddr, memRead, memWrite, hn, hn.ne', hfit, hne, hlen]
    · simp [fmBytesCopyFrom, haddr, memRead, hn.ne', hfit]

/-- Without a block nothing is copied. -/
theorem fmBytesCopyFrom_none (offset1 : ℤ) (src : Option (List UInt8)) (offset2 len : ℤ) :
    fmBytesCopyFrom none offset1 src offset2 len = .ok (-1, none) := by
  unfold fmBytesCopyFrom
  cases src <;> rfl

/-- A round consumes three bytes and takes the third for the length. -/
theorem tagA0ToFmBytes_eq (u : Unspec) (i : ℕ) (h : s.Layout head (a :: b :: c :: rest) room) :
    ∃ t head', t.Layout head' rest room ∧ ∀ n : ℤ, (c.toNat : ℤ) - 1 = n →
      tagA0ToFmBytes u i s = do
        let copied ← fmBytesCopyFrom (fmBytesAlloc (u.addr i) (u.behind i) n) 0
          ((skbPull t (u32 n)).1.map fun q => (skbPull t (u32 n)).2.buff.drop q) 0 n
        return (copied.2, (skbPull t (u32 n)).2) := by
  obtain ⟨s₁, hpull₁, h₁⟩ := Skb.Layout.pull [a] h
  obtain ⟨s₂, hpull₂, h₂⟩ := Skb.Layout.pull [b] h₁
  obtain ⟨s₃, hpull₃, h₃⟩ := Skb.Layout.pull [c] h₂
  have hbyte : s₂.byte s₂.data = .ok c := h₂.byte_eq (i := 0) rfl
  refine ⟨s₃, _, h₃, ?_⟩
  rintro n rfl
  rw [List.length_singleton] at hpull₁ hpull₂ hpull₃
  simp only [tagA0ToFmBytes, hpull₁, hpull₂, hpull₃, derefOption_some, ok_bind, hbyte]

/-- A round whose length is followed by as much payload cuts that much off and
copies what is behind it. -/
theorem tagA0ToFmBytes_of_fit (u : Unspec) (i : ℕ) {data : List UInt8}
    (h : s.Layout head (a :: b :: c :: (data ++ rest)) room) (hc : c.toNat = data.length + 1) :
    ∃ t head', t.Layout head' rest room ∧
      tagA0ToFmBytes u i s =
        if data.length ≤ (rest ++ room).length then
          .ok (some { size := data.length, leng := data.length, addr := u.addr i,
                      buf := (rest ++ room).take data.length ++ u.behind i }, t)
        else .error .outOfBounds := by
  obtain ⟨s₃, head₃, h₃, heq⟩ := tagA0ToFmBytes_eq u i h
  obtain ⟨t, hpull, ht⟩ := Skb.Layout.pull data h₃
  refine ⟨t, _, ht, ?_⟩
  have hsmall : data.length < 4294967296 := by have := c.toNat_lt; omega
  have hbehind : t.buff.drop t.data = rest ++ room := by
    rw [ht.buff_eq, ht.data_eq, List.append_assoc, List.drop_left]
  rw [heq data.length (by omega), u32_natCast hsmall]
  simp only [hpull, Option.map_some, hbehind, fmBytesCopyFrom_alloc (u.addr_ne_zero i)]
  split <;> rfl

/-- A round whose length is not followed by as much payload moves no further and
copies nothing. -/
theorem tagA0ToFmBytes_of_short (u : Unspec) (i : ℕ) (h : s.Layout head (a :: b :: c :: rest) room)
    (hc : rest.length + 1 < c.toNat) :
    ∃ t head' p, t.Layout head' rest room ∧ tagA0ToFmBytes u i s = .ok (some p, t) ∧
      p.leng = 0 := by
  obtain ⟨t, head', ht, heq⟩ := tagA0ToFmBytes_eq u i h
  obtain ⟨n, hn⟩ : ∃ n : ℕ, c.toNat = n + 1 := ⟨c.toNat - 1, by omega⟩
  have hsmall : n < 4294967296 := by have := c.toNat_lt; omega
  have hpull : skbPull t n = (none, t) := ht.pull_none (by omega)
  refine ⟨t, head', ⟨n, 0, u.addr i, List.replicate n 0 ++ u.behind i⟩, ht, ?_, rfl⟩
  rw [heq n (by omega), u32_natCast hsmall, fmBytesAlloc_natCast, hpull]
  rfl

/-- A round whose length is zero asks for a block no allocator can serve. -/
theorem tagA0ToFmBytes_of_zero (h : s.Layout head (a :: b :: c :: rest) room) (hc : c.toNat = 0)
    {p : FmBytes} {t : Skb} : tagA0ToFmBytes u i s ≠ .ok (some p, t) := by
  obtain ⟨t', -, -, heq⟩ := tagA0ToFmBytes_eq u i h
  have hnone : fmBytesAlloc (u.addr i) (u.behind i) (-1) = none := rfl
  rw [heq (-1) (by omega), hnone]
  intro hok
  rw [fmBytesCopyFrom_none, ok_bind] at hok
  cases hok

/-- What is known of a round that fills its slot. -/
theorem tagA0ToFmBytes_some {p : FmBytes} {t : Skb}
    (h : s.Layout head (a :: b :: c :: rest) room) (hok : tagA0ToFmBytes u i s = .ok (some p, t)) :
    ∃ data rest' head', rest = data ++ rest' ∧ t.Layout head' rest' room ∧
      p.leng = data.length ∧
      (c.toNat = data.length + 1 ∧ p.content = (rest' ++ room).take data.length ∨
        data = [] ∧ rest.length + 1 < c.toNat) := by
  by_cases hzero : c.toNat = 0
  · exact absurd hok (tagA0ToFmBytes_of_zero h hzero)
  · by_cases hshort : rest.length + 1 < c.toNat
    · obtain ⟨t', head', p', ht, heq, hleng⟩ := tagA0ToFmBytes_of_short u i h hshort
      obtain ⟨rfl, rfl⟩ : p' = p ∧ t' = t := by simpa [heq] using hok
      exact ⟨[], rest, head', rfl, ht, hleng, .inr ⟨rfl, hshort⟩⟩
    · have hlen : (rest.take (c.toNat - 1)).length = c.toNat - 1 := by
        rw [List.length_take]
        omega
      rw [← List.take_append_drop (c.toNat - 1) rest] at h
      obtain ⟨t', head', ht, heq⟩ :=
        tagA0ToFmBytes_of_fit u i h (by omega)
      rw [heq] at hok
      split at hok
      · rename_i hfit
        simp only [Except.ok.injEq, Prod.mk.injEq, Option.some.injEq] at hok
        obtain ⟨rfl, rfl⟩ := hok
        refine ⟨_, _, head', (List.take_append_drop (c.toNat - 1) rest).symm, ht, rfl,
          .inl ⟨by omega, ?_⟩⟩
        have hcut : ((rest.drop (c.toNat - 1) ++ room).take
            (rest.take (c.toNat - 1)).length).length = (rest.take (c.toNat - 1)).length :=
          List.length_take_of_le hfit
        unfold FmBytes.content
        rw [Int.toNat_natCast]
        exact List.take_left' hcut
      · cases hok

/-! ## The loop -/

/-- An array in which `i` of the sixteen slots are in use. -/
structure Filling (i : ℕ) (fba : FmBytesArray) : Prop where
  /-- The array has never grown. -/
  size_eq : fba.size = 16
  /-- The slots in use are counted. -/
  cnt_eq : fba.cnt = i
  /-- All slots are allocated. -/
  length_eq : fba.array.length = 16

/-- The array after slot `i` has been filled. -/
def FmBytesArray.fill (fba : FmBytesArray) (i : ℕ) (p : Option FmBytes) : FmBytesArray :=
  { fba with array := fba.array.set i p, cnt := i + 1 }

theorem Filling.alloc (addr : ℕ) : Filling 0 (fmBytesArrayAlloc addr defaultRspFragNum) := by
  constructor <;> simp [fmBytesArrayAlloc, defaultRspFragNum]

theorem Filling.fill (h : Filling i fba) (p : Option FmBytes) :
    Filling (i + 1) (fba.fill i p) := by
  constructor
  · exact h.size_eq
  · simp [FmBytesArray.fill]
  · simpa [FmBytesArray.fill] using h.length_eq

/-- The loop ends when nothing is left. -/
theorem tagA0sLoop_of_len_eq_zero (h : s.len = 0) :
    tagA0sLoop u rounds i s fba = .ok (fba, s) := by
  unfold tagA0sLoop
  cases rounds <;> simp [h]

/-- The loop goes on while something is left and a slot is free for it, one slot
being kept back. -/
theorem tagA0sLoop_of_len_pos (hpos : 0 < s.len) (hfill : Filling i fba) :
    tagA0sLoop u (rounds + 1) i s fba =
      (tagA0ToFmBytes u i s >>= fun next =>
        if i < 15 then tagA0sLoop u rounds (i + 1) next.2 (fba.fill i next.1)
        else .error .wildAccess) := by
  rw [tagA0sLoop, if_pos hpos]
  congr 1
  funext next
  rw [hfill.size_eq, hfill.cnt_eq]
  by_cases hi : i < 15
  · have hstore : fba.store i next.1 = .ok { fba with array := fba.array.set i next.1 } := by
      unfold FmBytesArray.store
      rw [if_pos ⟨by omega, by rw [hfill.length_eq]; omega⟩, Int.toNat_natCast]
    rw [if_neg (by omega), if_pos hi, hstore]
    rfl
  · rw [if_pos (by omega), if_neg hi]

/-- So it returns exactly when there is a slot, a round fills it, and the rest of the loop
returns. -/
theorem tagA0sLoop_eq_ok_iff {r : FmBytesArray × Skb} (hpos : 0 < s.len) (hfill : Filling i fba) :
    tagA0sLoop u (rounds + 1) i s fba = .ok r ↔
      i < 15 ∧ ∃ slot t, tagA0ToFmBytes u i s = .ok (slot, t) ∧
        tagA0sLoop u rounds (i + 1) t (fba.fill i slot) = .ok r := by
  rw [tagA0sLoop_of_len_pos hpos hfill, bind_eq_ok]
  constructor
  · rintro ⟨next, hround, h⟩
    split at h
    · rename_i hi
      exact ⟨hi, next.1, next.2, hround, h⟩
    · cases h
  · rintro ⟨hi, slot, t, hround, h⟩
    exact ⟨(slot, t), hround, by rwa [if_pos hi]⟩

/-- A loop that returns has left the slots before `i` alone, and has used slot
`i` if there was something left to put there. -/
theorem tagA0sLoop_frame {r : FmBytesArray × Skb} (hfill : Filling i fba)
    (h : tagA0sLoop u rounds i s fba = .ok r) :
    (∀ j < i, r.1.array[j]? = fba.array[j]?) ∧ (i : ℤ) ≤ r.1.cnt ∧
      (0 < s.len → (i : ℤ) < r.1.cnt) := by
  induction rounds generalizing i s fba with
  | zero =>
    rcases Nat.eq_zero_or_pos s.len with hlen | hlen
    · rw [tagA0sLoop_of_len_eq_zero hlen] at h
      obtain rfl := Except.ok.inj h
      exact ⟨fun j _ => rfl, hfill.cnt_eq.ge, by omega⟩
    · rw [tagA0sLoop, if_pos hlen] at h
      cases h
  | succ rounds ih =>
    rcases Nat.eq_zero_or_pos s.len with hlen | hlen
    · rw [tagA0sLoop_of_len_eq_zero hlen] at h
      obtain rfl := Except.ok.inj h
      exact ⟨fun j _ => rfl, hfill.cnt_eq.ge, by omega⟩
    · obtain ⟨-, slot, t, -, h⟩ := (tagA0sLoop_eq_ok_iff hlen hfill).mp h
      obtain ⟨hframe, hcnt, -⟩ := ih (hfill.fill slot) h
      refine ⟨fun j hj => ?_, by omega, fun _ => by omega⟩
      rw [hframe j (by omega)]
      exact List.getElem?_set_ne (by omega)

/-- The slot a round has filled keeps what is in it. -/
theorem tagA0sLoop_slot {r : FmBytesArray × Skb} {t : Skb} {slot : Option FmBytes}
    (hfill : Filling i fba) (hi : i < 15)
    (h : tagA0sLoop u rounds (i + 1) t (fba.fill i slot) = .ok r) :
    r.1.array[i]? = some slot := by
  rw [(tagA0sLoop_frame (hfill.fill slot) h).1 i (by omega)]
  exact List.getElem?_set_self (by rw [hfill.length_eq]; omega)

/-- From here the loop returns with the fragments in the slots from `i` on. -/
def Decodes (u : Unspec) (rounds i : ℕ) (s : Skb) (fba : FmBytesArray) (fs : List Fragment) :
    Prop :=
  ∃ r, tagA0sLoop u rounds i s fba = .ok r ∧ Decoded i fs r

/-- No fragments are decoded exactly when nothing is left. -/
theorem decodes_nil_iff (hfill : Filling i fba) :
    Decodes u rounds i s fba [] ↔ s.len = 0 := by
  constructor
  · rintro ⟨r, hloop, hr⟩
    by_contra hlen
    have hcnt := (tagA0sLoop_frame hfill hloop).2.2 (by omega)
    have := hr.cnt_eq
    simp only [List.length_nil] at this
    omega
  · intro hlen
    refine ⟨_, tagA0sLoop_of_len_eq_zero hlen, ?_, ?_, hlen⟩
    · simpa using hfill.cnt_eq
    · simp

/-- A fragment and those behind it are decoded exactly when one round fills the
next slot with it and the rest of the loop decodes the others. -/
theorem decodes_cons_iff (hpos : 0 < s.len) (hfill : Filling i fba) :
    Decodes u (rounds + 1) i s fba (f :: fs) ↔
      i < 15 ∧ ∃ p t, tagA0ToFmBytes u i s = .ok (some p, t) ∧ p.Holds f ∧
        Decodes u rounds (i + 1) t (fba.fill i (some p)) fs := by
  constructor
  · rintro ⟨r, hloop, hr⟩
    obtain ⟨hi, slot, t, hround, hloop⟩ := (tagA0sLoop_eq_ok_iff hpos hfill).mp hloop
    obtain ⟨p, hp, hholds⟩ := hr.slot 0 f rfl
    rw [Nat.add_zero, tagA0sLoop_slot hfill hi hloop] at hp
    obtain rfl := Option.some.inj hp
    refine ⟨hi, p, t, hround, hholds, r, hloop, ?_, fun k g hg => ?_, hr.consumed⟩
    · have := hr.cnt_eq
      simp only [List.length_cons] at this
      omega
    · have := hr.slot (k + 1) g (by simpa using hg)
      rwa [← Nat.add_assoc, Nat.add_right_comm] at this
  · rintro ⟨hi, p, t, hround, hholds, r, hloop, hr⟩
    refine ⟨r, (tagA0sLoop_eq_ok_iff hpos hfill).mpr ⟨hi, some p, t, hround, hloop⟩, ?_,
      fun k g hg => ?_, hr.consumed⟩
    · have := hr.cnt_eq
      simp only [List.length_cons]
      omega
    · cases k with
      | zero =>
        obtain rfl : f = g := by simpa using hg
        exact ⟨p, tagA0sLoop_slot hfill hi hloop, hholds⟩
      | succ k =>
        have := hr.slot k g (by simpa using hg)
        rwa [← Nat.add_assoc, Nat.add_right_comm]

/-! ## Where the cursor is -/

/-- A short element. -/
theorem Fragment.element_short (h : f.bytes.length < 254) :
    f.element = 0xA0 :: UInt8.ofNat (1 + f.bytes.length) :: f.seq :: f.bytes := by
  rw [Fragment.element, tagLen_short (by omega)]
  rfl

/-- A long element. -/
theorem Fragment.element_long (h : 254 ≤ f.bytes.length) :
    f.element = 0xA0 :: 0xFF :: UInt8.ofNat ((1 + f.bytes.length) / 256) ::
      (UInt8.ofNat ((1 + f.bytes.length) % 256) :: f.seq :: f.bytes) := by
  rw [Fragment.element, tagLen_long (by omega)]
  rfl

/-- A readable fragment is short. -/
theorem Fragment.Readable.length_lt (h : f.Readable rest room) : f.bytes.length < 254 := by
  unfold Fragment.Readable at h
  split at h
  · simp [*]
  · exact h.1

/-- A round never fills its slot with a fragment whose element is long: it takes
the high byte of the length for the length. -/
theorem not_holds_of_long (hlong : 254 ≤ f.bytes.length)
    (h : s.Layout head (f.element ++ rest) room) {p : FmBytes} {t : Skb}
    (hround : tagA0ToFmBytes u i s = .ok (some p, t)) : ¬ p.Holds f := by
  intro hholds
  rw [f.element_long hlong] at h
  obtain ⟨data, rest', head', -, -, hleng, hcase⟩ := tagA0ToFmBytes_some h hround
  have hlen : f.bytes.length = data.length := by have := hholds.1; omega
  rcases hcase with ⟨hlead, -⟩ | ⟨hnil, -⟩
  · have hhigh : (UInt8.ofNat ((1 + f.bytes.length) / 256)).toNat ≤ (1 + f.bytes.length) / 256 := by
      rw [UInt8.toNat_ofNat']
      exact Nat.mod_le _ _
    omega
  · rw [hnil, List.length_nil] at hlen
    omega

/-- A round that starts at an element and fills its slot with the fragment has
found it readable, and stops behind the element. -/
theorem readable_of_round (h : s.Layout head (f.element ++ rest) room) {p : FmBytes} {t : Skb}
    (hround : tagA0ToFmBytes u i s = .ok (some p, t)) (hholds : p.Holds f) :
    f.Readable rest room ∧ ∃ head', t.Layout head' rest room := by
  have hshort : f.bytes.length < 254 := by
    by_contra hlong
    exact not_holds_of_long (by omega) h hround hholds
  rw [f.element_short hshort] at h
  obtain ⟨data, rest', head', hsplit, ht, hleng, hcase⟩ := tagA0ToFmBytes_some h hround
  have hlen : f.bytes.length = data.length := by have := hholds.1; omega
  obtain ⟨hdata, hrest⟩ := List.append_inj hsplit hlen
  subst hdata hrest
  refine ⟨?_, head', ht⟩
  unfold Fragment.Readable
  rcases hcase with ⟨hseq, hcontent⟩ | ⟨hnil, hlt⟩
  · split
    · rename_i hnil
      have hone : f.seq.toNat = 1 := by rw [hseq, hnil, List.length_nil]
      exact .inl (UInt8.toNat_inj.mp hone)
    · have htake : (rest ++ room).take f.bytes.length = f.bytes := hcontent.symm.trans hholds.2
      exact ⟨hshort, hseq, htake⟩
  · rw [if_pos hnil]
    have hbehind : rest.length + 1 < f.seq.toNat := by simpa [hnil] using hlt
    exact .inr hbehind

/-- A round that starts at the element of a readable fragment fills its slot with
it, and stops behind the element. -/
theorem round_of_readable (u : Unspec) (i : ℕ) (h : s.Layout head (f.element ++ rest) room)
    (hread : f.Readable rest room) :
    ∃ p t head', tagA0ToFmBytes u i s = .ok (some p, t) ∧ p.Holds f ∧
      t.Layout head' rest room := by
  rw [f.element_short hread.length_lt] at h
  unfold Fragment.Readable at hread
  split at hread
  · rename_i hnil
    rcases hread with hseq | hbehind
    · have hcount : f.seq.toNat = f.bytes.length + 1 := by rw [hseq, hnil]; rfl
      obtain ⟨t, head', ht, heq⟩ := tagA0ToFmBytes_of_fit u i h hcount
      rw [if_pos (by simp [hnil])] at heq
      refine ⟨_, t, head', heq, ⟨rfl, ?_⟩, ht⟩
      simp [FmBytes.content, hnil]
    · simp only [hnil, List.cons_append, List.nil_append] at h
      obtain ⟨t, head', p, ht, heq, hleng⟩ := tagA0ToFmBytes_of_short u i h hbehind
      refine ⟨p, t, head', heq, ⟨by simp [hnil, hleng], ?_⟩, ht⟩
      simp [FmBytes.content, hnil, hleng]
  · obtain ⟨-, hseq, htake⟩ := hread
    obtain ⟨t, head', ht, heq⟩ := tagA0ToFmBytes_of_fit u i h hseq
    have hfit : f.bytes.length ≤ (rest ++ room).length := by
      have := congrArg List.length htake
      rw [List.length_take] at this
      omega
    rw [if_pos hfit, htake] at heq
    refine ⟨_, t, head', heq, ⟨rfl, ?_⟩, ht⟩
    simp [FmBytes.content]

/-- A loop that starts at the first element decodes the fragments exactly when
they are all readable and there is a slot for each. -/
theorem decodes_aligned_iff (h : s.Layout head (tagBody fs) room)
    (hrounds : (tagBody fs).length ≤ rounds) (hi : i ≤ 15) (hfill : Filling i fba) :
    Decodes u rounds i s fba fs ↔ i + fs.length ≤ 15 ∧ AllReadable room fs := by
  induction fs generalizing rounds i s fba head with
  | nil =>
    rw [decodes_nil_iff hfill, h.len_eq]
    simpa [AllReadable] using hi
  | cons f fs ih =>
    have hpos : 0 < s.len := by
      rw [h.len_eq]
      simp [Fragment.element]
    obtain ⟨rounds, rfl⟩ : ∃ n, rounds = n + 1 := by
      have := h.len_eq
      exact ⟨rounds - 1, by omega⟩
    have hbehind : (tagBody fs).length ≤ rounds := by
      simp only [tagBody_cons, Fragment.element, List.cons_append, List.length_cons,
        List.length_append] at hrounds
      omega
    rw [tagBody_cons] at h
    rw [decodes_cons_iff hpos hfill]
    constructor
    · rintro ⟨hlt, p, t, hround, hholds, hrest⟩
      obtain ⟨hread, head', ht⟩ := readable_of_round h hround hholds
      obtain ⟨hcount, hreads⟩ := (ih ht hbehind (by omega) (hfill.fill (some p))).mp hrest
      refine ⟨?_, hread, hreads⟩
      simp only [List.length_cons]
      omega
    · rintro ⟨hcount, hread, hreads⟩
      simp only [List.length_cons] at hcount
      obtain ⟨p, t, head', hround, hholds, ht⟩ := round_of_readable u i h hread
      refine ⟨by omega, p, t, hround, hholds, ?_⟩
      exact (ih ht hbehind (by omega) (hfill.fill (some p))).mpr ⟨by omega, hreads⟩

/-- Cutting off as many bytes as there are data, two bytes too early. -/
theorem two_behind {x y : UInt8} {bytes data behind rest : List UInt8}
    (h : x :: y :: (bytes ++ behind) = data ++ rest) (hlen : bytes.length = data.length) :
    ∃ x' y', rest = x' :: y' :: behind := by
  have hdrop := congrArg (List.drop data.length) h
  rw [List.drop_left, ← List.cons_append, ← List.cons_append,
    List.drop_append_of_le_length (by simp only [List.length_cons]; omega)] at hdrop
  have htwo : ((x :: y :: bytes).drop data.length).length = 2 := by
    simp only [List.length_drop, List.length_cons]
    omega
  obtain ⟨x', y', hxy⟩ := List.length_eq_two.mp htwo
  rw [hxy] at hdrop
  exact ⟨x', y', hdrop.symm⟩

/-- A loop that starts two bytes before the first element never decodes the
fragments: it takes the tag of each element for its length, and where that gives
a fragment the right length it is two bytes behind again. -/
theorem not_decodes_misaligned {x y : UInt8} (h : s.Layout head (x :: y :: tagBody fs) room)
    (hfill : Filling i fba) : ¬ Decodes u rounds i s fba fs := by
  induction fs generalizing rounds i s fba head x y with
  | nil =>
    rw [decodes_nil_iff hfill, h.len_eq]
    simp
  | cons f fs ih =>
    have hpos : 0 < s.len := by
      rw [h.len_eq]
      simp
    cases rounds with
    | zero =>
      rintro ⟨r, hloop, -⟩
      rw [tagA0sLoop, if_pos hpos] at hloop
      cases hloop
    | succ rounds =>
      rw [decodes_cons_iff hpos hfill]
      rintro ⟨-, p, t, hround, hholds, hrest⟩
      simp only [tagBody_cons, Fragment.element, List.cons_append, List.append_assoc] at h
      obtain ⟨data, rest', head', hsplit, ht, hleng, hcase⟩ := tagA0ToFmBytes_some h hround
      have hlen : f.bytes.length = data.length := by have := hholds.1; omega
      have hshort : f.bytes.length < 254 := by
        rcases hcase with ⟨htag, -⟩ | ⟨hnil, -⟩
        · have : data.length + 1 = 160 := htag.symm
          omega
        · simp [hlen, hnil]
      rw [tagLen_short (by omega)] at hsplit
      obtain ⟨x', y', rfl⟩ := two_behind hsplit hlen
      exact ih ht (hfill.fill (some p)) hrest

/-! ## The whole message -/

/-- What `skip_tagAx` does with a header of two bytes. -/
theorem skipTagAx_eq {body : List UInt8} (h : s.Layout head (a :: b :: body) room) :
    ∃ t head', t.Layout head' body room ∧
      skipTagAx s = (t.byte t.data >>= fun c =>
        if c = 0xFF then .ok (skbPull t 2).2 else .ok t) := by
  obtain ⟨s₁, hpull₁, h₁⟩ := Skb.Layout.pull [a] h
  obtain ⟨s₂, hpull₂, h₂⟩ := Skb.Layout.pull [b] h₁
  refine ⟨s₂, _, h₂, ?_⟩
  rw [List.length_singleton] at hpull₁ hpull₂
  simp only [skipTagAx, hpull₁, hpull₂, derefOption_some, ok_bind, pure_eq_ok]

/-- A short header is skipped. -/
theorem skipTagAx_short (h : s.Layout head (a :: b :: tagBody fs) room)
    (hbehind : fs = [] → room ≠ []) :
    ∃ t head', t.Layout head' (tagBody fs) room ∧ skipTagAx s = .ok t := by
  obtain ⟨t, head', ht, heq⟩ := skipTagAx_eq h
  refine ⟨t, head', ht, ?_⟩
  cases fs with
  | nil =>
    obtain ⟨c, room', rfl⟩ := List.exists_cons_of_ne_nil (hbehind rfl)
    have hbyte : t.byte t.data = .ok c := ht.byte_eq (i := 0) rfl
    rw [heq, hbyte, ok_bind]
    -- with nothing left, the pull of two more bytes does nothing
    split
    · rw [ht.pull_none (by simp)]
    · rfl
  | cons f fs =>
    have hbyte : t.byte t.data = .ok 0xA0 := ht.byte_eq (i := 0) rfl
    rw [heq, hbyte, ok_bind, if_neg (by decide)]

/-- Behind the header of an empty message a byte is read. -/
theorem skipTagAx_empty (h : s.Layout head [a, b] []) : skipTagAx s = .error .outOfBounds := by
  obtain ⟨t, head', ht, heq⟩ := skipTagAx_eq h
  rw [heq, ht.byte_end, error_bind]

/-- A long header is skipped if its length starts with `FF`, else two bytes of it
are left. -/
theorem skipTagAx_long {hi lo : UInt8} {body : List UInt8}
    (h : s.Layout head (a :: b :: hi :: lo :: body) room) :
    ∃ t head', skipTagAx s = .ok t ∧
      t.Layout head' (if hi = 0xFF then body else hi :: lo :: body) room := by
  obtain ⟨t, head', ht, heq⟩ := skipTagAx_eq h
  have hbyte : t.byte t.data = .ok hi := ht.byte_eq (i := 0) rfl
  rw [heq, hbyte, ok_bind]
  split
  · obtain ⟨t', hpull, ht'⟩ := Skb.Layout.pull [hi, lo] ht
    refine ⟨t', _, ?_, ht'⟩
    rw [List.length_cons, List.length_singleton] at hpull
    rw [hpull]
  · exact ⟨t, head', rfl, ht⟩

/-- Readable fragments are short, and few of them are not many bytes. -/
theorem AllReadable.length_le (h : AllReadable room fs) :
    (tagBody fs).length ≤ 256 * fs.length := by
  induction fs with
  | nil => simp
  | cons f fs ih =>
    have hshort := h.1.length_lt
    have := ih h.2
    rw [tagBody_cons, List.length_append, f.element_short hshort]
    simp only [List.length_cons]
    omega

/-- Behind the header the loop starts with an empty array. -/
theorem decodeResponse_of_skip {t : Skb} (h : skipTagAx s = .ok t) :
    (∃ r, decodeResponse u s = .ok r ∧ Decoded 0 fs r) ↔
      Decodes u t.len 0 t (fmBytesArrayAlloc (u.addr t.len) defaultRspFragNum) fs := by
  unfold decodeResponse
  rw [h, ok_bind]
  rfl

/-- A message is decoded into its fragments exactly when it is short, has at most
fifteen of them, and each of them is readable where it lies; behind an empty one
a byte has to follow in the block. -/
theorem decodeResponse_iff (u : Unspec) (s : Skb) (head room : List UInt8) (fs : List Fragment)
    (h : s.Layout head (tagMessage fs) room) (htotal : (tagBody fs).length ≤ 65535) :
    (∃ r, decodeResponse u s = .ok r ∧ Decoded 0 fs r) ↔
      (tagBody fs).length < 255 ∧ fs.length ≤ 15 ∧ (fs = [] → room ≠ []) ∧
        AllReadable room fs := by
  unfold tagMessage at h
  by_cases hshort : (tagBody fs).length < 255
  · rw [tagLen_short hshort] at h
    by_cases hbehind : fs = [] → room ≠ []
    · obtain ⟨t, head', ht, hskip⟩ := skipTagAx_short h hbehind
      rw [decodeResponse_of_skip hskip,
        decodes_aligned_iff ht ht.len_eq.ge (by omega) (Filling.alloc _)]
      simp only [hshort, Nat.zero_add, true_and]
      exact and_congr_right fun _ => (and_iff_right hbehind).symm
    · obtain ⟨rfl, rfl⟩ : fs = [] ∧ room = [] := by simpa using hbehind
      have hskip := skipTagAx_empty h
      simp [decodeResponse, hskip]
  · rw [tagLen_long (by omega)] at h
    obtain ⟨t, head', hskip, ht⟩ := skipTagAx_long h
    rw [decodeResponse_of_skip hskip]
    simp only [hshort, false_and, iff_false]
    split at ht
    · rename_i hff
      rw [decodes_aligned_iff ht ht.len_eq.ge (by omega) (Filling.alloc _)]
      rintro ⟨hcount, hreads⟩
      have hlead := congrArg UInt8.toNat hff
      rw [UInt8.toNat_ofNat'] at hlead
      have hmax : UInt8.toNat 0xFF = 255 := rfl
      have := hreads.length_le
      omega
    · exact not_decodes_misaligned ht (Filling.alloc _)

/-- A package with a message, and `room` behind it in its block. -/
def responseSkb (fs : List Fragment) (room : List UInt8) : Skb :=
  { newPackage 0 0 (tagMessage fs) with buff := tagMessage fs ++ room }

theorem responseSkb_layout (fs : List Fragment) (room : List UInt8) :
    (responseSkb fs room).Layout [] (tagMessage fs) room := by
  constructor <;> simp [responseSkb, newPackage]

/-- A fragment with sequence number 3 and two bytes of data which are repeated
behind it is decoded. -/
theorem decodeResponse_iff_repeated :
    ∃ r, decodeResponse plainUnspec (responseSkb [⟨3, [0x90, 0x00]⟩] [0x90, 0x00]) = .ok r ∧
      Decoded 0 [⟨3, [0x90, 0x00]⟩] r :=
  (decodeResponse_iff plainUnspec _ [] [0x90, 0x00] [⟨3, [0x90, 0x00]⟩]
    (responseSkb_layout _ _) (by decide)).mpr
    ⟨by decide, by decide, by simp, by decide, trivial⟩

/-- The response `90 00` in a fragment with sequence number 1 becomes two
fragments. -/
theorem decoding_fails :
    ¬ ∃ r, decodeResponse plainUnspec (responseSkb [⟨1, [0x90, 0x00]⟩] [0x00]) = .ok r ∧
      Decoded 0 [⟨1, [0x90, 0x00]⟩] r := by
  have hcnt : (decodeResponse plainUnspec (responseSkb [⟨1, [0x90, 0x00]⟩] [0x00])).map
      (fun r => r.1.cnt) = .ok 2 := rfl
  rintro ⟨r, hok, hr⟩
  rw [hok] at hcnt
  have htwo : r.1.cnt = 2 := Except.ok.inj hcnt
  have hone := hr.cnt_eq
  simp only [List.length_singleton] at hone
  omega

end TsmVm
