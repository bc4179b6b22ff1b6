import TsmVm.ResponseDecoding

/-!
# Malformed responses

Neither of the two functions that take a response apart checks a length before
it computes with it. Here is which payloads the decoder gets through, and which
bodies of an element the search for a fragment gets through: the memory ends
with the payload, and with the element, so that what is read behind them is read
outside the memory.
-/

namespace TsmVm

variable {u : Unspec} {s : Skb} {fba : FmBytesArray} {head body rest : List UInt8}
variable {a b c : UInt8} {rounds i n : ℕ}

/-! ## Which payloads are decoded harmlessly -/

/-- A package with this payload in its block, and nothing else. -/
def Skb.holding (s : Skb) (payload : List UInt8) : Skb :=
  { s with buff := payload, data := 0, tail := payload.length, len := payload.length }

/-- The payload is all there is. -/
theorem Skb.holding_layout (s : Skb) (payload : List UInt8) :
    (s.holding payload).Layout [] payload [] := by
  constructor <;> simp [Skb.holding]

/-- Every slot in use holds a block. A slot without one is left behind where the
allocator is asked for a negative number of bytes, and only there. -/
def FmBytesArray.Full (fba : FmBytesArray) : Prop :=
  ∀ k : ℕ, (k : ℤ) < fba.cnt → fba.array[k]? ≠ some none

/-- The decoder returns, so that nothing it has read was outside the payload or
behind a `NULL`, and has not asked for a block of a negative size. -/
def DecodesHarmlessly (u : Unspec) (s : Skb) : Prop :=
  ∃ r, decodeResponse u s = .ok r ∧ r.1.Full

/-- What is left of a payload behind its header, if the byte behind the header
is there. -/
def behindHeader : List UInt8 → Option (List UInt8)
  | _ :: _ :: c :: rest => if c = 0xFF ∧ rest ≠ [] then some rest.tail else some (c :: rest)
  | _ => none

/-- One round gets through: the third byte `c` is positive, and either `c - 1`
bytes follow it and as many again behind them, or fewer than `c - 1`. -/
inductive Chunk : List UInt8 → List UInt8 → Prop
  | whole (a b c : UInt8) (data rest : List UInt8) (hc : c.toNat = data.length + 1)
      (hcopy : data.length ≤ rest.length) : Chunk (a :: b :: c :: (data ++ rest)) rest
  | cut (a b c : UInt8) (rest : List UInt8) (hc : rest.length + 1 < c.toNat) :
      Chunk (a :: b :: c :: rest) rest

/-- At most `n` rounds get through to the end. -/
inductive Chunks : ℕ → List UInt8 → Prop
  | nil (n : ℕ) : Chunks n []
  | cons {n : ℕ} {body rest : List UInt8} (hchunk : Chunk body rest) (hrest : Chunks n rest) :
      Chunks (n + 1) body

/-- A chunk has bytes of its own. -/
theorem Chunk.length_lt (h : Chunk body rest) : rest.length < body.length := by
  cases h with
  | whole a b c data rest hc hcopy =>
    simp only [List.length_cons, List.length_append]
    omega
  | cut a b c rest hc =>
    simp only [List.length_cons]
    omega

/-- An allocation fails exactly for a negative size. -/
theorem fmBytesAlloc_eq_none_iff (addr : ℕ) (behind : List UInt8) (n : ℤ) :
    fmBytesAlloc addr behind n = none ↔ n < 0 := by
  unfold fmBytesAlloc
  split <;> simp_all

/-- A slot is left without a block exactly where the length is zero, so that the
allocator is asked for a byte less than none. -/
theorem tagA0ToFmBytes_none_iff (u : Unspec) (i : ℕ)
    (h : s.Layout head (a :: b :: c :: rest) []) :
    (∃ t, tagA0ToFmBytes u i s = .ok (none, t)) ↔ (c.toNat : ℤ) - 1 < 0 := by
  constructor
  · rintro ⟨t, hok⟩
    by_contra hsome
    by_cases hshort : rest.length + 1 < c.toNat
    · obtain ⟨t', head', p, -, heq, -⟩ := tagA0ToFmBytes_of_short u i h hshort
      simp [heq] at hok
    · have hlen : c.toNat = (rest.take (c.toNat - 1)).length + 1 := by
        rw [List.length_take]
        omega
      rw [← List.take_append_drop (c.toNat - 1) rest] at h
      obtain ⟨t', head', -, heq⟩ := tagA0ToFmBytes_of_fit u i h hlen
      rw [heq] at hok
      split at hok
      · simp at hok
      · cases hok
  · intro hneg
    obtain ⟨t, head', -, heq⟩ := tagA0ToFmBytes_eq u i h
    have hnone := (fmBytesAlloc_eq_none_iff (u.addr i) (u.behind i) _).mpr hneg
    rw [heq _ rfl, hnone, fmBytesCopyFrom_none, ok_bind]
    exact ⟨_, rfl⟩

/-- The byte behind the first two is read only if it is there. -/
theorem three_le_length {p : ℕ} (h : s.Layout head body [])
    (hp : derefOption (skbPull (skbPull s 1).2 1).1 = .ok p)
    (hc : (skbPull (skbPull s 1).2 1).2.byte p = .ok c) : 3 ≤ body.length := by
  match body with
  | [] =>
    have hpull : skbPull s 1 = (none, s) := h.pull_none (by simp)
    rw [hpull, hpull] at hp
    cases hp
  | [a] =>
    obtain ⟨s₁, hpull₁, h₁⟩ := Skb.Layout.pull [a] h
    have hpull₂ : skbPull s₁ 1 = (none, s₁) := h₁.pull_none (by simp)
    rw [List.length_singleton] at hpull₁
    rw [hpull₁, hpull₂] at hp
    cases hp
  | [a, b] =>
    obtain ⟨s₁, hpull₁, h₁⟩ := Skb.Layout.pull [a] h
    obtain ⟨s₂, hpull₂, h₂⟩ := Skb.Layout.pull [b] h₁
    rw [List.length_singleton] at hpull₁ hpull₂
    rw [hpull₁, hpull₂] at hp hc
    obtain rfl : s₂.data = p := by simpa using hp
    rw [h₂.byte_end] at hc
    cases hc
  | _ :: _ :: _ :: _ => simp

/-- A round does not get through fewer than three bytes. -/
theorem three_le_of_round {r : Option FmBytes × Skb} (h : s.Layout head body [])
    (hok : tagA0ToFmBytes u i s = .ok r) : 3 ≤ body.length := by
  obtain ⟨p, hp, hok⟩ := bind_eq_ok.mp hok
  obtain ⟨c, hc, -⟩ := bind_eq_ok.mp hok
  exact three_le_length h hp hc

/-- A round gets through a chunk. -/
theorem tagA0ToFmBytes_of_chunk (u : Unspec) (i : ℕ) (h : s.Layout head body [])
    (hchunk : Chunk body rest) :
    ∃ p t head', tagA0ToFmBytes u i s = .ok (some p, t) ∧ t.Layout head' rest [] := by
  cases hchunk with
  | whole a b c data rest hc hcopy =>
    obtain ⟨t, head', ht, heq⟩ := tagA0ToFmBytes_of_fit u i h hc
    rw [List.append_nil, if_pos hcopy] at heq
    exact ⟨_, t, head', heq, ht⟩
  | cut a b c rest hc =>
    obtain ⟨t, head', p, ht, heq, -⟩ := tagA0ToFmBytes_of_short u i h hc
    exact ⟨p, t, head', heq, ht⟩

/-- A round that gets through has met a chunk. -/
theorem exists_chunk {p : FmBytes} {t : Skb} (h : s.Layout head body [])
    (hok : tagA0ToFmBytes u i s = .ok (some p, t)) :
    ∃ rest head', Chunk body rest ∧ t.Layout head' rest [] := by
  have hthree := three_le_of_round h hok
  match body, hthree with
  | a :: b :: c :: rest, _ =>
    by_cases hzero : c.toNat = 0
    · exact absurd hok (tagA0ToFmBytes_of_zero h hzero)
    · by_cases hshort : rest.length + 1 < c.toNat
      · obtain ⟨t', head', p', ht, heq, -⟩ := tagA0ToFmBytes_of_short u i h hshort
        obtain ⟨-, rfl⟩ : p' = p ∧ t' = t := by simpa [heq] using hok
        exact ⟨rest, head', .cut a b c rest hshort, ht⟩
      · have hlen : (rest.take (c.toNat - 1)).length = c.toNat - 1 := by
          rw [List.length_take]
          omega
        rw [← List.take_append_drop (c.toNat - 1) rest] at h ⊢
        obtain ⟨t', head', ht, heq⟩ := tagA0ToFmBytes_of_fit u i h (by omega)
        rw [heq, List.append_nil] at hok
        split at hok
        · rename_i hcopy
          obtain ⟨-, rfl⟩ : _ ∧ t' = t := by simpa using hok
          exact ⟨_, head', .whole a b c _ _ (by omega) hcopy, ht⟩
        · cases hok

/-- A fresh array has no slot in use. -/
theorem FmBytesArray.Full.alloc (addr : ℕ) : (fmBytesArrayAlloc addr defaultRspFragNum).Full := by
  intro k hk
  have hk : (k : ℤ) < 0 := hk
  omega

/-- A slot filled with a block leaves the array full. -/
theorem FmBytesArray.Full.fill (hfull : fba.Full) (hfill : Filling i fba) (p : FmBytes) :
    (fba.fill i (some p)).Full := by
  intro k hk
  have hk : (k : ℤ) < i + 1 := hk
  by_cases hki : k = i
  · subst k
    simp only [FmBytesArray.fill]
    rw [List.getElem?_set, if_pos rfl]
    split <;> simp
  · have hold : (fba.fill i (some p)).array[k]? = fba.array[k]? :=
      List.getElem?_set_ne (by omega)
    rw [hold]
    apply hfull
    rw [hfill.cnt_eq]
    omega

/-- From here the loop returns with a full array. -/
def LoopHarmless (u : Unspec) (rounds i : ℕ) (s : Skb) (fba : FmBytesArray) : Prop :=
  ∃ r, tagA0sLoop u rounds i s fba = .ok r ∧ r.1.Full

/-- The loop gets on harmlessly exactly when the next round gets through, a slot
is left for it, and the loop gets on harmlessly from there. -/
theorem loopHarmless_step (hpos : 0 < s.len) (hfill : Filling i fba) :
    LoopHarmless u (rounds + 1) i s fba ↔
      i < 15 ∧ ∃ p t, tagA0ToFmBytes u i s = .ok (some p, t) ∧
        LoopHarmless u rounds (i + 1) t (fba.fill i (some p)) := by
  constructor
  · rintro ⟨r, hloop, hfull⟩
    obtain ⟨hi, slot, t, hround, hloop⟩ := (tagA0sLoop_eq_ok_iff hpos hfill).mp hloop
    have hcnt := (tagA0sLoop_frame (hfill.fill slot) hloop).2.1
    have hslot := tagA0sLoop_slot hfill hi hloop
    cases slot with
    | none => exact absurd hslot (hfull i (by omega))
    | some p => exact ⟨hi, p, t, hround, r, hloop, hfull⟩
  · rintro ⟨hi, p, t, hround, r, hloop, hfull⟩
    exact ⟨r, (tagA0sLoop_eq_ok_iff hpos hfill).mpr ⟨hi, some p, t, hround, hloop⟩, hfull⟩

/-- The loop gets through exactly the bodies made of chunks, one for each slot
but the last. -/
theorem loopHarmless_iff (h : s.Layout head body []) (hrounds : body.length ≤ rounds)
    (hi : i + n = 15) (hfill : Filling i fba) (hfull : fba.Full) :
    LoopHarmless u rounds i s fba ↔ Chunks n body := by
  induction rounds generalizing n i s fba head body with
  | zero =>
    obtain rfl : body = [] := List.eq_nil_of_length_eq_zero (by omega)
    exact ⟨fun _ => .nil n, fun _ => ⟨_, tagA0sLoop_of_len_eq_zero h.len_eq, hfull⟩⟩
  | succ rounds ih =>
    by_cases hnil : body = []
    · subst hnil
      exact ⟨fun _ => .nil n, fun _ => ⟨_, tagA0sLoop_of_len_eq_zero h.len_eq, hfull⟩⟩
    · have hpos : 0 < s.len := by
        rw [h.len_eq]
        exact List.length_pos_iff.mpr hnil
      rw [loopHarmless_step hpos hfill]
      constructor
      · rintro ⟨hlt, p, t, hround, hloop⟩
        obtain ⟨rest, head', hchunk, ht⟩ := exists_chunk h hround
        obtain ⟨n, rfl⟩ : ∃ m, n = m + 1 := ⟨n - 1, by omega⟩
        have hless := hchunk.length_lt
        refine .cons hchunk ?_
        exact (ih ht (by omega) (by omega) (hfill.fill (some p)) (hfull.fill hfill p)).mp hloop
      · intro hchunks
        cases hchunks with
        | nil => exact absurd rfl hnil
        | cons hchunk hrest =>
          obtain ⟨p, t, head', hround, ht⟩ := tagA0ToFmBytes_of_chunk u i h hchunk
          have hless := hchunk.length_lt
          refine ⟨by omega, p, t, hround, ?_⟩
          exact (ih ht (by omega) (by omega) (hfill.fill (some p)) (hfull.fill hfill p)).mpr hrest

/-- Of three bytes one is behind the header. -/
theorem behindHeader_ne_none (h : 3 ≤ body.length) : behindHeader body ≠ none := by
  match body, h with
  | a :: b :: c :: rest, _ =>
    simp only [behindHeader]
    split <;> simp

/-- A header is not skipped without a byte behind it. -/
theorem three_le_of_skip {t : Skb} (h : s.Layout head body []) (hok : skipTagAx s = .ok t) :
    3 ≤ body.length := by
  obtain ⟨p, hp, hok⟩ := bind_eq_ok.mp hok
  obtain ⟨c, hc, -⟩ := bind_eq_ok.mp hok
  exact three_le_length h hp hc

/-- Behind a header the loop starts. -/
theorem skipTagAx_of_behindHeader (h : s.Layout head body [])
    (hsome : behindHeader body = some rest) :
    ∃ t head', skipTagAx s = .ok t ∧ t.Layout head' rest [] := by
  match body with
  | [] | [_] | [_, _] => cases hsome
  | a :: b :: c :: behind =>
    obtain ⟨t, head', ht, heq⟩ := skipTagAx_eq h
    have hbyte : t.byte t.data = .ok c := ht.byte_eq (i := 0) rfl
    rw [heq, hbyte, ok_bind]
    simp only [behindHeader] at hsome
    split at hsome
    · rename_i hlong
      obtain rfl : behind.tail = rest := by simpa using hsome
      rw [if_pos hlong.1]
      obtain ⟨d, behind, rfl⟩ := List.exists_cons_of_ne_nil hlong.2
      obtain ⟨t', hpull, ht'⟩ := Skb.Layout.pull [c, d] ht
      rw [List.length_cons, List.length_singleton] at hpull
      exact ⟨t', _, by rw [hpull], ht'⟩
    · rename_i hlong
      obtain rfl : c :: behind = rest := by simpa using hsome
      refine ⟨t, head', ?_, ht⟩
      split
      · rename_i hff
        have hnil : behind = [] := by
          by_contra hne
          exact hlong ⟨hff, hne⟩
        rw [ht.pull_none (by simp [hnil])]
      · rfl

/-- The decoder gets exactly through the payloads of which chunks are left
behind the header. -/
theorem decodesHarmlessly_iff (u : Unspec) (s : Skb) (payload : List UInt8) :
    DecodesHarmlessly u (s.holding payload) ↔
      ∃ body, behindHeader payload = some body ∧ Chunks 15 body := by
  have h := s.holding_layout payload
  unfold DecodesHarmlessly decodeResponse
  cases hbehind : behindHeader payload with
  | none =>
    constructor
    · rintro ⟨r, hok, -⟩
      obtain ⟨t, hskip, -⟩ := bind_eq_ok.mp hok
      exact absurd hbehind (behindHeader_ne_none (three_le_of_skip h hskip))
    · rintro ⟨body, hbody, -⟩
      cases hbody
  | some body =>
    obtain ⟨t, head', hskip, ht⟩ := skipTagAx_of_behindHeader h hbehind
    rw [hskip, ok_bind]
    have hloop := loopHarmless_iff (u := u) ht ht.len_eq.ge (Nat.zero_add 15)
      (Filling.alloc (u.addr t.len)) (FmBytesArray.Full.alloc _)
    refine hloop.trans ⟨fun hchunks => ⟨body, rfl, hchunks⟩, ?_⟩
    rintro ⟨_, hbody, hchunks⟩
    obtain rfl := Option.some.inj hbody
    exact hchunks

/-! ## Which elements are searched harmlessly -/

/-- A complete header and the length it announces. -/
inductive AxHeader : List UInt8 → ℕ → Prop
  | short (tag b : UInt8) (hb : b ≠ 0xFF) : AxHeader [tag, b] b.toNat
  | long (tag hi lo : UInt8) : AxHeader [tag, 0xFF, hi, lo] (hi.toNat * 256 + lo.toNat)

/-- The search of a message at `addr` reads nothing from `stop` bytes on, nor anywhere else
in memory, and returns, so that it has not asked for a block of a negative size either: it
writes to what it gets. -/
def SearchesHarmlessly (u : Unspec) (addr : ℕ) (p : List UInt8) (stop : ℕ) (seq : UInt8) : Prop :=
  ∃ r, getTagA0At u [⟨addr, p.take stop⟩] addr seq = .ok r

/-- A pointer that is the same after it has been an `int`. -/
def Kept (x : ℕ) : Prop := throughInt x = x

instance (x : ℕ) : Decidable (Kept x) := inferInstanceAs (Decidable (throughInt x = x))

/-- The search for fragment `seq` gets through what lies at `x`: up to the fragment, another
tag or the end, every header is complete, a byte follows it, and the address of that byte is
kept; and the fragment announces three bytes at least, and at most three more than follow
its sequence number. -/
inductive Searchable (seq : UInt8) : ℕ → List UInt8 → Prop
  | done (x : ℕ) : Searchable seq x []
  | other (x : ℕ) (tag : UInt8) (rest : List UInt8) (htag : tag ≠ tagA0) :
      Searchable seq x (tag :: rest)
  | found {x : ℕ} {hdr : List UInt8} {len : ℕ} (rest : List UInt8) (hhdr : AxHeader hdr len)
      (htag : hdr.head? = some tagA0) (hkept : Kept (x + hdr.length)) (hlen : 3 ≤ len)
      (hfit : len ≤ rest.length + 3) : Searchable seq x (hdr ++ seq :: rest)
  | next {x : ℕ} {hdr : List UInt8} {len : ℕ} (b : UInt8) (rest : List UInt8)
      (hhdr : AxHeader hdr len) (htag : hdr.head? = some tagA0) (hkept : Kept (x + hdr.length))
      (hb : b ≠ seq) (hrest : Searchable seq (x + hdr.length + len) ((b :: rest).drop len)) :
      Searchable seq x (hdr ++ b :: rest)

variable {p hdr : List UInt8} {others : List MemBlock} {seq : UInt8} {addr len stop x : ℕ}

/-- What a block holds is read in it. -/
theorem readableAt_inside (h : i ≤ p.length) :
    readableAt (⟨addr, p⟩ :: others) (addr + i) = p.drop i := by
  unfold readableAt
  rw [List.find?_cons_of_pos (by simpa using h)]
  dsimp only
  rw [Nat.add_sub_cancel_left]

/-- A pointer that is not kept leads far away. -/
theorem throughInt_apart (h : ¬ Kept x) :
    x + 4294967296 ≤ throughInt x ∨ throughInt x + 4294967296 ≤ x := by
  unfold Kept throughInt at *
  split at h <;> split <;> omega

/-- So it leads out of a block that is not that long. -/
theorem readableAt_cut (hlen : p.length < 4294967296) (hi : i ≤ p.length)
    (h : ¬ Kept (addr + i)) : readableAt [⟨addr, p⟩] (throughInt (addr + i)) = [] := by
  have hapart := throughInt_apart h
  unfold readableAt
  rw [List.find?_cons_of_neg (by simp; omega)]
  rfl

/-- The length of a complete header is read. -/
theorem AxHeader.getTagAxLen_eq (h : AxHeader hdr len) (rest : List UInt8) :
    getTagAxLen (hdr ++ rest) = .ok len := by
  cases h with
  | short tag b hb => simp [getTagAxLen, byteAt, hb]
  | long tag hi lo => simp [getTagAxLen, byteAt]

/-- A complete header is skipped. -/
theorem AxHeader.skipTagAxOffset_eq (h : AxHeader hdr len) (rest : List UInt8) :
    skipTagAxOffset (hdr ++ rest) = .ok hdr.length := by
  cases h with
  | short tag b hb => simp [skipTagAxOffset, byteAt, hb]
  | long tag hi lo => simp [skipTagAxOffset, byteAt]

/-- Where a length is read the header is complete. -/
theorem exists_axHeader (h : getTagAxLen p = .ok len) :
    ∃ hdr rest, AxHeader hdr len ∧ p = hdr ++ rest := by
  obtain ⟨b, hb, h⟩ := bind_eq_ok.mp h
  split at h
  · subst b
    obtain ⟨hi, hhi, h⟩ := bind_eq_ok.mp h
    obtain ⟨lo, hlo, h⟩ := bind_eq_ok.mp h
    obtain rfl := Except.ok.inj h
    match p with
    | tag :: b :: hi' :: lo' :: rest =>
      obtain rfl : b = 0xFF := by simpa [byteAt] using hb
      obtain rfl : hi' = hi := by simpa [byteAt] using hhi
      obtain rfl : lo' = lo := by simpa [byteAt] using hlo
      exact ⟨_, rest, .long tag hi' lo', rfl⟩
  · obtain rfl := Except.ok.inj h
    match p with
    | tag :: b' :: rest =>
      obtain rfl : b' = b := by simpa [byteAt] using hb
      exact ⟨_, rest, .short tag b' ‹_›, rfl⟩

/-- A header has bytes of its own. -/
theorem AxHeader.length_pos (h : AxHeader hdr len) : 0 < hdr.length := by
  cases h <;> simp

/-- The fragment is copied exactly when its length is no negative number and the
memory does not end before. -/
theorem tagA0Data_iff (u : Unspec) (p : List UInt8) (k : ℤ) :
    (∃ r, tagA0Data u p k = .ok r) ↔ 0 ≤ k ∧ k ≤ p.length := by
  by_cases hneg : k < 0
  · have hnone := (fmBytesAlloc_eq_none_iff (u.addr 0) (u.behind 0) k).mpr hneg
    have hstop : tagA0Data u p k = .error .nullDeref := by
      unfold tagA0Data
      rw [hnone]
      rfl
    rw [hstop]
    constructor
    · rintro ⟨_, hok⟩
      cases hok
    · omega
  · obtain ⟨k, rfl⟩ := Int.eq_ofNat_of_zero_le (not_lt.mp hneg)
    have hread := memRead_natCast p 0 k
    rw [List.drop_zero] at hread
    unfold tagA0Data
    rw [fmBytesAlloc_natCast, derefOption_some, ok_bind]
    by_cases hfit : k ≤ p.length
    · have hlen : (p.take k).length = k := List.length_take_of_le hfit
      have hroom : k ≤ (List.replicate k 0 ++ u.behind 0).length := by
        rw [List.length_append, List.length_replicate]
        omega
      obtain ⟨buf, hwrite⟩ := memWrite_block hlen hroom
      rw [memRead_front hfit, ok_bind, Int.toNat_natCast, hwrite]
      exact ⟨fun _ => by omega, fun _ => ⟨_, rfl⟩⟩
    · rw [if_neg hfit] at hread
      have hread : memRead p 0 k = .error .outOfBounds := hread
      rw [hread, error_bind]
      constructor
      · rintro ⟨_, hok⟩
        cases hok
      · omega

/-- A complete header is skipped, and the pointer behind it goes through an `int`. -/
theorem skipTagAxAt_eq (hhdr : AxHeader hdr len) (hdrop : p.drop i = hdr ++ rest)
    (hi : i ≤ p.length) :
    skipTagAxAt (⟨addr, p⟩ :: others) (addr + i) = .ok (throughInt (addr + (i + hdr.length))) := by
  unfold skipTagAxAt
  rw [readableAt_inside hi, hdrop, hhdr.skipTagAxOffset_eq, ok_bind, Nat.add_assoc]
  rfl

/-- A round on a complete element goes on behind its header. -/
theorem getTagA0Loop_header (hhdr : AxHeader hdr len) (htag : hdr.head? = some tagA0)
    (hdrop : p.drop i = hdr ++ rest) (hi : i ≤ p.length) (hstop : addr + i < stop) :
    getTagA0Loop u (⟨addr, p⟩ :: others) seq stop (rounds + 1) (addr + i) = (do
      let point := throughInt (addr + (i + hdr.length))
      let b ← byteAt (readableAt (⟨addr, p⟩ :: others) point) 0
      if b = seq then tagA0Data u (readableAt (⟨addr, p⟩ :: others) (point + 1)) ((len : ℤ) - 3)
      else getTagA0Loop u (⟨addr, p⟩ :: others) seq stop rounds (point + len)) := by
  obtain ⟨tail, rfl⟩ : ∃ tail, hdr = tagA0 :: tail := List.head?_eq_some_iff.mp htag
  have hlead : byteAt (tagA0 :: tail ++ rest) 0 = .ok tagA0 := rfl
  rw [getTagA0Loop, if_pos hstop, readableAt_inside hi, hdrop, hlead, ok_bind, if_pos rfl,
    hhdr.getTagAxLen_eq, ok_bind, skipTagAxAt_eq hhdr hdrop hi, ok_bind]

/-- What a round does with a complete element behind whose header the pointer is kept. -/
theorem getTagA0Loop_element (hhdr : AxHeader hdr len) (htag : hdr.head? = some tagA0)
    (hdrop : p.drop i = hdr ++ b :: rest) (hstop : addr + i < stop)
    (hkept : Kept (addr + (i + hdr.length))) :
    getTagA0Loop u (⟨addr, p⟩ :: others) seq stop (rounds + 1) (addr + i) =
      if b = seq then tagA0Data u rest ((len : ℤ) - 3)
      else getTagA0Loop u (⟨addr, p⟩ :: others) seq stop rounds (addr + (i + hdr.length + len)) := by
  have hlength := congrArg List.length hdrop
  rw [List.length_drop, List.length_append, List.length_cons] at hlength
  have hbehind : p.drop (i + hdr.length) = b :: rest := by
    rw [← List.drop_drop, hdrop, List.drop_left]
  have hdata : p.drop (i + hdr.length + 1) = rest := by
    rw [← List.drop_drop, hbehind]
    rfl
  have hfirst : byteAt (b :: rest) 0 = .ok b := rfl
  unfold Kept at hkept
  rw [getTagA0Loop_header hhdr htag hdrop (by omega) hstop]
  dsimp only
  rw [hkept, readableAt_inside (by omega), hbehind, hfirst, ok_bind,
    show addr + (i + hdr.length) + 1 = addr + (i + hdr.length + 1) by omega,
    readableAt_inside (by omega), hdata, Nat.add_assoc addr]

/-- Where the pointer is not kept the round reads outside the message. -/
theorem getTagA0Loop_cut (hhdr : AxHeader hdr len) (htag : hdr.head? = some tagA0)
    (hdrop : p.drop i = hdr ++ rest) (hlen : p.length < 4294967296) (hi : i < p.length)
    (hstop : addr + i < stop) (hcut : ¬ Kept (addr + (i + hdr.length))) :
    getTagA0Loop u [⟨addr, p⟩] seq stop (rounds + 1) (addr + i) = .error .outOfBounds := by
  have hlength := congrArg List.length hdrop
  rw [List.length_drop, List.length_append] at hlength
  rw [getTagA0Loop_header hhdr htag hdrop hi.le hstop]
  dsimp only
  rw [readableAt_cut hlen (by omega) hcut]
  rfl

/-- A round that gets through an element has met a complete one with a byte behind it. -/
theorem exists_element {r : Option FmBytes} (hlen : p.length < 4294967296)
    (hdrop : p.drop i = tagA0 :: rest) (hstop : addr + i < stop)
    (hok : getTagA0Loop u [⟨addr, p⟩] seq stop (rounds + 1) (addr + i) = .ok r) :
    ∃ hdr len b rest', AxHeader hdr len ∧ hdr.head? = some tagA0 ∧
      tagA0 :: rest = hdr ++ b :: rest' ∧ Kept (addr + (i + hdr.length)) := by
  have hi : i < p.length := by
    by_contra hend
    rw [List.drop_of_length_le (by omega)] at hdrop
    cases hdrop
  have hrun := hok
  rw [getTagA0Loop, if_pos hstop, readableAt_inside hi.le, hdrop] at hok
  obtain ⟨tag, htag, hok⟩ := bind_eq_ok.mp hok
  obtain rfl : tagA0 = tag := Except.ok.inj htag
  rw [if_pos rfl] at hok
  obtain ⟨len, hgetlen, -⟩ := bind_eq_ok.mp hok
  obtain ⟨hdr, behind, hhdr, hsplit⟩ := exists_axHeader hgetlen
  have hhead : hdr.head? = some tagA0 := by
    have hne : hdr ≠ [] := List.length_pos_iff.mp hhdr.length_pos
    rw [← List.head?_append_of_ne_nil _ hne, ← hsplit, List.head?_cons]
  rw [hsplit] at hdrop
  have hkept : Kept (addr + (i + hdr.length)) := by
    by_contra hcut
    rw [getTagA0Loop_cut hhdr hhead hdrop hlen hi hstop hcut] at hrun
    cases hrun
  cases behind with
  | nil =>
    have hlength := congrArg List.length hdrop
    rw [List.length_drop, List.append_nil] at hlength
    rw [getTagA0Loop_header hhdr hhead hdrop hi.le hstop] at hrun
    dsimp only at hrun
    unfold Kept at hkept
    rw [hkept, readableAt_inside (by omega), List.drop_of_length_le (by omega)] at hrun
    cases hrun
  | cons b behind => exact ⟨hdr, len, b, behind, hhdr, hhead, hsplit, hkept⟩

/-- A round gets through a complete element when it is the fragment and long enough, or the
loop gets through what it announces. -/
theorem getTagA0Loop_element_iff (hhdr : AxHeader hdr len) (htag : hdr.head? = some tagA0)
    (hdrop : p.drop i = hdr ++ b :: rest) (hstop : addr + i < stop)
    (hkept : Kept (addr + (i + hdr.length)))
    (hnext : (∃ r, getTagA0Loop u [⟨addr, p⟩] seq stop rounds
      (addr + (i + hdr.length + len)) = .ok r) ↔
        Searchable seq (addr + (i + hdr.length + len)) (p.drop (i + hdr.length + len))) :
    (∃ r, getTagA0Loop u [⟨addr, p⟩] seq stop (rounds + 1) (addr + i) = .ok r) ↔
      if b = seq then 3 ≤ len ∧ len ≤ rest.length + 3
      else Searchable seq (addr + i + hdr.length + len) ((b :: rest).drop len) := by
  have hbehind : p.drop (i + hdr.length) = b :: rest := by
    rw [← List.drop_drop, hdrop, List.drop_left]
  rw [getTagA0Loop_element hhdr htag hdrop hstop hkept]
  split
  · rw [tagA0Data_iff]
    omega
  · rw [hnext, ← List.drop_drop, hbehind, Nat.add_assoc, Nat.add_assoc, Nat.add_assoc]

/-- The loop gets through exactly what is searchable of the memory. -/
theorem getTagA0Loop_iff (hlen : p.length < 4294967296) (hrounds : p.length ≤ rounds + i) :
    (∃ r, getTagA0Loop u [⟨addr, p⟩] seq (addr + p.length) rounds (addr + i) = .ok r) ↔
      Searchable seq (addr + i) (p.drop i) := by
  induction rounds generalizing i with
  | zero =>
    have hend : p.length ≤ i := by omega
    rw [getTagA0Loop, if_neg (by omega), List.drop_of_length_le hend]
    exact ⟨fun _ => .done _, fun _ => ⟨none, rfl⟩⟩
  | succ rounds ih =>
    cases hdrop : p.drop i with
    | nil =>
      have hend : p.length ≤ i := List.drop_eq_nil_iff.mp hdrop
      rw [getTagA0Loop, if_neg (by omega)]
      exact ⟨fun _ => .done _, fun _ => ⟨none, rfl⟩⟩
    | cons tag rest =>
      have hi : i < p.length := by
        by_contra hend
        rw [List.drop_of_length_le (by omega)] at hdrop
        cases hdrop
      have hstop : addr + i < addr + p.length := by omega
      constructor
      · rintro ⟨r, hok⟩
        by_cases htag : tag = tagA0
        · subst tag
          obtain ⟨hdr, len, b, rest', hhdr, hhead, hsplit, hkept⟩ :=
            exists_element hlen hdrop hstop hok
          rw [hsplit] at hdrop ⊢
          have hpos := hhdr.length_pos
          have hbound : p.length ≤ rounds + (i + hdr.length + len) := by omega
          have hgets := (getTagA0Loop_element_iff hhdr hhead hdrop hstop hkept
            (ih hbound)).mp ⟨r, hok⟩
          rw [← Nat.add_assoc] at hkept
          split at hgets
          · subst b
            exact .found rest' hhdr hhead hkept hgets.1 hgets.2
          · exact .next b rest' hhdr hhead hkept ‹_› hgets
        · exact .other _ tag rest htag
      · intro hsearch
        generalize hbody : tag :: rest = left at hsearch hdrop
        cases hsearch with
        | done => cases hbody
        | other _ tag' rest' htag =>
          have hlead : byteAt (tag' :: rest') 0 = .ok tag' := rfl
          rw [getTagA0Loop, if_pos hstop, readableAt_inside hi.le, hdrop, hlead, ok_bind,
            if_neg htag]
          exact ⟨none, rfl⟩
        | found rest' hhdr hhead hkept hlow hfit =>
          have hpos := hhdr.length_pos
          rw [Nat.add_assoc] at hkept
          apply (getTagA0Loop_element_iff hhdr hhead hdrop hstop hkept (ih (by omega))).mpr
          rw [if_pos rfl]
          exact ⟨hlow, hfit⟩
        | next b rest' hhdr hhead hkept hb hrest =>
          have hpos := hhdr.length_pos
          rw [Nat.add_assoc] at hkept
          apply (getTagA0Loop_element_iff hhdr hhead hdrop hstop hkept (ih (by omega))).mpr
          rwa [if_neg hb]

/-- The search behind a complete outer header, as far as the pointer behind it goes. -/
theorem getTagA0At_eq (hhdr : AxHeader hdr len) (seq : UInt8) :
    getTagA0At u (⟨addr, hdr ++ rest⟩ :: others) addr seq =
      getTagA0Loop u (⟨addr, hdr ++ rest⟩ :: others) seq
        (throughInt (addr + hdr.length) + len) len (throughInt (addr + hdr.length)) := by
  have hread : readableAt (⟨addr, hdr ++ rest⟩ :: others) addr = hdr ++ rest :=
    readableAt_inside (i := 0) (Nat.zero_le _)
  have hskip : skipTagAxAt (⟨addr, hdr ++ rest⟩ :: others) addr =
      .ok (throughInt (addr + (0 + hdr.length))) :=
    skipTagAxAt_eq (i := 0) hhdr List.drop_zero (Nat.zero_le _)
  unfold getTagA0At
  rw [hread, hhdr.getTagAxLen_eq, ok_bind, hskip, ok_bind, Nat.zero_add]

/-- A header is four bytes at most, and announces 65535 at most. -/
theorem AxHeader.bounded (h : AxHeader hdr len) : hdr.length ≤ 4 ∧ len ≤ 65535 := by
  cases h with
  | short tag b hb =>
    have hlt := b.toNat_lt
    simp only [List.length_cons, List.length_nil]
    omega
  | long tag hi lo =>
    have hhi := hi.toNat_lt
    have hlo := lo.toNat_lt
    simp only [List.length_cons, List.length_nil]
    omega

/-- The search gets exactly through the empty and the searchable bodies. -/
theorem searchesHarmlessly_iff (hhdr : AxHeader hdr body.length) (u : Unspec) (addr : ℕ)
    (seq : UInt8) (behind : List UInt8) :
    SearchesHarmlessly u addr (hdr ++ body ++ behind) (hdr.length + body.length) seq ↔
      body = [] ∨ Kept (addr + hdr.length) ∧ Searchable seq (addr + hdr.length) body := by
  have htake : (hdr ++ body ++ behind).take (hdr.length + body.length) = hdr ++ body := by
    rw [← List.length_append, List.take_left]
  have hend : (hdr ++ body).length = hdr.length + body.length := List.length_append
  have hbound := hhdr.bounded
  unfold SearchesHarmlessly
  rw [htake, getTagA0At_eq hhdr]
  by_cases hnil : body = []
  · subst hnil
    rw [List.length_nil, getTagA0Loop, if_neg (by omega)]
    exact ⟨fun _ => .inl rfl, fun _ => ⟨none, rfl⟩⟩
  by_cases hkept : Kept (addr + hdr.length)
  · have hloop : (∃ r, getTagA0Loop u [⟨addr, hdr ++ body⟩] seq (addr + (hdr ++ body).length)
        body.length (addr + hdr.length) = .ok r) ↔
          Searchable seq (addr + hdr.length) ((hdr ++ body).drop hdr.length) :=
      getTagA0Loop_iff (by omega) (by omega)
    rw [hend, List.drop_left, ← Nat.add_assoc] at hloop
    rw [show throughInt (addr + hdr.length) = addr + hdr.length from hkept, hloop]
    simp only [hnil, hkept, false_or, true_and]
  · have hpos : 0 < body.length := List.length_pos_iff.mpr hnil
    obtain ⟨n, hn⟩ : ∃ n, body.length = n + 1 := ⟨body.length - 1, by omega⟩
    have hcut : readableAt [⟨addr, hdr ++ body⟩] (throughInt (addr + hdr.length)) = [] :=
      readableAt_cut (by omega) (by omega) hkept
    rw [hn, getTagA0Loop, if_pos (by omega), hcut]
    simp only [hnil, hkept, false_or, false_and, iff_false, not_exists]
    rintro r hok
    cases hok

/-- A response is decoded harmlessly exactly when chunks, fifteen at most, are left behind
its header, and an element is searched harmlessly exactly when its body is empty or
searchable where it lies. -/
theorem malformed_responses_iff (u : Unspec) :
    (∀ (s : Skb) (payload : List UInt8), DecodesHarmlessly u (s.holding payload) ↔
      ∃ body, behindHeader payload = some body ∧ Chunks 15 body) ∧
    (∀ (addr : ℕ) (hdr body behind : List UInt8) (seq : UInt8), AxHeader hdr body.length →
      (SearchesHarmlessly u addr (hdr ++ body ++ behind) (hdr.length + body.length) seq ↔
        body = [] ∨ Kept (addr + hdr.length) ∧ Searchable seq (addr + hdr.length) body)) := by
  refine ⟨decodesHarmlessly_iff u, fun addr hdr body behind seq hhdr => ?_⟩
  exact searchesHarmlessly_iff hhdr u addr seq behind

/-- In an empty payload the byte behind the length is looked for behind `NULL`, and of an
empty fragment, which has no status, minus two bytes are copied. -/
theorem malformed_responses_harm :
    ¬ DecodesHarmlessly plainUnspec ((newPackage 0 0 []).holding []) ∧
      ¬ SearchesHarmlessly plainUnspec 0x4A3000 emptyResponse 5 1 := by
  have hdecode : decodeResponse plainUnspec ((newPackage 0 0 []).holding []) =
      .error .nullDeref := rfl
  have hsearch : getTagA0At plainUnspec [⟨0x4A3000, emptyResponse.take 5⟩] 0x4A3000 1 =
      .error .nullDeref := by
    decide +kernel
  constructor
  · rintro ⟨r, hok, -⟩
    rw [hdecode] at hok
    cases hok
  · rintro ⟨r, hok⟩
    rw [hsearch] at hok
    cases hok

end TsmVm
