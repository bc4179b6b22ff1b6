import TsmVm.CcbCreate

/-!
# The entries of a control message (`router_parse_tlv`)

An entry is a tag, a length of two bytes and a value. The parser copies every
value from the start of the message, behind the first header, and goes on by the
length of the value without the three bytes of the header. What it records adds
up to the whole message all the same, so it never records the entries that were
written, unless there are none. It trusts the lengths, too: a message it gets
through is one whose lengths lead it to the end.
-/

namespace TsmVm

/-- `router_tlv_t` with the length it records. -/
structure RouterTlvEntry extends RouterTlv where
  /-- The length. -/
  len : ℕ

/-- The loop of `router_parse_tlv` from index `i`, with the memory readable from
`str` on. The first argument bounds the rounds; an entry without a value is read
again and again. -/
def routerParseTlvLoop (str : List UInt8) (len : ℕ) : ℕ → ℕ → Res (List RouterTlvEntry)
  | 0, i => if i < len then .error .hang else .ok []
  | n + 1, i =>
    if i < len then do
      let tag ← byteAt str i
      let high ← byteAt str (i + 1 : ℕ)
      let low ← byteAt str (i + 2 : ℕ)
      let size := high.toNat * 256 + low.toNat
      -- `memcpy(tlv->val,str+3,tlv->len)`
      let val ← memRead str 3 size
      let rest ← routerParseTlvLoop str len n (i + size)
      return { tag := tag, val := val, len := size } :: rest
    else .ok []

/-- `router_parse_tlv`. -/
def routerParseTlv (str : List UInt8) (len : ℕ) : Res (List RouterTlvEntry) :=
  routerParseTlvLoop str len len 0

/-- An entry as a client writes it. -/
structure ControlTlv where
  /-- Its tag. -/
  tag : UInt8
  /-- Its value. -/
  value : List UInt8
  /-- The length fits into two bytes. -/
  value_lt : value.length < 65536

/-- The bytes of an entry. -/
def ControlTlv.bytes (t : ControlTlv) : List UInt8 :=
  t.tag :: u8 (t.value.length / 256 : ℕ) :: u8 t.value.length :: t.value

/-- The bytes of entries behind each other. -/
def tlvBytes (tlvs : List ControlTlv) : List UInt8 := tlvs.flatMap ControlTlv.bytes

/-- The parser records the entries that were written, in their order. -/
def TlvsRoundTrip (tlvs : List ControlTlv) (behind : List UInt8) : Prop :=
  ∃ list, routerParseTlv (tlvBytes tlvs ++ behind) (tlvBytes tlvs).length = .ok list ∧
    list.map (fun e => (e.tag, e.len, e.val)) =
      tlvs.map fun t => (t.tag, t.value.length, t.value)

section Loop

variable {str : List UInt8} {len : ℕ}

/-- What holds where the loop stops, and of an entry in front of a list if it holds of the
list, holds of all the loop returns. -/
theorem routerParseTlvLoop_rec {P : ℕ → List RouterTlvEntry → Prop}
    (hstop : ∀ i, len ≤ i → P i [])
    (hentry : ∀ (i : ℕ) (e : RouterTlvEntry) (high low : UInt8) (rest : List RouterTlvEntry),
      i < len → byteAt str i = .ok e.tag → byteAt str (i + 1 : ℕ) = .ok high →
      byteAt str (i + 2 : ℕ) = .ok low → e.len = high.toNat * 256 + low.toNat →
      memRead str 3 e.len = .ok e.val → P (i + e.len) rest → P i (e :: rest))
    {n i : ℕ} {list : List RouterTlvEntry} (h : routerParseTlvLoop str len n i = .ok list) :
    P i list := by
  induction n generalizing i list with
  | zero =>
    unfold routerParseTlvLoop at h
    split at h
    · cases h
    · obtain rfl := Except.ok.inj h
      exact hstop i (by omega)
  | succ n ih =>
    unfold routerParseTlvLoop at h
    split at h
    · obtain ⟨tag, htag, h⟩ := bind_eq_ok.mp h
      obtain ⟨high, hhigh, h⟩ := bind_eq_ok.mp h
      obtain ⟨low, hlow, h⟩ := bind_eq_ok.mp h
      obtain ⟨val, hval, h⟩ := bind_eq_ok.mp h
      obtain ⟨rest, hrest, h⟩ := bind_eq_ok.mp h
      obtain rfl := Except.ok.inj h
      exact hentry i _ high low rest ‹_› htag hhigh hlow rfl hval (ih hrest)
    · obtain rfl := Except.ok.inj h
      exact hstop i (by omega)

/-- The lengths recorded take the index to the end of the message. -/
theorem le_sum_of_routerParseTlvLoop {n i : ℕ} {list : List RouterTlvEntry}
    (h : routerParseTlvLoop str len n i = .ok list) :
    len ≤ i + (list.map RouterTlvEntry.len).sum := by
  refine routerParseTlvLoop_rec (P := fun i list => len ≤ i + (list.map RouterTlvEntry.len).sum)
    (fun i hle => by simpa using hle) ?_ h
  intro i e high low rest _ _ _ _ _ _ hsum
  rw [List.map_cons, List.sum_cons]
  omega

end Loop

/-- The length of the entries, three bytes more for each of them. -/
theorem length_tlvBytes (tlvs : List ControlTlv) :
    (tlvBytes tlvs).length = (tlvs.map fun t => t.value.length).sum + 3 * tlvs.length := by
  induction tlvs with
  | nil => rfl
  | cons t tlvs ih =>
    have hcons : tlvBytes (t :: tlvs) = t.bytes ++ tlvBytes tlvs := List.flatMap_cons
    rw [hcons, List.length_append, ih, List.map_cons, List.sum_cons, List.length_cons]
    simp only [ControlTlv.bytes, List.length_cons]
    omega

/-- The headers are missing from what the parser adds up. -/
theorem eq_nil_of_tlvsRoundTrip {tlvs : List ControlTlv} {behind : List UInt8}
    (h : TlvsRoundTrip tlvs behind) : tlvs = [] := by
  obtain ⟨list, hparse, hsame⟩ := h
  have hlens : list.map RouterTlvEntry.len = tlvs.map fun t => t.value.length := by
    have hsecond := congrArg (List.map fun r : UInt8 × ℕ × List UInt8 => r.2.1) hsame
    simpa [List.map_map, Function.comp_def] using hsecond
  have hsum := le_sum_of_routerParseTlvLoop hparse
  rw [hlens, length_tlvBytes] at hsum
  have hcount : tlvs.length = 0 := by omega
  exact List.length_eq_zero_iff.mp hcount

/-- **Control messages.** The parser gives back the entries of a message exactly
when there are none. -/
theorem tlvs_round_trip_iff (tlvs : List ControlTlv) (behind : List UInt8) :
    TlvsRoundTrip tlvs behind ↔ tlvs = [] := by
  refine ⟨eq_nil_of_tlvsRoundTrip, ?_⟩
  rintro rfl
  exact ⟨[], rfl, rfl⟩

/-- The request for session 7. -/
def sessionTlv : ControlTlv := ⟨tagSession, [0x37], by decide⟩

/-- Behind its first entry the parser goes on in the middle of the header. -/
theorem tlvs_fail : ¬ ∀ (tlvs : List ControlTlv) (behind : List UInt8),
    TlvsRoundTrip tlvs behind := by
  intro h
  have hnil := eq_nil_of_tlvsRoundTrip (h [sessionTlv] [])
  cases hnil

/-! ## Malformed messages -/

/-- The lengths lead through the rest of a message of `len` bytes: wherever the
parser stops on the way there are three bytes, the length among them is positive,
and so many bytes lie behind the first header. -/
inductive LeadsThrough (len : ℕ) : List UInt8 → Prop
  | done : LeadsThrough len []
  | entry (tag high low : UInt8) (rest : List UInt8) {size : ℕ}
      (hsize : size = high.toNat * 256 + low.toNat) (hpos : 1 ≤ size) (hfit : size + 3 ≤ len)
      (hrest : LeadsThrough len ((tag :: high :: low :: rest).drop size)) :
      LeadsThrough len (tag :: high :: low :: rest)

/-- The parser gets through a message in a block of its own: it stops after some
number of rounds, and has read nothing outside the message. -/
def ParsesHarmlessly (str : List UInt8) : Prop :=
  ∃ rounds list, routerParseTlvLoop str str.length rounds 0 = .ok list

section Malformed

variable {str : List UInt8}

/-- The bytes of a header are read where there are three of them. -/
theorem header_drop {i : ℕ} {tag high low : UInt8} (htag : byteAt str i = .ok tag)
    (hhigh : byteAt str (i + 1 : ℕ) = .ok high) (hlow : byteAt str (i + 2 : ℕ) = .ok low) :
    str.drop i = tag :: high :: low :: str.drop (i + 3) := by
  have hlen : i + 2 < str.length := by
    by_contra hshort
    rw [byteAt_end (by omega)] at hlow
    cases hlow
  have hget : ∀ {k : ℕ} (hk : k < str.length) {b : UInt8}, byteAt str k = .ok b →
      str[k] = b := by
    intro k hk b hb
    rw [byteAt_natCast (List.getElem?_eq_getElem hk)] at hb
    exact Except.ok.inj hb
  rw [List.drop_eq_getElem_cons (by omega), List.drop_eq_getElem_cons (by omega),
    List.drop_eq_getElem_cons (by omega), hget _ htag, hget _ hhigh, hget _ hlow]

/-- A value of at least one byte lies within the block. -/
theorem memRead_three {size : ℕ} (hpos : 1 ≤ size) :
    (∃ val, memRead str 3 size = .ok val) ↔ size + 3 ≤ str.length := by
  have hread := memRead_natCast str 3 size
  rw [show ((3 : ℕ) : ℤ) = 3 from rfl, List.length_drop] at hread
  rw [hread]
  by_cases hfit : size ≤ str.length - 3
  · rw [if_pos hfit]
    exact iff_of_true ⟨_, rfl⟩ (by omega)
  · rw [if_neg hfit]
    refine iff_of_false ?_ (by omega)
    rintro ⟨val, h⟩
    cases h

/-- However many rounds it takes, a parser that stops was led through. -/
theorem leadsThrough_of_loop {n i : ℕ} {list : List RouterTlvEntry}
    (h : routerParseTlvLoop str str.length n i = .ok list) :
    LeadsThrough str.length (str.drop i) := by
  refine routerParseTlvLoop_rec (P := fun i _ => LeadsThrough str.length (str.drop i))
    (fun i hle => ?_) ?_ h
  · rw [List.drop_of_length_le hle]
    exact .done
  · intro i e high low rest _ htag hhigh hlow hlen hval hnext
    have hdrop := header_drop htag hhigh hlow
    rcases Nat.eq_zero_or_pos e.len with hzero | hpos
    · -- the next round starts in the same place
      rwa [hzero, Nat.add_zero] at hnext
    · rw [← List.drop_drop, hdrop] at hnext
      rw [hdrop]
      exact .entry e.tag high low _ hlen hpos ((memRead_three hpos).mp ⟨e.val, hval⟩) hnext

/-- A parser that is led through stops: each round takes it on. -/
theorem loop_of_leadsThrough {n i : ℕ} (hn : str.length ≤ n + i)
    (h : LeadsThrough str.length (str.drop i)) :
    ∃ list, routerParseTlvLoop str str.length n i = .ok list := by
  generalize hbody : str.drop i = body at h
  induction h generalizing n i with
  | done =>
    have hi : ¬ i < str.length := by
      have := congrArg List.length hbody
      rw [List.length_drop, List.length_nil] at this
      omega
    refine ⟨[], ?_⟩
    cases n <;> rw [routerParseTlvLoop, if_neg hi]
  | @entry tag high low rest size hsize hpos hfit hrest ih =>
    have hlen := congrArg List.length hbody
    simp only [List.length_drop, List.length_cons] at hlen
    have hget : ∀ k b, (tag :: high :: low :: rest)[k]? = some b →
        byteAt str (i + k : ℕ) = .ok b := by
      intro k b hb
      rw [← hbody, List.getElem?_drop] at hb
      exact byteAt_natCast hb
    obtain ⟨n, rfl⟩ := Nat.exists_eq_add_of_le' (show 1 ≤ n by omega)
    obtain ⟨val, hval⟩ := (memRead_three hpos).mpr hfit
    have hdrop : str.drop (i + size) = (tag :: high :: low :: rest).drop size := by
      rw [← hbody, List.drop_drop]
    obtain ⟨list, hlist⟩ := ih (n := n) (by omega) hdrop
    have htag : byteAt str i = .ok tag := hget 0 tag rfl
    rw [routerParseTlvLoop, if_pos (by omega), htag, ok_bind, hget 1 high rfl, ok_bind,
      hget 2 low rfl, ok_bind]
    dsimp only
    rw [← hsize, hval, ok_bind, hlist, ok_bind]
    exact ⟨_, rfl⟩

end Malformed

/-- **Malformed messages.** The parser gets through a message exactly when its
lengths lead to the end. -/
theorem parsesHarmlessly_iff (str : List UInt8) :
    ParsesHarmlessly str ↔ LeadsThrough str.length str := by
  constructor
  · rintro ⟨rounds, list, h⟩
    exact leadsThrough_of_loop h
  · intro h
    obtain ⟨list, hlist⟩ := loop_of_leadsThrough (n := str.length) (i := 0) le_rfl h
    exact ⟨str.length, list, hlist⟩

/-- A message of one byte has no room for a length, and an entry without a value
is read for ever. -/
theorem parsesHarmlessly_fail :
    ¬ ParsesHarmlessly [0x10] ∧ ¬ ParsesHarmlessly [0x10, 0x00, 0x00] := by
  constructor
  · rintro ⟨rounds, list, h⟩
    cases leadsThrough_of_loop h
  · rintro ⟨rounds, list, h⟩
    cases leadsThrough_of_loop h with
    | entry tag high low rest hsize hpos hfit hrest =>
      simp only [List.length_cons, List.length_nil] at hfit
      omega

end TsmVm
