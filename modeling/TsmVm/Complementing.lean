import TsmVm.OperandArrays
import TsmVm.Overwriting

/-!
# Complementing (`data_reverse`)

The bytes of a value are complemented into a fresh block, whose length is never
set. What is bound is empty for every bytecode that asks for its length,
`data_reverse` included.
-/

namespace TsmVm

/-- The bitwise complement of each byte. -/
def complement (bs : List UInt8) : List UInt8 := bs.map fun b => ~~~b

/-- What is bound to a text after values without a length have been written
under some keys. -/
def Bre.emptied (t : Bre) (keys : List (List UInt8)) (x : List UInt8) : Option (List UInt8) :=
  if x ∈ keys then some [] else t.content x

/-- A session, and the operands of `a:b` and then `b:c`, where `a` is bound. -/
structure Complementing where
  /-- The session. -/
  ccb : Ccb
  /-- What C leaves open for the first call. -/
  u₁ : Unspec
  /-- What it leaves open for the second one. -/
  u₂ : Unspec
  /-- The operands of the first call. -/
  arg₁ : FmBytesArray
  /-- The operands of the second one. -/
  arg₂ : FmBytesArray
  /-- The source of the first call. -/
  a : ByteString
  /-- Its destination. -/
  b : ByteString
  /-- The source of the second call. -/
  b' : ByteString
  /-- Its destination. -/
  c : ByteString
  /-- The number of spare slots of the first array. -/
  spare₁ : ℕ
  /-- The number of spare slots of the second one. -/
  spare₂ : ℕ
  /-- The arrays hold the operands. -/
  operands₁ : arg₁.Operands [a, b] spare₁
  operands₂ : arg₂.Operands [b', c] spare₂
  /-- The second call goes on with the destination of the first one. -/
  same : b'.content = b.content
  /-- The value of the source. -/
  value : FmBytes
  /-- It is bound to it. -/
  bound : ccb.bre.lookup a.content = some value
  /-- The values that are bound are byte strings. -/
  values : ∀ x v, ccb.bre.lookup x = some v → v.Valid
  /-- The block of the first call holds no key yet. -/
  fresh : ∀ e ∈ ccb.bre, e.key.storage ≠ some (u₁.addr 0)

namespace Complementing

/-- The first call binds the complement to its destination, and the second one
the bytes the source had. -/
def IsInvolution (x : Complementing) (rsp₁ rsp₂ : Ptr FmBytesArray) : Prop :=
  ∃ ret₁ ccb₁, dataReverse x.u₁ x.ccb rsp₁ x.arg₁ = .ok (ret₁, ccb₁) ∧
    (∃ w, zcHashtableGet ccb₁.bre x.b.content = .ok (some w) ∧
      w.content = complement x.value.content ∧ w.leng = x.value.leng) ∧
    ∃ ret₂ ccb₂, dataReverse x.u₂ ccb₁ rsp₂ x.arg₂ = .ok (ret₂, ccb₂) ∧
      ∃ z, zcHashtableGet ccb₂.bre x.c.content = .ok (some z) ∧
        z.content = x.value.content ∧ z.leng = x.value.leng

/-- The buffers of the operands are terminated. -/
def Terminated (x : Complementing) : Prop :=
  x.a.Terminated ∧ x.b.Terminated ∧ x.b'.Terminated ∧ x.c.Terminated

/-- Both calls find a source under the name in the buffer of their first operand. -/
def FindsSources (x : Complementing) : Prop :=
  (∃ v, x.ccb.bre.lookup x.a.bufKey = some v) ∧
    (x.b'.bufKey = x.b.bufKey ∨ ∃ v, x.ccb.bre.lookup x.b'.bufKey = some v)

/-- The table can be written to under the names in the buffers of the second
operands, one after the other. -/
def Writable (x : Complementing) : Prop :=
  x.ccb.bre.sound = true ∧ x.ccb.bre.CanPut ⟨x.b.bufKey, none⟩ ∧
    (x.c.bufKey ≠ x.b.bufKey → ∀ old, x.ccb.bre.lookup x.c.bufKey = some old →
      ∀ e ∈ x.ccb.bre, e.key.text ≠ x.c.bufKey → e.key.text ≠ x.b.bufKey →
        e.key.storage ≠ some old.addr)

/-- Values without a length are what is to be bound, or it was bound before and is
not written to. -/
def Supplies (x : Complementing) : Prop :=
  x.ccb.bre.emptied [x.b.bufKey] x.b.content = some (complement x.value.content) ∧
    x.ccb.bre.emptied [x.b.bufKey, x.c.bufKey] x.c.content = some x.value.content

end Complementing

/-! ## One value -/

section Value

variable {size : ℕ}

theorem length_complement (bs : List UInt8) : (complement bs).length = bs.length :=
  List.length_map _

/-- The bytes are complemented one after the other. -/
theorem dataReverseBytes_eq (addr : ℕ) (behind : List UInt8) {str0 rest behind' : List UInt8}
    (done : List UInt8) (hstr : str0 = done ++ rest ++ behind')
    (hsize : (done ++ rest).length ≤ size) :
    dataReverseBytes str0 size rest.length done.length
        (filledBytes addr behind size (complement done)).buf =
      .ok (filledBytes addr behind size (complement (done ++ rest))).buf := by
  induction rest generalizing done with
  | nil =>
    rw [List.append_nil]
    rfl
  | cons b rest ih =>
    have hbyte : byteAt str0 done.length = .ok b := by
      refine byteAt_natCast ?_
      rw [hstr, List.append_assoc, List.getElem?_append_right le_rfl, Nat.sub_self]
      rfl
    have hwrite := memWrite_filledBytes addr behind (complement done) [~~~b]
      (show (complement done).length + 1 ≤ size by
        rw [List.length_append, List.length_cons] at hsize
        rw [length_complement]
        omega)
    have hnext : complement done ++ [~~~b] = complement (done ++ [b]) := by
      simp [complement]
    have hrest := ih (done ++ [b]) (by rw [hstr]; simp) (by simpa using hsize)
    rw [List.length_append, List.length_singleton, List.append_assoc, List.singleton_append]
      at hrest
    rw [length_complement, hnext] at hwrite
    rw [List.length_cons, dataReverseBytes, hbyte, ok_bind, hwrite, ok_bind, hrest]

/-- The value `data_reverse` makes of a source: the complement, in a block whose
length is zero. -/
def reversed (u : Unspec) (src : FmBytes) : FmBytes :=
  { filledBytes (u.addr 0) (u.behind 0) src.content.length (complement src.content) with leng := 0 }

theorem dataReverseValue_eq (u : Unspec) {src : FmBytes} (hsrc : src.Valid) :
    dataReverseValue u 0 (some src) = .ok (some (reversed u src)) := by
  have hlen := hsrc.length_content
  have hbuf : src.buf = [] ++ src.content ++ src.buf.drop src.leng.toNat := by
    rw [List.nil_append, FmBytes.content, List.take_append_drop]
  have hbytes := dataReverseBytes_eq (u.addr 0) (u.behind 0) [] hbuf le_rfl
  have htoNat : src.leng.toNat = src.content.length := by omega
  have hsize : (filledBytes (u.addr 0) (u.behind 0) src.content.length []).size.toNat =
      src.content.length := Int.toNat_natCast _
  have hfresh : complement [] = [] := rfl
  rw [List.nil_append, List.length_nil, hfresh] at hbytes
  unfold dataReverseValue fmBytesGetLength
  simp only [derefOption_some, ok_bind, pure_eq_ok]
  rw [← hlen, fmBytesAlloc_filledBytes]
  dsimp only
  rw [hsize, Int.toNat_natCast, hbytes]
  rfl

end Value

/-! ## One call -/

section Call

variable {u : Unspec} {arg : FmBytesArray} {p q : ByteString} {spare : ℕ} {ccb : Ccb}
  {rsp : Ptr FmBytesArray}

/-- A call with a pair of operands. -/
theorem dataReverse_pair (harg : arg.Operands [p, q] spare) :
    dataReverse u ccb rsp arg = dataReverseRound u arg 0 ccb.bre >>= fun bre =>
      .ok (0, { ccb with bre := bre }) := by
  have hcnt : arg.cnt = 2 := harg.cnt_eq
  unfold dataReverse dataGroups
  rw [hcnt]
  simp only [ne_eq, Int.tmod_self, not_true_eq_false, if_false]
  change (dataReverseRound u arg 0 ccb.bre >>= fun bre => .ok bre) >>= _ = _
  rw [bind_assoc]
  rfl

/-- **What a call does** in a session whose values are byte strings. -/
theorem dataReverse_eq_ok_iff (harg : arg.Operands [p, q] spare)
    (hvalues : ∀ x v, ccb.bre.lookup x = some v → v.Valid) {ret : ℤ} {ccb' : Ccb} :
    dataReverse u ccb rsp arg = .ok (ret, ccb') ↔
      p.Terminated ∧ q.Terminated ∧ ∃ src, ccb.bre.lookup p.bufKey = some src ∧
        ∃ t', zcHashtablePut ccb.bre ⟨q.bufKey, none⟩ (some (reversed u src)) = .ok t' ∧
          ret = 0 ∧ ccb' = { ccb with bre := t' } := by
  have hp : arg.at (2 * 0 : ℕ) = .ok (some p.toFmBytes) := harg.at_eq (i := 0) rfl
  have hq : arg.at (2 * 0 + 1 : ℕ) = .ok (some q.toFmBytes) := harg.at_eq (i := 1) rfl
  rw [dataReverse_pair harg, dataReverseRound, hp, ok_bind, hq]
  constructor
  · intro h
    obtain ⟨t', hround, h⟩ := bind_eq_ok.mp h
    obtain ⟨text, htext, hround⟩ := bind_eq_ok.mp hround
    obtain ⟨hterm, rfl⟩ := ByteString.bufText_eq_ok htext
    obtain ⟨src, hsrc, hround⟩ := bind_eq_ok.mp hround
    obtain ⟨-, rfl⟩ := Bre.of_get hsrc
    rw [ok_bind] at hround
    obtain ⟨data, hdata, hround⟩ := bind_eq_ok.mp hround
    obtain ⟨key, hkey, hput⟩ := bind_eq_ok.mp hround
    obtain ⟨hterm', rfl⟩ := ByteString.bufText_eq_ok hkey
    cases hlookup : ccb.bre.lookup p.bufKey with
    | none =>
      rw [hlookup] at hdata
      cases hdata
    | some src =>
      rw [hlookup, dataReverseValue_eq u (hvalues _ _ hlookup)] at hdata
      obtain rfl := Except.ok.inj hdata
      obtain ⟨rfl, rfl⟩ := Prod.mk.inj (Except.ok.inj h)
      exact ⟨hterm, hterm', src, rfl, t', hput, rfl, rfl⟩
  · rintro ⟨hterm, hterm', src, hlookup, t', hput, rfl, rfl⟩
    rw [show bufText _ = _ from hterm, ok_bind, Bre.get_eq (Bre.of_put hput).1, ok_bind, ok_bind,
      hlookup, dataReverseValue_eq u (hvalues _ _ hlookup), ok_bind,
      show bufText _ = _ from hterm', ok_bind, hput, ok_bind]

/-- What is written has no bytes in use. -/
theorem content_reversed (u : Unspec) (src : FmBytes) : (reversed u src).content = [] := rfl

theorem reversed_valid (u : Unspec) (src : FmBytes) : (reversed u src).Valid :=
  ⟨le_rfl, Int.natCast_nonneg _, u.addr_ne_zero 0⟩

end Call

/-! ## Two calls -/

namespace Complementing

variable {x : Complementing}

/-- The table after the first call can be written to, as far as the keys of the
table before it allow it. -/
theorem canPut_iff {src : FmBytes} {t₁ : Bre}
    (h : x.ccb.bre.Written ⟨x.b.bufKey, none⟩ (some (reversed x.u₁ src)) t₁) :
    t₁.CanPut ⟨x.c.bufKey, none⟩ ↔
      (x.c.bufKey ≠ x.b.bufKey → ∀ old, x.ccb.bre.lookup x.c.bufKey = some old →
        ∀ e ∈ x.ccb.bre, e.key.text ≠ x.c.bufKey → e.key.text ≠ x.b.bufKey →
          e.key.storage ≠ some old.addr) := by
  constructor
  · intro hcan hne old hold e he hc hb
    obtain ⟨e', he', hkey⟩ := (h.keys_iff e.key).mpr (.inr ⟨e, he, rfl, hb⟩)
    have hlookup := h.lookup_eq x.c.bufKey
    rw [if_neg hne] at hlookup
    rw [← hkey] at hc ⊢
    exact (hcan old (hlookup.trans hold)).2 e' he' hc
  · intro hkeys old hold
    rw [h.lookup_eq] at hold
    refine ⟨nofun, fun e' he' hc => ?_⟩
    obtain hkey | ⟨e, he, hkey, hb⟩ := (h.keys_iff e'.key).mp ⟨e', he', rfl⟩
    · rw [hkey]
      exact nofun
    · rw [← hkey] at hc hb ⊢
      split at hold
      · -- the value of the first call lies in a block that holds no key
        obtain rfl := Option.some.inj hold
        exact x.fresh e he
      · exact hkeys ‹_› old hold e he hc hb

/-- What the two calls leave bound. -/
theorem content_eq {src src' : FmBytes} {t₁ t₂ : Bre}
    (h₁ : x.ccb.bre.Written ⟨x.b.bufKey, none⟩ (some (reversed x.u₁ src)) t₁)
    (h₂ : t₁.Written ⟨x.c.bufKey, none⟩ (some (reversed x.u₂ src')) t₂) (y : List UInt8) :
    t₁.content y = x.ccb.bre.emptied [x.b.bufKey] y ∧
      t₂.content y = x.ccb.bre.emptied [x.b.bufKey, x.c.bufKey] y := by
  have hfirst := h₁.content_eq y
  have hsecond := h₂.content_eq y
  rw [Option.map_some, content_reversed] at hfirst hsecond
  constructor
  · rw [hfirst, Bre.emptied]
    simp only [List.mem_singleton]
  · rw [hsecond, hfirst, Bre.emptied]
    simp only [List.mem_cons, List.not_mem_nil, or_false]
    split <;> split <;> simp_all

/-- What is left where complementing is an involution. -/
theorem of_isInvolution {rsp₁ rsp₂ : Ptr FmBytesArray} (h : x.IsInvolution rsp₁ rsp₂) :
    x.Terminated ∧ x.FindsSources ∧ x.Writable ∧ x.Supplies := by
  have hlen := (x.values _ _ x.bound).length_content
  have hlen' := (congrArg Nat.cast (length_complement x.value.content)).trans hlen
  obtain ⟨ret₁, ccb₁, hcall₁, hb, ret₂, ccb₂, hcall₂, hc⟩ := h
  obtain ⟨hta, htb, src, hsrc, t₁, hput₁, rfl, rfl⟩ :=
    (dataReverse_eq_ok_iff x.operands₁ x.values).mp hcall₁
  obtain ⟨hstart, h₁⟩ := Bre.of_put hput₁
  have hvalues₁ := h₁.values (fun v hv => Option.some.inj hv ▸ reversed_valid _ _) x.values
  obtain ⟨htb', htc, src', hsrc', t₂, hput₂, rfl, rfl⟩ :=
    (dataReverse_eq_ok_iff x.operands₂ hvalues₁).mp hcall₂
  obtain ⟨hsound₁, h₂⟩ := Bre.of_put hput₂
  have hvalues₂ := h₂.values (fun v hv => Option.some.inj hv ▸ reversed_valid _ _) hvalues₁
  have hsound₂ : t₂.sound = true := by
    obtain ⟨z, hz, -⟩ := hc
    exact (Bre.of_get hz).1
  rw [Bre.bound_iff hsound₁ hvalues₁ hlen', (content_eq h₁ h₂ _).1] at hb
  rw [Bre.bound_iff hsound₂ hvalues₂ hlen, (content_eq h₁ h₂ _).2] at hc
  refine ⟨⟨hta, htb, htb', htc⟩, ⟨⟨src, hsrc⟩, ?_⟩,
    ⟨hstart, h₁.sound_iff.mp hsound₁, (canPut_iff h₁).mp (h₂.sound_iff.mp hsound₂)⟩, hb, hc⟩
  rw [h₁.lookup_eq] at hsrc'
  split at hsrc'
  · exact .inl ‹_›
  · exact .inr ⟨src', hsrc'⟩

/-- **When complementing is an involution**: where the calls can be made, and what
is to be bound is empty or was bound before. -/
theorem isInvolution_iff (x : Complementing) (rsp₁ rsp₂ : Ptr FmBytesArray) :
    x.IsInvolution rsp₁ rsp₂ ↔ x.Terminated ∧ x.FindsSources ∧ x.Writable ∧ x.Supplies := by
  have hlen := (x.values _ _ x.bound).length_content
  have hlen' := (congrArg Nat.cast (length_complement x.value.content)).trans hlen
  refine ⟨of_isInvolution, ?_⟩
  rintro ⟨⟨hta, htb, htb', htc⟩, ⟨⟨src, hsrc⟩, hfinds⟩, ⟨hstart, hcan₁, hcan₂⟩, hb, hc⟩
  obtain ⟨t₁, hput₁, h₁⟩ := Bre.put hstart ⟨x.b.bufKey, none⟩ (some (reversed x.u₁ src))
  have hvalues₁ := h₁.values (fun v hv => Option.some.inj hv ▸ reversed_valid _ _) x.values
  have hsound₁ := h₁.sound_iff.mpr hcan₁
  obtain ⟨src', hsrc'⟩ : ∃ src', t₁.lookup x.b'.bufKey = some src' := by
    rw [h₁.lookup_eq]
    split
    · exact ⟨_, rfl⟩
    · exact hfinds.resolve_left ‹_›
  obtain ⟨t₂, hput₂, h₂⟩ := Bre.put hsound₁ ⟨x.c.bufKey, none⟩ (some (reversed x.u₂ src'))
  have hvalues₂ := h₂.values (fun v hv => Option.some.inj hv ▸ reversed_valid _ _) hvalues₁
  have hsound₂ := h₂.sound_iff.mpr ((canPut_iff h₁).mpr hcan₂)
  refine ⟨0, { x.ccb with bre := t₁ }, (dataReverse_eq_ok_iff x.operands₁ x.values).mpr
    ⟨hta, htb, src, hsrc, t₁, hput₁, rfl, rfl⟩, ?_, 0, { x.ccb with bre := t₂ },
    (dataReverse_eq_ok_iff x.operands₂ hvalues₁).mpr
      ⟨htb', htc, src', hsrc', t₂, hput₂, rfl, rfl⟩, ?_⟩
  · exact (Bre.bound_iff hsound₁ hvalues₁ hlen').mpr ((content_eq h₁ h₂ _).1.trans hb)
  · exact (Bre.bound_iff hsound₂ hvalues₂ hlen).mpr ((content_eq h₁ h₂ _).2.trans hc)

/-- Where the buffer of the destination spells its name, it is to be empty. -/
theorem Supplies.value_eq_nil (h : x.Supplies) (hb : x.b.bufKey = x.b.content) :
    x.value.content = [] := by
  have hfirst := h.1
  rw [Bre.emptied, hb, if_pos (List.mem_singleton_self _), Option.some.injEq] at hfirst
  rw [← List.length_eq_zero_iff, ← length_complement, ← hfirst, List.length_nil]

end Complementing

/-- `data_reverse,a:b` and `data_reverse,b:c`, where `a` is bound to one byte. -/
def oneByteTwice : Complementing where
  ccb := { plainCcb 7 2 with
           bre := [⟨⟨[0x61], none⟩, some (ByteString.of [0x2A]).toFmBytes, false⟩] }
  u₁ := plainUnspec
  u₂ := plainUnspec
  arg₁ := { addr := 1, size := 2, cnt := 2,
            array := [some (letter 0x61).toFmBytes, some (letter 0x62).toFmBytes] }
  arg₂ := { addr := 1, size := 2, cnt := 2,
            array := [some (letter 0x62).toFmBytes, some (letter 0x63).toFmBytes] }
  a := letter 0x61
  b := letter 0x62
  b' := letter 0x62
  c := letter 0x63
  spare₁ := 0
  spare₂ := 0
  operands₁ := ⟨rfl, rfl, rfl⟩
  operands₂ := ⟨rfl, rfl, rfl⟩
  same := rfl
  value := (ByteString.of [0x2A]).toFmBytes
  bound := rfl
  values := by
    refine Bre.values_of_entries fun e he v hv => ?_
    obtain rfl := List.mem_singleton.mp he
    exact Option.some.inj hv ▸ (ByteString.of [0x2A]).valid
  fresh := by
    intro e he
    obtain rfl := List.mem_singleton.mp he
    exact nofun

/-- It is not what `c` is bound to then. -/
theorem oneByteTwice_fail : ¬ oneByteTwice.IsInvolution .null .null := by
  intro h
  have hnil := (Complementing.of_isInvolution h).2.2.2.value_eq_nil rfl
  cases hnil

end TsmVm
