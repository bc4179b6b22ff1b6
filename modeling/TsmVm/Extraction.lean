import TsmVm.BcData
import TsmVm.OperandArrays
import TsmVm.Overwriting
import Mathlib.Data.List.Indexes

/-!
# Extraction (`data_extract_rsp`, `data_extract`)

A tuple of operands asks for the bytes of a source between two indices, under a
name. The bytecodes that work on lists of tuples check no index, drop the result
of the function that does, and write under the empty name whatever the name is.
They never return an error for a tuple.
-/

namespace TsmVm

/-- Four operands that ask for bytes of a source. -/
structure ExtractTuple where
  /-- The source: a number, or a name. -/
  source : ByteString
  /-- The index of the first byte. -/
  start : ByteString
  /-- The index of the last one. -/
  stop : ByteString
  /-- The name the bytes are to be bound to. -/
  name : ByteString

/-- The operands of a tuple. -/
def ExtractTuple.operands (t : ExtractTuple) : List ByteString :=
  [t.source, t.start, t.stop, t.name]

/-- The bytes between two indices, both included. -/
def between (bs : List UInt8) (start stop : ℤ) : List UInt8 :=
  (bs.drop start.toNat).take (stop - start + 1).toNat

/-- What a tuple asks for. -/
structure Cut where
  /-- The bytes of the source, if it exists. -/
  source : Option (List UInt8)
  /-- The index of the first byte. -/
  start : ℤ
  /-- The index of the last one. -/
  stop : ℤ
  /-- The name the bytes are to be bound to. -/
  name : List UInt8

/-- The source exists, and the indices are in order and within it. -/
def Cut.InRange (c : Cut) : Prop :=
  ∃ bs, c.source = some bs ∧ 0 ≤ c.start ∧ c.start ≤ c.stop ∧ c.stop < bs.length

/-- The bytes it asks for. -/
def Cut.bytes (c : Cut) : List UInt8 := c.source.elim [] fun bs => between bs c.start c.stop

/-- The name is bound to them. -/
def Cut.IsBound (c : Cut) (bre : Bre) : Prop :=
  ∃ v, zcHashtableGet bre c.name = .ok (some v) ∧ v.content = c.bytes ∧
    v.leng = c.stop - c.start + 1

/-- With all tuples in range the call returns zero, and each name is bound to the
bytes; otherwise it returns an error, and the session is as it was. -/
def ExtractsExactly (call : Res (ℤ × Ccb)) (ccb : Ccb) (cuts : List Cut) : Prop :=
  ((∀ c ∈ cuts, c.InRange) →
    ∃ ccb', call = .ok (0, ccb') ∧ ∀ c ∈ cuts, c.IsBound ccb'.bre) ∧
  ((¬ ∀ c ∈ cuts, c.InRange) → ∃ err ≠ 0, call = .ok (err, ccb))

/-- A session and the operands of an extraction. -/
structure Extraction where
  /-- The session. -/
  ccb : Ccb
  /-- What C leaves open for the call. -/
  u : Unspec
  /-- The array. -/
  arg : FmBytesArray
  /-- The tuples. -/
  tuples : List ExtractTuple
  /-- The number of spare slots. -/
  spare : ℕ
  /-- The array holds them. -/
  operands : arg.Operands (tuples.flatMap ExtractTuple.operands) spare
  /-- The values that are bound are byte strings. -/
  values : ∀ x v, ccb.bre.lookup x = some v → v.Valid
  /-- The blocks of the call hold no key yet. -/
  fresh : ∀ e ∈ ccb.bre, ∀ k, e.key.storage ≠ some (u.addr k)

/-- The fragments of a response. -/
structure FragmentArray extends FmBytesArray where
  /-- Each of them is a byte string. -/
  valid : ∀ p, some p ∈ array → p.Valid

/-- The number in an operand, as it is read. -/
def ByteString.number (p : ByteString) (junk : UInt32) : ℤ :=
  if p.leng ≤ 4 then int32 (accumulate 0 p.content junk) else -1

theorem ByteString.int_eq (p : ByteString) (junk : UInt32) :
    fmBytes2intBE junk (some p.toFmBytes) = .ok (p.number junk) := by
  unfold number
  split
  · exact fmBytes2intBE_eq p ‹_› junk
  · unfold fmBytes2intBE
    rw [derefOption_some, ok_bind, if_pos (by omega)]
    rfl

/-- The fragment of a number. -/
def FragmentArray.fragment (rsp : FragmentArray) (frm : ℤ) : Option FmBytes :=
  if 0 ≤ frm ∧ frm < rsp.cnt then rsp.array[frm.toNat]?.join else none

namespace Extraction

/-- What the tuples ask for of a response. -/
def rspCuts (x : Extraction) (rsp : FragmentArray) : List Cut :=
  x.tuples.mapIdx fun k t =>
    { source := (rsp.fragment (t.source.number (x.u.word (3 * k)))).map FmBytes.content,
      start := t.start.number (x.u.word (3 * k + 1)),
      stop := t.stop.number (x.u.word (3 * k + 2)), name := t.name.content }

/-- What they ask for of the environment. -/
def cuts (x : Extraction) : List Cut :=
  x.tuples.mapIdx fun k t =>
    { source := x.ccb.bre.content t.source.content, start := t.start.number (x.u.word (2 * k)),
      stop := t.stop.number (x.u.word (2 * k + 1)), name := t.name.content }

/-- The table can be written to under the empty name. -/
def Writable (x : Extraction) : Prop := x.ccb.bre.sound = true ∧ x.ccb.bre.CanPut ⟨[], none⟩

/-- Each name is bound to the bytes it is to be bound to, once the empty name is
bound to `last`. -/
def Supplies (x : Extraction) (last : Option (List UInt8)) (cuts : List Cut) : Prop :=
  ∀ c ∈ cuts, (if c.name = [] then last else x.ccb.bre.content c.name) = some c.bytes

end Extraction

/-- What `data_extract` takes for the name of a source: the bytes of the operand
structure, where they end. -/
def ExtractTuple.key (t : ExtractTuple) : List UInt8 :=
  match structText (some t.source.toFmBytes) with
  | .ok key => key
  | .error _ => []

/-- What is cut of other bytes than those asked for: nothing where they are too
short. -/
def Cut.taken (c : Cut) (raw : Option (List UInt8)) : List UInt8 :=
  raw.elim [] fun bs => if c.stop < bs.length then between bs c.start c.stop else []

/-- What the empty name is bound to when `data_extract` comes to a tuple. Each
tuple cuts what is bound to its key, which may be the empty name. -/
def Extraction.underEmpty (x : Extraction) : ℕ → Option (List UInt8)
  | 0 => x.ccb.bre.content []
  | k + 1 =>
    match x.tuples[k]?, x.cuts[k]? with
    | some t, some c =>
      some (c.taken (if t.key = [] then x.underEmpty k else x.ccb.bre.content t.key))
    | _, _ => none

/-! ## Operands -/

/-- The operands of a tuple stand side by side. -/
theorem getElem?_flatMap_operands {tuples : List ExtractTuple} {k : ℕ} {t : ExtractTuple}
    (h : tuples[k]? = some t) {j : ℕ} (hj : j < 4) :
    (tuples.flatMap ExtractTuple.operands)[4 * k + j]? = t.operands[j]? := by
  induction tuples generalizing k with
  | nil => cases h
  | cons t' tuples ih =>
    have hlen : t'.operands.length = 4 := rfl
    rw [List.flatMap_cons]
    cases k with
    | zero =>
      obtain rfl : t' = t := by simpa using h
      rw [List.getElem?_append_left (by omega), Nat.mul_zero, Nat.zero_add]
    | succ k =>
      rw [List.getElem?_append_right (by omega), hlen,
        show 4 * (k + 1) + j - 4 = 4 * k + j by omega]
      exact ih (by simpa using h)

theorem length_flatMap_operands (tuples : List ExtractTuple) :
    (tuples.flatMap ExtractTuple.operands).length = 4 * tuples.length := by
  induction tuples with
  | nil => rfl
  | cons t tuples ih =>
    rw [List.flatMap_cons, List.length_append, ih]
    simp only [ExtractTuple.operands, List.length_cons, List.length_nil]
    omega

/-- The loop runs once for each tuple. -/
theorem Extraction.dataGroups_eq (x : Extraction) (round : ℕ → Bre → Res Bre) (ccb : Ccb) :
    dataGroups 4 round ccb x.arg =
      loopFrom round x.tuples.length 0 ccb.bre >>= fun bre => .ok (0, { ccb with bre := bre }) := by
  have hcnt : x.arg.cnt = 4 * (x.tuples.length : ℤ) := by
    rw [x.operands.cnt_eq, length_flatMap_operands]
    push_cast
    rfl
  unfold dataGroups
  rw [hcnt, if_neg (by simp), Int.mul_ediv_cancel_left _ (by decide), Int.toNat_natCast]
  rfl

/-- So it never returns an error. -/
theorem Extraction.ret_eq_zero (x : Extraction) {round : ℕ → Bre → Res Bre} {ccb ccb' : Ccb}
    {ret : ℤ} (h : dataGroups 4 round ccb x.arg = .ok (ret, ccb')) : ret = 0 := by
  rw [x.dataGroups_eq] at h
  obtain ⟨bre, -, h⟩ := bind_eq_ok.mp h
  exact (congrArg Prod.fst (Except.ok.inj h)).symm

/-- The name that is taken for any name. -/
theorem freshText_eq (name : ByteString) : freshText (some name.toFmBytes) = .ok [] := by
  have hnonneg := name.valid.leng_nonneg
  obtain ⟨n, hn⟩ : ∃ n, (name.leng + 1).toNat = n + 1 := ⟨name.leng.toNat, by omega⟩
  unfold freshText fmBytesGetLength
  rw [derefOption_some, ok_bind, pure_eq_ok, ok_bind, if_neg (by omega), hn, List.replicate_succ]
  rfl

/-- It is taken for any name there is. -/
theorem freshText_eq_ok {name : Option FmBytes} {text : List UInt8}
    (h : freshText name = .ok text) : text = [] := by
  obtain ⟨nameLen, -, h⟩ := bind_eq_ok.mp h
  split at h
  · cases h
  · obtain ⟨n, hn⟩ : ∃ n, (nameLen + 1).toNat = n + 1 := ⟨nameLen.toNat, by omega⟩
    rw [hn, List.replicate_succ] at h
    exact (Except.ok.inj h).symm

/-! ## Cutting -/

/-- The bytes in range. -/
theorem length_between {bs : List UInt8} {start stop : ℤ} (hstart : 0 ≤ start)
    (hle : start ≤ stop) (hlt : stop < bs.length) :
    ((between bs start stop).length : ℤ) = stop - start + 1 := by
  rw [between, List.length_take, List.length_drop]
  omega

theorem Cut.InRange.length_bytes {c : Cut} (h : c.InRange) :
    (c.bytes.length : ℤ) = c.stop - c.start + 1 := by
  obtain ⟨bs, hsource, hstart, hle, hlt⟩ := h
  rw [Cut.bytes, hsource, Option.elim_some, length_between hstart hle hlt]

/-- Of the bytes asked for, those asked for are cut. -/
theorem Cut.InRange.taken_source {c : Cut} (h : c.InRange) : c.taken c.source = c.bytes := by
  obtain ⟨bs, hsource, -, -, hlt⟩ := h
  rw [Cut.taken, Cut.bytes, hsource, Option.elim_some, Option.elim_some, if_pos hlt]

/-- What the bytecodes cut, if the indices are in order. -/
theorem cutValue_eq (u : Unspec) (k : ℕ) (raw : Option FmBytes)
    (hraw : ∀ src, raw = some src → src.Valid) {c : Cut} (hstart : 0 ≤ c.start)
    (hle : c.start ≤ c.stop) :
    ∃ v, cutValue u k raw c.start c.stop = .ok (some v) ∧ v.Valid ∧ v.addr = u.addr k ∧
      v.content = c.taken (raw.map FmBytes.content) := by
  obtain ⟨i, hi⟩ := Int.eq_ofNat_of_zero_le hstart
  obtain ⟨m, hm⟩ := Int.eq_ofNat_of_zero_le (show 0 ≤ c.stop - c.start + 1 by omega)
  have haddr := u.addr_ne_zero k
  unfold cutValue
  rw [hm, fmBytesAlloc_filledBytes]
  cases raw with
  | none => exact ⟨_, rfl, filledBytes_valid haddr, rfl, content_filledBytes⟩
  | some src =>
    have hlen := (hraw src rfl).length_content
    rw [Cut.taken, Option.map_some, Option.elim_some]
    by_cases hlt : c.stop < src.leng
    · have hcopy := fmBytesCopy_filledBytes (u.behind k) haddr (hraw src rfl) [] m i m
        (by omega) (by simp)
      rw [List.length_nil, List.nil_append, Nat.cast_zero] at hcopy
      rw [hi, hcopy, if_pos (by omega)]
      refine ⟨_, rfl, filledBytes_valid haddr, rfl, ?_⟩
      rw [content_filledBytes, between, ← hi, hm, hi, Int.toNat_natCast, Int.toNat_natCast]
    · have hcopy : fmBytesCopy (some (filledBytes (u.addr k) (u.behind k) m [])) 0 (some src)
          c.start m = .ok (-1, some (filledBytes (u.addr k) (u.behind k) m [])) := by
        have hshort : src.leng - c.start < m := by omega
        unfold fmBytesCopy
        dsimp only
        simp only [hshort, if_true, ite_self]
      rw [hcopy, if_neg (by omega)]
      exact ⟨_, rfl, filledBytes_valid haddr, rfl, content_filledBytes⟩

/-- A fragment that exists can be read. -/
theorem FragmentArray.at_eq (rsp : FragmentArray) {frm : ℤ} {src : FmBytes}
    (h : rsp.fragment frm = some src) : rsp.at frm = .ok (some src) ∧ src.Valid := by
  unfold fragment at h
  split at h
  · have hslot : rsp.array[frm.toNat]? = some (some src) := Option.join_eq_some_iff.mp h
    refine ⟨?_, rsp.valid src (List.mem_of_getElem? hslot)⟩
    unfold FmBytesArray.at
    rw [if_neg (by omega), hslot]
  · cases h

/-- A name is bound to the bytes where the map holds them. -/
theorem Cut.InRange.isBound_iff {c : Cut} (h : c.InRange) {bre : Bre} (hsound : bre.sound = true)
    (hvalues : ∀ x v, bre.lookup x = some v → v.Valid) :
    c.IsBound bre ↔ bre.content c.name = some c.bytes :=
  Bre.bound_iff hsound hvalues h.length_bytes

/-! ## The loop -/

/-- The environment with the empty name bound to `last`. -/
structure Extraction.Rewritten (x : Extraction) (last : Option (List UInt8)) (t : Bre) :
    Prop where
  /-- The table can be used. -/
  sound : t.sound = true
  /-- It can be written to under the empty name. -/
  canPut : t.CanPut ⟨[], none⟩
  /-- The blocks of the call hold no key. -/
  fresh : ∀ e ∈ t, ∀ k, e.key.storage ≠ some (x.u.addr k)
  /-- Its values are byte strings. -/
  values : ∀ y v, t.lookup y = some v → v.Valid
  /-- The other names are bound to what they were bound to. -/
  content_eq : ∀ y, t.content y = if y = [] then last else x.ccb.bre.content y

namespace Extraction

variable (x : Extraction)

theorem rewritten_start (h : x.Writable) : x.Rewritten (x.ccb.bre.content []) x.ccb.bre where
  sound := h.1
  canPut := h.2
  fresh := x.fresh
  values := x.values
  content_eq := fun y => by
    split
    · rw [‹y = []›]
    · rfl

variable {x}

/-- A value that is written is bound to the empty name. -/
theorem Rewritten.put {last : Option (List UInt8)} {t : Bre} (h : x.Rewritten last t) {k : ℕ}
    {v : FmBytes} (hv : v.Valid) (haddr : v.addr = x.u.addr k) :
    ∃ t', zcHashtablePut t ⟨[], none⟩ (some v) = .ok t' ∧ x.Rewritten (some v.content) t' := by
  obtain ⟨t', hput, hwritten⟩ := Bre.put h.sound ⟨[], none⟩ (some v)
  have hfresh (e : BreEntry) (he : e ∈ t') (k : ℕ) : e.key.storage ≠ some (x.u.addr k) := by
    obtain hkey | ⟨e₀, he₀, hkey, -⟩ := (hwritten.keys_iff e.key).mp ⟨e, he, rfl⟩
    · rw [hkey]
      exact nofun
    · rw [← hkey]
      exact h.fresh e₀ he₀ k
  refine ⟨t', hput, hwritten.sound_iff.mpr h.canPut, fun old hold => ?_, hfresh, ?_, ?_⟩
  · -- the value that would be freed next lies in a block of the call
    rw [hwritten.lookup_eq, if_pos rfl] at hold
    obtain rfl := Option.some.inj hold
    exact ⟨nofun, fun e he _ => haddr ▸ hfresh e he k⟩
  · exact hwritten.values (fun w hw => Option.some.inj hw ▸ hv) h.values
  · intro y
    rw [hwritten.content_eq, h.content_eq]
    split <;> simp_all

/-- Operand `j` of tuple `k`. -/
theorem operand_eq {k : ℕ} {t : ExtractTuple} (ht : x.tuples[k]? = some t) {j : ℕ}
    (hj : j < 4) {p : ByteString} (hp : t.operands[j]? = some p) :
    x.arg.at (4 * k + j : ℕ) = .ok (some p.toFmBytes) :=
  x.operands.at_eq ((getElem?_flatMap_operands ht hj).trans hp)

/-- The operands of tuple `k`. -/
theorem tuple_at {k : ℕ} {t : ExtractTuple} (ht : x.tuples[k]? = some t) :
    x.arg.at (4 * k : ℕ) = .ok (some t.source.toFmBytes) ∧
      x.arg.at (4 * k + 1 : ℕ) = .ok (some t.start.toFmBytes) ∧
      x.arg.at (4 * k + 2 : ℕ) = .ok (some t.stop.toFmBytes) ∧
      x.arg.at (4 * k + 3 : ℕ) = .ok (some t.name.toFmBytes) :=
  ⟨operand_eq ht (j := 0) (by decide) rfl, operand_eq ht (j := 1) (by decide) rfl,
    operand_eq ht (j := 2) (by decide) rfl, operand_eq ht (j := 3) (by decide) rfl⟩

/-- A round on a response. -/
theorem rspRound_eq (rsp : FragmentArray) {k : ℕ} {t : ExtractTuple}
    (ht : x.tuples[k]? = some t) (bre : Bre) :
    dataExtractRspRound x.u (.obj rsp.toFmBytesArray) x.arg k bre =
      rsp.at (t.source.number (x.u.word (3 * k))) >>= fun raw =>
        cutValue x.u k raw (t.start.number (x.u.word (3 * k + 1)))
          (t.stop.number (x.u.word (3 * k + 2))) >>= fun data =>
            zcHashtablePut bre ⟨[], none⟩ data := by
  obtain ⟨hsource, hstart, hstop, hname⟩ := tuple_at ht
  unfold dataExtractRspRound
  rw [hsource, ok_bind, ByteString.int_eq, ok_bind, hstart, ok_bind, ByteString.int_eq, ok_bind,
    hstop, ok_bind, ByteString.int_eq, ok_bind, hname, ok_bind, freshText_eq, ok_bind]
  rfl

/-- A round on the environment. -/
theorem round_eq {k : ℕ} {t : ExtractTuple} (ht : x.tuples[k]? = some t) (bre : Bre) :
    dataExtractRound x.u x.arg k bre =
      structText (some t.source.toFmBytes) >>= fun src => zcHashtableGet bre src >>= fun raw =>
        cutValue x.u k raw (t.start.number (x.u.word (2 * k)))
          (t.stop.number (x.u.word (2 * k + 1))) >>= fun data =>
            zcHashtablePut bre ⟨[], none⟩ data := by
  obtain ⟨hsource, hstart, hstop, hname⟩ := tuple_at ht
  unfold dataExtractRound
  rw [hsource, ok_bind, hstart, ok_bind, ByteString.int_eq, hstop, ok_bind, ByteString.int_eq,
    hname]
  simp only [ok_bind, freshText_eq]

/-- A loop that returns a table that can be used began with one that could be
written to. -/
theorem writable_of_loop {round : ℕ → Bre → Res Bre} {n : ℕ} {t' : Bre}
    (hput : ∀ k t t', round k t = .ok t' → ∃ v, zcHashtablePut t ⟨[], none⟩ v = .ok t')
    (hloop : loopFrom round (n + 1) 0 x.ccb.bre = .ok t') (hsound : t'.sound = true) :
    x.Writable := by
  obtain ⟨t₁, hround, hloop⟩ := bind_eq_ok.mp hloop
  obtain ⟨v, hv⟩ := hput 0 _ _ hround
  obtain ⟨hstart, hwritten⟩ := Bre.of_put hv
  refine ⟨hstart, hwritten.sound_iff.mp ?_⟩
  cases n with
  | zero => exact Except.ok.inj hloop ▸ hsound
  | succ n =>
    obtain ⟨t₂, hround, -⟩ := bind_eq_ok.mp hloop
    obtain ⟨w, hw⟩ := hput 1 _ _ hround
    exact (Bre.of_put hw).1

/-- **Which extractions are exact**, for a loop whose rounds write under the empty
name and which runs to its end where the tuples are in range: those that write
the bytes asked for, if any name asks for them. -/
theorem extractsExactly_of_run {round : ℕ → Bre → Res Bre} {cuts : List Cut}
    {last : Option (List UInt8)} (keys : Prop) (hcuts : cuts.length = x.tuples.length)
    (hput : ∀ k t t', round k t = .ok t' → ∃ v, zcHashtablePut t ⟨[], none⟩ v = .ok t')
    (hkeys : ∀ t', loopFrom round x.tuples.length 0 x.ccb.bre = .ok t' → keys)
    (hrun : cuts ≠ [] → x.Writable → (∀ c ∈ cuts, c.InRange) → keys →
      ∃ t', loopFrom round x.tuples.length 0 x.ccb.bre = .ok t' ∧ x.Rewritten last t') :
    ExtractsExactly (dataGroups 4 round x.ccb x.arg) x.ccb cuts ↔
      cuts = [] ∨ x.Writable ∧ (∀ c ∈ cuts, c.InRange) ∧ keys ∧ x.Supplies last cuts := by
  by_cases hnil : cuts = []
  · subst hnil
    refine iff_of_true ⟨fun _ => ⟨x.ccb, ?_, by simp⟩, fun h => (h (by simp)).elim⟩ (.inl rfl)
    have hnone : x.tuples.length = 0 := hcuts.symm
    rw [x.dataGroups_eq, hnone]
    rfl
  obtain ⟨c, hc⟩ := List.exists_mem_of_ne_nil cuts hnil
  obtain ⟨n, hn⟩ : ∃ n, x.tuples.length = n + 1 :=
    ⟨x.tuples.length - 1, by have := List.length_pos_of_mem hc; omega⟩
  have hsupplies {t : Bre} (h : x.Rewritten last t) (hall : ∀ c ∈ cuts, c.InRange) :
      (∀ c ∈ cuts, c.IsBound t) ↔ x.Supplies last cuts := by
    refine forall₂_congr fun c hc => ?_
    rw [(hall c hc).isBound_iff h.sound h.values, h.content_eq]
  constructor
  · intro h
    have hall : ∀ c ∈ cuts, c.InRange := by
      by_contra hnot
      obtain ⟨err, herr, hcall⟩ := h.2 hnot
      exact herr (x.ret_eq_zero hcall)
    obtain ⟨ccb', hcall, hbound⟩ := h.1 hall
    rw [x.dataGroups_eq] at hcall
    obtain ⟨t', hloop, hcall⟩ := bind_eq_ok.mp hcall
    obtain rfl := congrArg Prod.snd (Except.ok.inj hcall)
    obtain ⟨v, hget, -⟩ := hbound c hc
    have hwritable := writable_of_loop hput (hn ▸ hloop) (Bre.of_get hget).1
    have hkeys := hkeys t' hloop
    obtain ⟨t'', hloop', hrewritten⟩ := hrun hnil hwritable hall hkeys
    obtain rfl := Except.ok.inj (hloop.symm.trans hloop')
    exact .inr ⟨hwritable, hall, hkeys, (hsupplies hrewritten hall).mp hbound⟩
  · rintro (h | ⟨hwritable, hall, hkeys, hsupply⟩)
    · exact absurd h hnil
    obtain ⟨t', hloop, hrewritten⟩ := hrun hnil hwritable hall hkeys
    refine ⟨fun _ => ⟨{ x.ccb with bre := t' }, ?_, (hsupplies hrewritten hall).mpr hsupply⟩,
      fun hnot => absurd hall hnot⟩
    rw [x.dataGroups_eq, hloop]
    rfl

/-! ## The two bytecodes -/

section Bytecodes

variable {c : Cut} {k : ℕ} {t : ExtractTuple}

theorem length_rspCuts (rsp : FragmentArray) : (x.rspCuts rsp).length = x.tuples.length :=
  List.length_mapIdx

theorem length_cuts : x.cuts.length = x.tuples.length :=
  List.length_mapIdx

/-- Each tuple writes under the empty name. -/
theorem rspRound_put {rsp : Ptr FmBytesArray} {bre bre' : Bre}
    (h : dataExtractRspRound x.u rsp x.arg k bre = .ok bre') :
    ∃ v, zcHashtablePut bre ⟨[], none⟩ v = .ok bre' := by
  obtain ⟨frm, -, h⟩ := bind_eq_ok.mp h
  obtain ⟨start, -, h⟩ := bind_eq_ok.mp h
  obtain ⟨stop, -, h⟩ := bind_eq_ok.mp h
  obtain ⟨name, -, h⟩ := bind_eq_ok.mp h
  obtain ⟨text, htext, h⟩ := bind_eq_ok.mp h
  obtain ⟨fba, -, h⟩ := bind_eq_ok.mp h
  obtain ⟨raw, -, h⟩ := bind_eq_ok.mp h
  obtain ⟨data, -, h⟩ := bind_eq_ok.mp h
  exact ⟨data, freshText_eq_ok htext ▸ h⟩

theorem round_put {bre bre' : Bre} (h : dataExtractRound x.u x.arg k bre = .ok bre') :
    ∃ v, zcHashtablePut bre ⟨[], none⟩ v = .ok bre' := by
  obtain ⟨source, -, h⟩ := bind_eq_ok.mp h
  obtain ⟨src, -, h⟩ := bind_eq_ok.mp h
  obtain ⟨raw, -, h⟩ := bind_eq_ok.mp h
  obtain ⟨start, -, h⟩ := bind_eq_ok.mp h
  obtain ⟨stop, -, h⟩ := bind_eq_ok.mp h
  obtain ⟨name, -, h⟩ := bind_eq_ok.mp h
  obtain ⟨text, htext, h⟩ := bind_eq_ok.mp h
  obtain ⟨data, -, h⟩ := bind_eq_ok.mp h
  exact ⟨data, freshText_eq_ok htext ▸ h⟩

/-- Tuples in range of a response write the bytes they ask for. -/
theorem rsp_run (rsp : FragmentArray) (hne : x.rspCuts rsp ≠ []) (hwritable : x.Writable)
    (hall : ∀ c ∈ x.rspCuts rsp, c.InRange) :
    ∃ t', loopFrom (dataExtractRspRound x.u (.obj rsp.toFmBytesArray) x.arg) x.tuples.length 0
        x.ccb.bre = .ok t' ∧
      x.Rewritten ((x.rspCuts rsp).getLast?.map Cut.bytes) t' := by
  obtain ⟨cuts, hcuts⟩ : ∃ cuts, cuts = x.rspCuts rsp := ⟨_, rfl⟩
  rw [← hcuts] at hne hall ⊢
  have hlen : cuts.length = x.tuples.length := hcuts ▸ length_rspCuts rsp
  have hpos : cuts.length ≠ 0 := fun h => hne (List.length_eq_zero_iff.mp h)
  have hrun := loopFrom_run (dataExtractRspRound x.u (.obj rsp.toFmBytesArray) x.arg)
    (P := fun k => x.Rewritten (if k = 0 then x.ccb.bre.content [] else
      cuts[k - 1]?.map Cut.bytes))
    (m := x.tuples.length)
    (fun k hk bre h => ?_) (Nat.zero_add _) (x.rewritten_start hwritable)
  · rwa [if_neg (by omega), ← hlen, ← List.getLast?_eq_getElem?, hlen] at hrun
  · have htuple : x.tuples[k]? = some x.tuples[k] := List.getElem?_eq_getElem hk
    obtain ⟨c, hc⟩ : ∃ c, cuts[k]? = some c := ⟨_, List.getElem?_eq_getElem (hlen ▸ hk)⟩
    have hrange := hall c (List.mem_of_getElem? hc)
    have htaken := hrange.taken_source
    rw [if_neg (by omega), Nat.add_sub_cancel, hc, Option.map_some]
    rw [hcuts, rspCuts, List.getElem?_mapIdx, htuple, Option.map_some] at hc
    obtain rfl := Option.some.inj hc
    obtain ⟨bs, hsource, hstart, hle, -⟩ := hrange
    obtain ⟨src, hsrc, -⟩ := Option.map_eq_some_iff.mp hsource
    obtain ⟨hat, hvalid⟩ := rsp.at_eq hsrc
    obtain ⟨v, hv, hvalid, haddr, hcontent⟩ := cutValue_eq x.u k (some src)
      (fun _ h => Option.some.inj h ▸ hvalid) hstart hle
    obtain ⟨t', hput, h'⟩ := h.put hvalid haddr
    refine ⟨t', ?_, ?_⟩
    · rw [rspRound_eq rsp htuple, hat, ok_bind, hv, ok_bind, hput]
    · rw [hcontent, ← hsrc, htaken] at h'
      exact h'

/-- Tuples in range of the environment write what they cut under their keys. -/
theorem run (hwritable : x.Writable) (hall : ∀ c ∈ x.cuts, c.InRange)
    (hkeys : ∀ t ∈ x.tuples, structText (some t.source.toFmBytes) = .ok t.key) :
    ∃ t', loopFrom (dataExtractRound x.u x.arg) x.tuples.length 0 x.ccb.bre = .ok t' ∧
      x.Rewritten (x.underEmpty x.tuples.length) t' := by
  refine loopFrom_run _ (P := fun k => x.Rewritten (x.underEmpty k)) (fun k hk bre h => ?_)
    (Nat.zero_add _) (x.rewritten_start hwritable)
  obtain ⟨t, ht⟩ : ∃ t, x.tuples[k]? = some t := ⟨_, List.getElem?_eq_getElem hk⟩
  obtain ⟨c, hc⟩ : ∃ c, x.cuts[k]? = some c := ⟨_, List.getElem?_eq_getElem (length_cuts ▸ hk)⟩
  obtain ⟨-, -, hstart, hle, -⟩ := hall c (List.mem_of_getElem? hc)
  obtain ⟨v, hv, hvalid, haddr, hcontent⟩ := cutValue_eq x.u k (bre.lookup t.key)
    (h.values t.key) hstart hle
  obtain ⟨t', hput, h'⟩ := h.put hvalid haddr
  have hunder : x.underEmpty (k + 1) = some v.content := by
    have hbound := h.content_eq t.key
    rw [Bre.content] at hbound
    rw [underEmpty, ht, hc, hcontent, hbound]
  rw [cuts, List.getElem?_mapIdx, ht, Option.map_some] at hc
  obtain rfl := Option.some.inj hc
  refine ⟨t', ?_, hunder ▸ h'⟩
  rw [round_eq ht, hkeys t (List.mem_of_getElem? ht), ok_bind, Bre.get_eq h.sound, ok_bind, hv,
    ok_bind, hput]

/-- A loop that returns has read every key. -/
theorem keys_of_loop {t' : Bre}
    (h : loopFrom (dataExtractRound x.u x.arg) x.tuples.length 0 x.ccb.bre = .ok t') :
    ∀ t ∈ x.tuples, structText (some t.source.toFmBytes) = .ok t.key := by
  intro t ht
  obtain ⟨k, hk⟩ := List.mem_iff_getElem?.mp ht
  obtain ⟨a, b, hround⟩ :=
    exists_round_of_loopFrom h (j := k) (List.getElem?_eq_some_iff.mp hk).1
  rw [Nat.zero_add, round_eq hk] at hround
  obtain ⟨key, hkey, -⟩ := bind_eq_ok.mp hround
  rw [ExtractTuple.key, hkey]

end Bytecodes

end Extraction

/-- **Which extractions are exact**: those without a tuple, and those with all
tuples in range that write to a table they can write to, and after which each
name is bound to its bytes because it was so before, or because it is empty and
these are the bytes of the last tuple (`data_extract_rsp`) or what was cut under
its key (`data_extract`). -/
theorem extractsExactly_iff (x : Extraction) (rsp : FragmentArray) :
    (ExtractsExactly (dataExtractRsp x.u x.ccb (.obj rsp.toFmBytesArray) x.arg) x.ccb
        (x.rspCuts rsp) ↔
      x.rspCuts rsp = [] ∨ x.Writable ∧ (∀ c ∈ x.rspCuts rsp, c.InRange) ∧
        x.Supplies ((x.rspCuts rsp).getLast?.map Cut.bytes) (x.rspCuts rsp)) ∧
    (ExtractsExactly (dataExtract x.u x.ccb (.obj rsp.toFmBytesArray) x.arg) x.ccb x.cuts ↔
      x.cuts = [] ∨ x.Writable ∧ (∀ c ∈ x.cuts, c.InRange) ∧
        (∀ t ∈ x.tuples, structText (some t.source.toFmBytes) = .ok t.key) ∧
        x.Supplies (x.underEmpty x.tuples.length) x.cuts) := by
  constructor
  · have h := Extraction.extractsExactly_of_run (x := x) True
      (Extraction.length_rspCuts rsp) (fun _ _ _ => Extraction.rspRound_put)
      (fun _ _ => trivial) fun hne hwritable hall _ => Extraction.rsp_run rsp hne hwritable hall
    rw [true_and] at h
    exact h
  · exact Extraction.extractsExactly_of_run _ Extraction.length_cuts
      (fun _ _ _ => Extraction.round_put) (fun _ => Extraction.keys_of_loop)
      fun _ hwritable hall hkeys => Extraction.run hwritable hall hkeys

/-- A response of one byte. -/
def oneByteResponse : FragmentArray where
  addr := 1
  size := 5
  cnt := 1
  array := [some (ByteString.of [0x2A]).toFmBytes]
  valid := by
    intro p hp
    obtain rfl : p = (ByteString.of [0x2A]).toFmBytes := by simpa using hp
    exact (ByteString.of [0x2A]).valid

/-- A tuple that asks for the bytes from 0 to `stop` of fragment 0, under `n`. -/
def extractTo (stop : UInt8) : ExtractTuple :=
  { source := .of [0, 0, 0, 0], start := .of [0, 0, 0, 0], stop := .of [0, 0, 0, stop],
    name := .of [0x6E] }

/-- The call with that tuple. -/
def extraction (stop : UInt8) : Extraction where
  ccb := plainCcb 7 2
  u := plainUnspec
  arg := { addr := 1, size := 4, cnt := 4,
           array := (extractTo stop).operands.map fun p => some p.toFmBytes }
  tuples := [extractTo stop]
  spare := 0
  operands := ⟨rfl, rfl, rfl⟩
  values := nofun
  fresh := nofun

/-- Six bytes are asked for of one, and the call returns zero. -/
theorem extraction_fail : ¬ ∀ stop, ExtractsExactly
    (dataExtractRsp (extraction stop).u (extraction stop).ccb
      (.obj oneByteResponse.toFmBytesArray) (extraction stop).arg)
    (extraction stop).ccb ((extraction stop).rspCuts oneByteResponse) := by
  intro h
  have hcut : ¬ ∀ c ∈ (extraction 5).rspCuts oneByteResponse, c.InRange := by
    intro hall
    obtain ⟨bs, hsource, -, -, hlt⟩ := hall _ (List.mem_singleton_self _)
    obtain rfl : [0x2A] = bs := Option.some.inj hsource
    exact absurd hlt (by decide)
  obtain ⟨err, herr, hcall⟩ := (h 5).2 hcut
  exact herr ((extraction 5).ret_eq_zero hcall)

end TsmVm
