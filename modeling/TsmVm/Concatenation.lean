import TsmVm.OperandArrays
import TsmVm.Overwriting

/-!
# Concatenation (`data_concat`)

The bytes of the parts are copied behind each other as they should. What they are
bound to is not the last operand but the text of the value that is bound to it,
and the key that is stored lies in the buffer of that value.
-/

namespace TsmVm

/-- A session and the operands of a concatenation. -/
structure Concatenation where
  /-- The session. -/
  ccb : Ccb
  /-- What C leaves open for the call. -/
  u : Unspec
  /-- The array. -/
  arg : FmBytesArray
  /-- The parts. -/
  parts : List ByteString
  /-- The destination. -/
  name : ByteString
  /-- The number of spare slots. -/
  spare : ℕ
  /-- The array holds them. -/
  operands : arg.Operands (parts ++ [name]) spare
  /-- There is a part. -/
  parts_ne : parts ≠ []
  /-- The parts are bound. -/
  bound : ∀ p ∈ parts, ∃ v, ccb.bre.lookup p.content = some v
  /-- The values that are bound are byte strings. -/
  values : ∀ x v, ccb.bre.lookup x = some v → v.Valid

/-- The bytes bound to names, behind each other. -/
def Bre.concat (t : Bre) (names : List (List UInt8)) : List UInt8 :=
  names.flatMap fun x => (t.content x).getD []

namespace Concatenation

/-- The bytes the call is to bind. -/
def bytes (x : Concatenation) : List UInt8 := x.ccb.bre.concat (x.parts.map fun p => p.content)

/-- The bytes it binds: those under the names in the buffers of the parts. -/
def taken (x : Concatenation) : List UInt8 := x.ccb.bre.concat (x.parts.map ByteString.bufKey)

/-- The call binds the concatenation to the destination, and changes no other
binding. -/
def IsConcatenated (x : Concatenation) (rsp : Ptr FmBytesArray) : Prop :=
  ∃ ret ccb', dataConcat x.u x.ccb rsp x.arg = .ok (ret, ccb') ∧
    (∃ v, zcHashtableGet ccb'.bre x.name.content = .ok (some v) ∧ v.content = x.bytes ∧
      v.leng = (x.bytes.length : ℕ)) ∧
    ∀ y ≠ x.name.content, ∃ w, zcHashtableGet ccb'.bre y = .ok w ∧
      w.map FmBytes.content = x.ccb.bre.content y

/-- Under the names in the buffers of the parts there are values. -/
def FindsParts (x : Concatenation) : Prop :=
  ∀ p ∈ x.parts, p.Terminated ∧ ∃ v, x.ccb.bre.lookup p.bufKey = some v

/-- Under the name in the buffer of the destination there is a value, and its
buffer spells `key`. -/
def Spells (x : Concatenation) (value : FmBytes) (key : List UInt8) : Prop :=
  x.name.Terminated ∧ x.ccb.bre.lookup x.name.bufKey = some value ∧ cString value.buf = .ok key

/-- To bind a key is what the call is to do: the key is the destination, or both
of them are bound to the bytes already. -/
def Supplies (x : Concatenation) (key : List UInt8) : Prop :=
  if key = x.name.content then x.taken = x.bytes
  else x.ccb.bre.content x.name.content = some x.bytes ∧ x.ccb.bre.content key = some x.taken

end Concatenation

/-! ## The two passes -/

section Passes

variable {bre : Bre} {arg : FmBytesArray} {operands : List ByteString} {spare : ℕ}

theorem Bre.concat_cons (t : Bre) (x : List UInt8) (names : List (List UInt8)) :
    t.concat (x :: names) = (t.content x).getD [] ++ t.concat names :=
  List.flatMap_cons

/-- The first pass finds a value for each part. -/
theorem found_of_dataConcatLen {ps rest : List ByteString} {i : ℕ} {len r : ℤ}
    (harg : arg.Operands operands spare) (hps : operands.drop i = ps ++ rest)
    (h : dataConcatLen bre arg ps.length i len = .ok r) :
    ∀ p ∈ ps, p.Terminated ∧ ∃ v, bre.lookup p.bufKey = some v := by
  induction ps generalizing i len with
  | nil => simp
  | cons p ps ih =>
    obtain ⟨hp, hrest⟩ := next_of_drop hps
    rw [List.length_cons, dataConcatLen, harg.at_eq hp, ok_bind] at h
    obtain ⟨text, htext, h⟩ := bind_eq_ok.mp h
    obtain ⟨hterm, rfl⟩ := ByteString.bufText_eq_ok htext
    obtain ⟨sub, hsub, h⟩ := bind_eq_ok.mp h
    obtain ⟨-, rfl⟩ := Bre.of_get hsub
    obtain ⟨leng, hleng, h⟩ := bind_eq_ok.mp h
    obtain ⟨v, hv, -⟩ := bind_eq_ok.mp hleng
    exact List.forall_mem_cons.mpr ⟨⟨hterm, v, derefOption_eq_ok.mp hv⟩, ih hrest h⟩

/-- It adds up their lengths. -/
theorem dataConcatLen_eq {ps rest : List ByteString} {i : ℕ} {len : ℤ}
    (hsound : bre.sound = true) (hvalues : ∀ x v, bre.lookup x = some v → v.Valid)
    (harg : arg.Operands operands spare) (hps : operands.drop i = ps ++ rest)
    (hfound : ∀ p ∈ ps, p.Terminated ∧ ∃ v, bre.lookup p.bufKey = some v) :
    dataConcatLen bre arg ps.length i len =
      .ok (len + (bre.concat (ps.map ByteString.bufKey)).length) := by
  induction ps generalizing i len with
  | nil => rw [List.length_nil, dataConcatLen, List.map_nil]; simp [Bre.concat]
  | cons p ps ih =>
    obtain ⟨hp, hrest⟩ := next_of_drop hps
    obtain ⟨⟨hterm, v, hv⟩, hfound⟩ := List.forall_mem_cons.mp hfound
    have hlen := (hvalues _ _ hv).length_content
    have hcontent : bre.content p.bufKey = some v.content := by rw [Bre.content, hv]; rfl
    rw [List.length_cons, dataConcatLen, harg.at_eq hp, ok_bind, hterm, ok_bind, Bre.get_eq hsound,
      ok_bind, hv, fmBytesGetLength, derefOption_some, ok_bind, pure_eq_ok, ok_bind,
      ih hrest hfound, List.map_cons, Bre.concat_cons, hcontent, Option.getD_some,
      List.length_append]
    congr 1
    push_cast
    omega

/-- The second pass copies their bytes behind each other. -/
theorem dataConcatCopy_eq {ps rest : List ByteString} {i size addr : ℕ}
    {behind : List UInt8} (done : List UInt8) (haddr : addr ≠ 0) (hsound : bre.sound = true)
    (hvalues : ∀ x v, bre.lookup x = some v → v.Valid) (harg : arg.Operands operands spare)
    (hps : operands.drop i = ps ++ rest)
    (hfound : ∀ p ∈ ps, p.Terminated ∧ ∃ v, bre.lookup p.bufKey = some v)
    (hsize : (done ++ bre.concat (ps.map ByteString.bufKey)).length ≤ size) :
    dataConcatCopy bre arg ps.length i done.length (some (filledBytes addr behind size done)) =
      .ok (some (filledBytes addr behind size
        (done ++ bre.concat (ps.map ByteString.bufKey)))) := by
  induction ps generalizing i done with
  | nil => rw [List.length_nil, dataConcatCopy, List.map_nil]; simp [Bre.concat]
  | cons p ps ih =>
    obtain ⟨hp, hrest⟩ := next_of_drop hps
    obtain ⟨⟨hterm, v, hv⟩, hfound⟩ := List.forall_mem_cons.mp hfound
    have hvalid := hvalues _ _ hv
    have hlen := hvalid.length_content
    have hcontent : bre.content p.bufKey = some v.content := by rw [Bre.content, hv]; rfl
    rw [List.map_cons, Bre.concat_cons, hcontent, Option.getD_some, ← List.append_assoc]
      at hsize ⊢
    have hcopy := fmBytesCopy_filledBytes behind haddr hvalid done size 0 v.content.length
      (by omega) (by
        rw [List.length_append, List.length_append] at hsize
        omega)
    rw [List.drop_zero, List.take_length, Nat.cast_zero, hlen] at hcopy
    have hlength : (done.length : ℤ) + v.leng = ((done ++ v.content).length : ℕ) := by
      rw [List.length_append]
      push_cast
      omega
    rw [List.length_cons, dataConcatCopy, harg.at_eq hp, ok_bind, hterm, ok_bind, Bre.get_eq hsound,
      ok_bind, hv, fmBytesGetLength, derefOption_some, ok_bind, pure_eq_ok, ok_bind, hcopy, ok_bind]
    dsimp only
    rw [hlength]
    exact ih _ hrest hfound hsize

end Passes

/-! ## The call -/

namespace Concatenation

variable {x : Concatenation}

/-- The value the call makes. -/
def result (x : Concatenation) : FmBytes :=
  filledBytes (x.u.addr 0) (x.u.behind 0) x.taken.length x.taken

theorem result_valid (x : Concatenation) : x.result.Valid := filledBytes_valid (x.u.addr_ne_zero 0)

/-- **What the call does.** -/
theorem dataConcat_eq_ok_iff {rsp : Ptr FmBytesArray} {ret : ℤ} {ccb' : Ccb} :
    dataConcat x.u x.ccb rsp x.arg = .ok (ret, ccb') ↔
      x.FindsParts ∧ ∃ value key, x.Spells value key ∧ ∃ t',
        zcHashtablePut x.ccb.bre ⟨key, some value.addr⟩ (some x.result) = .ok t' ∧
          ret = 0 ∧ ccb' = { x.ccb with bre := t' } := by
  have hparts : (x.arg.cnt - 1).toNat = x.parts.length := by
    rw [x.operands.cnt_eq, List.length_append, List.length_singleton]
    omega
  have hat : x.arg.at x.parts.length = .ok (some x.name.toFmBytes) := by
    refine x.operands.at_eq ?_
    rw [List.getElem?_append_right le_rfl, Nat.sub_self]
    rfl
  have hdrop : (x.parts ++ [x.name]).drop 0 = x.parts ++ [x.name] := List.drop_zero
  have hcopied (hsound : x.ccb.bre.sound = true) (hfound : x.FindsParts) :
      dataConcatLen x.ccb.bre x.arg x.parts.length 0 0 = .ok x.taken.length ∧
        dataConcatCopy x.ccb.bre x.arg x.parts.length 0 0
          (fmBytesAlloc (x.u.addr 0) (x.u.behind 0) x.taken.length) = .ok (some x.result) := by
    constructor
    · rw [dataConcatLen_eq hsound x.values x.operands hdrop hfound, Int.zero_add]
      rfl
    · rw [fmBytesAlloc_filledBytes]
      exact dataConcatCopy_eq [] (x.u.addr_ne_zero 0) hsound x.values x.operands hdrop
        hfound le_rfl
  rw [dataConcat, hparts]
  constructor
  · intro h
    obtain ⟨len, hlen, h⟩ := bind_eq_ok.mp h
    have hfound : x.FindsParts := found_of_dataConcatLen x.operands hdrop hlen
    rw [hat, ok_bind] at h
    obtain ⟨text, htext, h⟩ := bind_eq_ok.mp h
    obtain ⟨hterm, rfl⟩ := ByteString.bufText_eq_ok htext
    obtain ⟨name, hname, h⟩ := bind_eq_ok.mp h
    obtain ⟨hsound, hname⟩ := Bre.of_get hname
    obtain ⟨hlen', hcopy⟩ := hcopied hsound hfound
    obtain rfl := Except.ok.inj (hlen.symm.trans hlen')
    rw [hcopy, ok_bind] at h
    obtain ⟨value, hvalue, h⟩ := bind_eq_ok.mp h
    have hname := hname.trans (derefOption_eq_ok.mp hvalue)
    obtain ⟨key, hkey, h⟩ := bind_eq_ok.mp h
    obtain ⟨t', hput, h⟩ := bind_eq_ok.mp h
    obtain ⟨rfl, rfl⟩ := Prod.mk.inj (Except.ok.inj h)
    exact ⟨hfound, value, key, ⟨hterm, hname, hkey⟩, t', hput, rfl, rfl⟩
  · rintro ⟨hfound, value, key, ⟨hterm, hname, hkey⟩, t', hput, rfl, rfl⟩
    have hsound := (Bre.of_put hput).1
    obtain ⟨hlen, hcopy⟩ := hcopied hsound hfound
    rw [hlen, ok_bind, hat, ok_bind, hterm, ok_bind, Bre.get_eq hsound, ok_bind, hcopy, ok_bind,
      hname, derefOption_some, ok_bind, hkey, ok_bind, hput]
    rfl

/-- What the bindings are to be after a key has been bound to the bytes. -/
theorem supplies_iff {key : List UInt8} :
    ((if x.name.content = key then some x.taken else x.ccb.bre.content x.name.content) =
        some x.bytes ∧
      ∀ y ≠ x.name.content, (if y = key then some x.taken else x.ccb.bre.content y) =
        x.ccb.bre.content y) ↔ x.Supplies key := by
  unfold Supplies
  by_cases hkey : key = x.name.content
  · rw [if_pos hkey, if_pos hkey.symm, Option.some.injEq]
    refine and_iff_left fun y hy => ?_
    rw [if_neg (hkey ▸ hy)]
  · rw [if_neg hkey, if_neg (Ne.symm hkey)]
    refine and_congr_right fun _ => ⟨fun h => ?_, fun h y _ => ?_⟩
    · rw [← h key hkey, if_pos rfl]
    · split
      · rw [‹y = key›, h]
      · rfl

/-- The bindings after the call. -/
theorem content_put {value : FmBytes} {key : List UInt8} {t' : Bre}
    (h : x.ccb.bre.Written ⟨key, some value.addr⟩ (some x.result) t') (y : List UInt8) :
    t'.content y = if y = key then some x.taken else x.ccb.bre.content y := by
  rw [h.content_eq, Option.map_some, result, content_filledBytes]

/-- What holds where the bytes are concatenated. -/
theorem of_isConcatenated {rsp : Ptr FmBytesArray} (h : x.IsConcatenated rsp) :
    x.FindsParts ∧ ∃ value key, x.Spells value key ∧ x.ccb.bre.sound = true ∧
      x.ccb.bre.CanPut ⟨key, some value.addr⟩ ∧ x.Supplies key := by
  obtain ⟨ret, ccb', hcall, hbound, hothers⟩ := h
  obtain ⟨hfound, value, key, hspells, t', hput, rfl, rfl⟩ := dataConcat_eq_ok_iff.mp hcall
  obtain ⟨hsound, hwritten⟩ := Bre.of_put hput
  have hvalues := hwritten.values (fun v hv => Option.some.inj hv ▸ x.result_valid) x.values
  have hsound' : t'.sound = true := by
    obtain ⟨v, hv, -⟩ := hbound
    exact (Bre.of_get hv).1
  rw [Bre.bound_iff hsound' hvalues rfl, content_put hwritten] at hbound
  refine ⟨hfound, value, key, hspells, hsound, hwritten.sound_iff.mp hsound',
    supplies_iff.mp ⟨hbound, fun y hy => ?_⟩⟩
  obtain ⟨w, hw, hcontent⟩ := hothers y hy
  rw [← content_put hwritten, ← hcontent, ← (Bre.of_get hw).2]
  rfl

/-- **What is concatenated**: the bytes are bound to the destination where the
buffer of the value bound to it spells a key that can be written to and that is
the destination, or where there is nothing left to bind. -/
theorem isConcatenated_iff (x : Concatenation) (rsp : Ptr FmBytesArray) :
    x.IsConcatenated rsp ↔ x.FindsParts ∧ ∃ value key, x.Spells value key ∧
      x.ccb.bre.sound = true ∧ x.ccb.bre.CanPut ⟨key, some value.addr⟩ ∧ x.Supplies key := by
  refine ⟨of_isConcatenated, ?_⟩
  rintro ⟨hfound, value, key, hspells, hsound, hcan, hsupplies⟩
  obtain ⟨t', hput, hwritten⟩ := Bre.put hsound ⟨key, some value.addr⟩ (some x.result)
  have hvalues := hwritten.values (fun v hv => Option.some.inj hv ▸ x.result_valid) x.values
  have hsound' := hwritten.sound_iff.mpr hcan
  obtain ⟨hbound, hothers⟩ := supplies_iff.mpr hsupplies
  refine ⟨0, { x.ccb with bre := t' },
    dataConcat_eq_ok_iff.mpr ⟨hfound, value, key, hspells, t', hput, rfl, rfl⟩,
    (Bre.bound_iff hsound' hvalues rfl).mpr ((content_put hwritten _).trans hbound),
    fun y hy => ⟨t'.lookup y, Bre.get_eq hsound' y, (content_put hwritten y).trans (hothers y hy)⟩⟩

/-- Where the buffer of the destination spells its name, nothing is bound that was
not bound before. -/
theorem content_eq_bytes {rsp : Ptr FmBytesArray} (h : x.IsConcatenated rsp)
    (hname : x.name.bufKey = x.name.content) :
    x.ccb.bre.content x.name.content = some x.bytes := by
  obtain ⟨-, value, key, ⟨-, hlookup, -⟩, -, hcan, hsupplies⟩ := of_isConcatenated h
  rw [hname] at hlookup
  have hne : key ≠ x.name.content := by
    -- otherwise the key would lie in the very value that is freed
    rintro rfl
    exact (hcan value hlookup).1 rfl
  rw [Supplies, if_neg hne] at hsupplies
  exact hsupplies.1

end Concatenation

/-- `data_concat,a,n`, where `a` is bound to one byte and `n` to a value, if any. -/
def concatInto (old : Option ByteString) : Concatenation where
  ccb := { plainCcb 7 2 with
           bre := ⟨⟨[0x61], none⟩, some (ByteString.of [0x2A]).toFmBytes, false⟩ ::
             (old.map fun v => ⟨⟨[0x6E], none⟩, some v.toFmBytes, false⟩).toList }
  u := plainUnspec
  arg := { addr := 1, size := 2, cnt := 2,
           array := [some (letter 0x61).toFmBytes, some (letter 0x6E).toFmBytes] }
  parts := [letter 0x61]
  name := letter 0x6E
  spare := 0
  operands := ⟨rfl, rfl, rfl⟩
  parts_ne := List.cons_ne_nil _ _
  bound := by
    intro p hp
    obtain rfl := List.mem_singleton.mp hp
    exact ⟨_, rfl⟩
  values := by
    refine Bre.values_of_entries fun e he v hv => ?_
    rcases List.mem_cons.mp he with rfl | he
    · exact Option.some.inj hv ▸ (ByteString.of [0x2A]).valid
    · obtain ⟨w, -, rfl⟩ := Option.map_eq_some_iff.mp (Option.mem_toList.mp he)
      exact Option.some.inj hv ▸ w.valid

/-- A destination that is not bound is `NULL`, and one that is bound to `x` is still
bound to `x` then. -/
theorem concatInto_fail : ¬ (concatInto none).IsConcatenated .null ∧
    ¬ (concatInto (some (letter 0x78))).IsConcatenated .null := by
  constructor
  · intro h
    obtain ⟨-, value, key, ⟨-, hlookup, -⟩, -⟩ := Concatenation.of_isConcatenated h
    cases hlookup
  · intro h
    have hbytes := Concatenation.content_eq_bytes h rfl
    cases hbytes

end TsmVm
