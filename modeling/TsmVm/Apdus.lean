import TsmVm.Concurrent

/-!
# Building commands

Every command goes through `_gp_make_apdu`, which keeps the length and the
address of its data in one byte each. A command without data is appended. Data
of a length that is not a multiple of 256 are never copied: where the low byte
of their address is zero they are refused, and elsewhere the copy is from an
address that nobody owns. The install builders always have data.
-/

namespace TsmVm

/-- A buffer with room for `n` bytes behind its payload. -/
structure OutBuffer (n : ℕ) extends Skb where
  /-- What is in front of the payload. -/
  head : List UInt8
  /-- The payload. -/
  body : List UInt8
  /-- What is behind it. -/
  room : List UInt8
  /-- The buffer is the three of them. -/
  layout : toSkb.Layout head body room
  /-- There is room enough. -/
  room_le : n ≤ room.length

/-- The buffer with bytes appended to its payload. -/
def OutBuffer.append {n : ℕ} (out : OutBuffer n) (bytes : List UInt8) : Skb :=
  { out.toSkb with
    buff := out.head ++ (out.body ++ bytes) ++ out.room.drop bytes.length,
    tail := out.tail + bytes.length, len := out.len + bytes.length }

/-- A byte string in a block of its own at an address. -/
def placedAt (addr : ℕ) (bytes : List UInt8) : FmBytes :=
  { size := bytes.length, leng := bytes.length, addr := addr, buf := bytes }

/-- The data of a command, of which `NULL` has none. -/
def dataBytes (data : Option (List UInt8)) : List UInt8 := data.getD []

/-- The command is appended as a whole, or refused without a change, and which of
the two it is does not depend on where the data lie. -/
def AllOrNothing (cla ins p1 p2 : UInt8) (data : Option (List UInt8))
    (out : OutBuffer (5 + (dataBytes data).length)) : Prop :=
  ∃ (ret : ℤ) (out' : Skb),
    (∀ addr, addr ≠ 0 →
      _gpMakeApdu cla ins p1 p2 (data.map (placedAt addr)) out.toSkb = .ok (ret, out')) ∧
    (ret = fmOk ∧ (dataBytes data).length ≤ 255 ∧
        out' = out.append ([cla, ins, p1, p2, u8 (dataBytes data).length] ++ dataBytes data) ∨
      ret ≠ fmOk ∧ out' = out.toSkb)

section Make

variable {cla ins p1 p2 : UInt8}

/-- Bytes that are put one by one. -/
theorem Skb.Layout.putEach {s : Skb} {head body room : List UInt8} {old bs : List UInt8}
    (h : s.Layout head body (old ++ room)) (hlen : old.length = bs.length) :
    bs.foldlM (fun s b => skbPutBytes s [b]) s =
      .ok { s with buff := head ++ (body ++ bs) ++ room, tail := s.tail + bs.length,
                   len := s.len + bs.length } := by
  induction bs generalizing s body old with
  | nil =>
    obtain rfl : old = [] := List.length_eq_zero_iff.mp hlen
    have hbuff := h.buff_eq
    rw [List.nil_append] at hbuff
    simp [← hbuff]
  | cons b bs ih =>
    cases old with
    | nil => cases hlen
    | cons a old =>
      have hne : s.buff ≠ [] := by
        rw [h.buff_eq]
        simp
      have hfirst : s.Layout head body ([a] ++ (old ++ room)) := h
      have hone : [a].length = [b].length := rfl
      obtain ⟨t, hput, hlayout, rfl⟩ := hfirst.put hone hne
      have hrest := ih hlayout (by simpa using hlen)
      rw [List.foldlM_cons, hput, ok_bind, hrest]
      simp only [List.length_cons, List.length_nil, List.append_assoc, List.singleton_append,
        Nat.add_assoc, Nat.add_comm 1]

/-- The five bytes of the header. -/
theorem OutBuffer.put_header {n : ℕ} (out : OutBuffer (5 + n)) (a b c d e : UInt8)
    {α : Type} (k : Skb → Res α) :
    (do
      let out ← skbPutBytes out.toSkb [a]
      let out ← skbPutBytes out [b]
      let out ← skbPutBytes out [c]
      let out ← skbPutBytes out [d]
      let out ← skbPutBytes out [e]
      k out) = k (out.append [a, b, c, d, e]) := by
  have hroom := out.room_le
  have hlayout := out.layout
  rw [← List.take_append_drop 5 out.room] at hlayout
  have hlen : (out.room.take 5).length = [a, b, c, d, e].length := by
    rw [List.length_take]
    simp only [List.length_cons, List.length_nil]
    omega
  have hfold := hlayout.putEach hlen
  simp only [List.foldlM_cons, List.foldlM_nil, bind_pure] at hfold
  have happend := congrArg (· >>= k) hfold
  simp only [bind_assoc] at happend
  exact happend

theorem OutBuffer.buff_ne {n : ℕ} (out : OutBuffer (5 + n)) : out.buff.length ≠ 0 := by
  have hroom := out.room_le
  rw [out.layout.buff_eq, List.length_append]
  omega

/-- A command without data is its header. -/
theorem _gpMakeApdu_empty {n : ℕ} (out : OutBuffer (5 + n)) {data : Option FmBytes}
    (hdata : ∀ d, data = some d → u8 d.leng = 0) :
    _gpMakeApdu cla ins p1 p2 data out.toSkb = .ok (fmOk, out.append [cla, ins, p1, p2, 0]) := by
  unfold _gpMakeApdu
  rw [if_neg out.buff_ne]
  cases data with
  | none =>
    dsimp only
    rw [if_neg (by simp), out.put_header]
    rfl
  | some d =>
    dsimp only
    rw [hdata d rfl, if_neg (by simp), out.put_header]
    rfl

/-- A command whose length byte is not zero is refused where the low byte of the
address is zero. -/
theorem _gpMakeApdu_data {n : ℕ} (out : OutBuffer (5 + n)) {d : FmBytes} (hlen : u8 d.leng ≠ 0) :
    _gpMakeApdu cla ins p1 p2 (some d) out.toSkb =
      if u8 d.addr = 0 then .ok (fmGenErrInvalidLen, out.toSkb)
      else skbPut (out.append [cla, ins, p1, p2, u8 d.leng]) (u8 d.leng).toNat >>=
        fun _ => .error .wildAccess := by
  unfold _gpMakeApdu
  rw [if_neg out.buff_ne]
  dsimp only [fmBytesGetBuf]
  by_cases haddr : u8 d.addr = 0
  · rw [if_pos ⟨hlen, haddr⟩, if_pos haddr]
  · rw [if_neg (fun h => haddr h.2), if_neg haddr, out.put_header, if_pos hlen]

/-- Elsewhere it is never finished. -/
theorem _gpMakeApdu_refused {n : ℕ} (out : OutBuffer (5 + n)) {d : FmBytes} (hlen : u8 d.leng ≠ 0)
    {r : ℤ × Skb} (h : _gpMakeApdu cla ins p1 p2 (some d) out.toSkb = .ok r) :
    u8 d.addr = 0 ∧ r = (fmGenErrInvalidLen, out.toSkb) := by
  rw [_gpMakeApdu_data out hlen] at h
  split at h
  · exact ⟨‹_›, (Except.ok.inj h).symm⟩
  · obtain ⟨_, -, h⟩ := bind_eq_ok.mp h
    cases h

end Make

/-- Data are never appended as a whole. -/
theorem dataBytes_of_allOrNothing {cla ins p1 p2 : UInt8} {data : Option (List UInt8)}
    {out : OutBuffer (5 + (dataBytes data).length)} (h : AllOrNothing cla ins p1 p2 data out) :
    dataBytes data = [] := by
  obtain ⟨ret, out', hrun, hresult⟩ := h
  cases data with
  | none => rfl
  | some bytes =>
    by_contra hne
    have hpos : 0 < bytes.length := List.length_pos_iff.mpr hne
    have hrun₁ : _gpMakeApdu cla ins p1 p2 (some (placedAt 1 bytes)) out.toSkb = .ok (ret, out') :=
      hrun 1 one_ne_zero
    by_cases hlen : u8 bytes.length = 0
    · -- the length is cut to zero, and with it the data
      have hlong : ¬ bytes.length ≤ 255 := by
        have hmod := u8_natCast_eq_zero_iff.mp hlen
        omega
      have hempty : _gpMakeApdu cla ins p1 p2 (some (placedAt 1 bytes)) out.toSkb =
          .ok (fmOk, out.append [cla, ins, p1, p2, 0]) := by
        apply _gpMakeApdu_empty
        rintro d ⟨⟩
        exact hlen
      have hret := congrArg Prod.fst (Except.ok.inj (hempty.symm.trans hrun₁))
      rcases hresult with ⟨-, hle, -⟩ | ⟨hfail, -⟩
      · exact hlong hle
      · exact hfail hret.symm
    · have haddr := (_gpMakeApdu_refused out (d := placedAt 1 bytes) hlen hrun₁).1
      cases u8_natCast_eq_zero_iff.mp haddr

/-- **A command is built or refused as a whole** exactly when it has no data. -/
theorem allOrNothing_iff (cla ins p1 p2 : UInt8) (data : Option (List UInt8))
    (out : OutBuffer (5 + (dataBytes data).length)) :
    AllOrNothing cla ins p1 p2 data out ↔ dataBytes data = [] := by
  refine ⟨dataBytes_of_allOrNothing, fun hempty => ?_⟩
  have hbytes : [cla, ins, p1, p2, 0] =
      [cla, ins, p1, p2, u8 (dataBytes data).length] ++ dataBytes data := by
    rw [hempty]
    rfl
  have hlen : (dataBytes data).length ≤ 255 := by
    rw [hempty]
    exact Nat.zero_le _
  refine ⟨fmOk, out.append [cla, ins, p1, p2, 0], fun addr _ => ?_,
    .inl ⟨rfl, hlen, congrArg out.append hbytes⟩⟩
  refine _gpMakeApdu_empty out fun d hd => ?_
  obtain ⟨bytes, hsome, rfl⟩ := Option.map_eq_some_iff.mp hd
  obtain rfl : bytes = [] := by
    rw [← hempty, hsome]
    rfl
  rfl

/-- A fresh buffer. -/
def freshBuffer (n : ℕ) : OutBuffer n :=
  { allocSkb (newPackage 0 0 []) n with
    head := [], body := [], room := List.replicate n 0,
    layout := Skb.Layout.alloc _ _, room_le := by simp }

/-- A SELECT command for an AID of one byte. -/
theorem allOrNothing_fail : ¬ ∀ (cla ins p1 p2 : UInt8) (data : Option (List UInt8))
    (out : OutBuffer (5 + (dataBytes data).length)), AllOrNothing cla ins p1 p2 data out := by
  intro h
  have hnil := dataBytes_of_allOrNothing (h 0x00 0xA4 0x04 0x00 (some [0xA0]) (freshBuffer _))
  cases hnil

/-! ## The install builders -/

/-- The four builders, with their arguments; an argument may be `NULL`. -/
inductive InstallBuilder
  | installSelectable (pkgAid appAid insAid priv installParm token : Option HeapBytes)
  | personalize (aid : Option HeapBytes)
  | load (pkgAid sdAid hash loadParm loadToken : Option HeapBytes)
  | extradition (destAid appAid parm token : Option HeapBytes)

namespace InstallBuilder

/-- An argument as it is passed. -/
def passed (p : Option HeapBytes) : Option FmBytes := p.map HeapBytes.toFmBytes

/-- The call of a builder. -/
def call (u : Unspec) (out : Skb) : InstallBuilder → Res (ℤ × Skb)
  | installSelectable pkgAid appAid insAid priv installParm token =>
    _gpInstallForInstallSelectable u (passed pkgAid) (passed appAid) (passed insAid) (passed priv)
      (passed installParm) (passed token) out
  | personalize aid => _gpInstallForPersonalize u (passed aid) out
  | load pkgAid sdAid hash loadParm loadToken =>
    _gpInstallForLoad u (passed pkgAid) (passed sdAid) (passed hash) (passed loadParm)
      (passed loadToken) out
  | extradition destAid appAid parm token =>
    _gpInstallForExtradition u (passed destAid) (passed appAid) (passed parm) (passed token) out

/-- The flags of the variant: `INSTALL_FOR_INSTALL | INSTALL_FOR_SELECT`,
`INSTALL_FOR_PERSONIZE`, `INSTALL_FOR_LOAD` and `INSTALL_FOR_EXTRA`. -/
def flags : InstallBuilder → UInt8
  | installSelectable .. => 0x0C
  | personalize .. => 0x20
  | load .. => 0x02
  | extradition .. => 0x10

/-- The fields of the data: arguments, and `none` for a reserved byte. -/
def fields : InstallBuilder → List (Option (Option HeapBytes))
  | installSelectable pkgAid appAid insAid priv installParm token =>
    [some pkgAid, some appAid, some insAid, some priv, some installParm, some token]
  | personalize aid => [none, none, some aid, none, none, none]
  | load pkgAid sdAid hash loadParm loadToken =>
    [some pkgAid, some sdAid, some hash, some loadParm, some loadToken]
  | extradition destAid appAid parm token =>
    [some destAid, none, some appAid, none, some parm, some token]

end InstallBuilder

/-- A field as a card expects it: a length and a value, or a zero byte. An
argument that is absent is empty. -/
def fieldBytes : Option (Option HeapBytes) → List UInt8
  | none => [0]
  | some none => [0]
  | some (some p) => u8 p.buf.length :: p.buf

/-- The data field of a builder. -/
def InstallBuilder.dataField (b : InstallBuilder) : List UInt8 := b.fields.flatMap fieldBytes

/-- The builder appends the INSTALL command of its variant with its arguments in
order, or, where they are too long for one command, refuses them. -/
def EncodesArguments (b : InstallBuilder) (out : OutBuffer (5 + b.dataField.length)) : Prop :=
  ∀ u : Unspec,
    if b.dataField.length ≤ 255 then ∃ ret, b.call u out.toSkb =
      .ok (ret, out.append ([0x80, 0xE6, b.flags, 0x00, u8 b.dataField.length] ++ b.dataField))
    else ∃ ret, ret ≠ fmOk ∧ b.call u out.toSkb = .ok (ret, out.toSkb)

section Install

variable {pos pos' n : ℕ} {buf buf' : List UInt8}

/-- A field is counted with the length byte in front of it. -/
theorem fmbytesConcatWithLen_count {p : FmBytes}
    (h : fmbytesConcatWithLen buf pos (some p) = .ok (n, buf')) : n = (u8 p.leng).toNat + 1 := by
  obtain ⟨des₁, hlead, h⟩ := bind_eq_ok.mp h
  obtain ⟨bs, -, h⟩ := bind_eq_ok.mp h
  obtain ⟨des₂, hcopy, h⟩ := bind_eq_ok.mp h
  obtain ⟨lead, hback, h⟩ := bind_eq_ok.mp h
  obtain ⟨rfl, -⟩ : lead.toNat + 1 = n ∧ des₂ = buf' := by simpa using h
  -- the copy is behind the length byte, which is read back unchanged
  have hget₁ : des₁[pos]? = some (u8 p.leng) := memWrite_byte hlead
  have hget₂ : des₂[pos]? = some (u8 p.leng) := by
    have hcopy : memWrite des₁ des₁.length (pos + 1 : ℕ) bs = .ok des₂ := hcopy
    rw [memWrite_front hcopy (Nat.lt_succ_self pos), hget₁]
  obtain rfl : u8 p.leng = lead := Except.ok.inj ((byteAt_natCast hget₂).symm.trans hback)
  rfl

/-- A field is at least a length byte, and no longer than its encoding. -/
theorem fmbytesConcatWithLen_le {src : Option HeapBytes}
    (h : fmbytesConcatWithLen buf pos (InstallBuilder.passed src) = .ok (n, buf')) :
    1 ≤ n ∧ n ≤ (fieldBytes (some src)).length := by
  cases src with
  | none =>
    obtain ⟨des, -, h⟩ := bind_eq_ok.mp h
    obtain ⟨rfl, -⟩ : 1 = n ∧ des = buf' := by simpa using h
    exact ⟨le_rfl, le_rfl⟩
  | some p =>
    have hcount := fmbytesConcatWithLen_count h
    rw [p.leng_eq, toNat_u8_natCast] at hcount
    have hmod := Nat.mod_le p.buf.length 256
    simp only [fieldBytes, List.length_cons]
    omega

/-- So is a list of fields. -/
theorem concatFields_le {fields : List (Option (Option HeapBytes))}
    (h : concatFields (fields.map (Option.map InstallBuilder.passed)) pos buf = .ok (pos', buf')) :
    pos + fields.length ≤ pos' ∧ pos' ≤ pos + (fields.flatMap fieldBytes).length := by
  induction fields generalizing pos buf with
  | nil =>
    obtain ⟨rfl, -⟩ : pos = pos' ∧ buf = buf' := by simpa [concatFields] using h
    simp
  | cons field fields ih =>
    rw [List.flatMap_cons, List.length_append, List.length_cons]
    cases field with
    | none =>
      have hrest := ih h
      simp only [fieldBytes, List.length_singleton]
      omega
    | some src =>
      obtain ⟨⟨n, buf₁⟩, hfield, h⟩ := bind_eq_ok.mp h
      have hn := fmbytesConcatWithLen_le hfield
      have hrest := ih h
      omega

/-- All builders have the same body. -/
theorem InstallBuilder.call_eq (b : InstallBuilder) (u : Unspec) (out : Skb) :
    ∃ p1, b.call u out =
      installFields u p1 (b.fields.map (Option.map InstallBuilder.passed)) out := by
  cases b <;> exact ⟨_, rfl⟩

/-- A builder that returns has returned zero and, where the data fit into one
command, has appended nothing. -/
theorem InstallBuilder.call_ok (b : InstallBuilder) {u : Unspec} {k : ℕ} {out : OutBuffer (5 + k)}
    {ret : ℤ} {out' : Skb} (h : b.call u out.toSkb = .ok (ret, out')) :
    ret = fmOk ∧ (b.dataField.length ≤ 255 → out' = out.toSkb) := by
  obtain ⟨p1, hcall⟩ := b.call_eq u out.toSkb
  rw [hcall] at h
  obtain ⟨⟨pos, buf⟩, hfields, h⟩ := bind_eq_ok.mp h
  obtain ⟨⟨e, skb⟩, hinstall, h⟩ := bind_eq_ok.mp h
  obtain ⟨rfl, rfl⟩ : 0 = ret ∧ skb = out' := by simpa using h
  refine ⟨rfl, fun hfit => ?_⟩
  have hpos : 1 ≤ pos ∧ pos ≤ 255 := by
    have hle := concatFields_le hfields
    have hsome : 1 ≤ b.fields.length := by
      cases b <;> exact Nat.succ_pos _
    have hsum : (b.fields.flatMap fieldBytes).length ≤ 255 := hfit
    omega
  have hlen : u8 (stackData u buf pos).leng ≠ 0 := by
    intro hzero
    have hmod : pos % 256 = 0 := u8_natCast_eq_zero_iff.mp hzero
    omega
  have hresult := (_gpMakeApdu_refused out hlen hinstall).2
  exact congrArg Prod.snd hresult

end Install

theorem not_encodesArguments {b : InstallBuilder} {out : OutBuffer (5 + b.dataField.length)} :
    ¬ EncodesArguments b out := by
  intro h
  have hrun := h plainUnspec
  split at hrun
  · obtain ⟨ret, hcall⟩ := hrun
    have hsame := (b.call_ok hcall).2 ‹_›
    have hlen := congrArg Skb.len hsame
    simp only [OutBuffer.append, List.length_append, List.length_cons] at hlen
    omega
  · obtain ⟨ret, hfail, hcall⟩ := hrun
    exact hfail (b.call_ok hcall).1

/-- **No builder encodes its arguments**, whatever they are: up to 255 bytes it
appends nothing, and beyond that it reports success. -/
theorem install_never_encodes (b : InstallBuilder) (out : OutBuffer (5 + b.dataField.length)) :
    ¬ EncodesArguments b out :=
  not_encodesArguments

/-- INSTALL for personalization without an AID. -/
theorem install_fail : ¬ ∀ (b : InstallBuilder) (out : OutBuffer (5 + b.dataField.length)),
    EncodesArguments b out := by
  intro h
  exact not_encodesArguments (h (.personalize none) (freshBuffer _))

end TsmVm
