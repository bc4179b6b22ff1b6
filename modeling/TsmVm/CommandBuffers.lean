import TsmVm.Apdus
import TsmVm.Lib.StopsOnly

/-!
# The buffers commands are built in (`apdu_preprocess`)

Every command is built in a fresh buffer of 300 bytes, of which three are kept
free in front. A header and the at most 255 bytes its length byte announces fit
behind them. So what builds a command from a header may stop at a bad pointer,
and for no other reason.
-/

namespace TsmVm

/-- Access to memory that is not there. -/
def Stop.IsFault : Stop → Prop
  | .nullDeref | .wildAccess | .outOfBounds => True
  | _ => False

/-- A computation that does nothing worse than access memory that is not there. -/
abbrev FaultsOnly {α : Type} (x : Res α) : Prop := StopsOnly Stop.IsFault x

/-! ## Memory -/

theorem derefOption_faultsOnly {α : Type} {p : Option α} : FaultsOnly (derefOption p) := by
  cases p with
  | none => exact .error trivial
  | some a => exact .ok a

theorem Ptr.deref_faultsOnly {α : Type} {p : Ptr α} : FaultsOnly p.deref := by
  cases p with
  | null => exact .error trivial
  | obj a => exact .ok a
  | wild => exact .error trivial

theorem byteAt_faultsOnly {mem : List UInt8} {i : ℤ} : FaultsOnly (byteAt mem i) := by
  unfold byteAt
  split
  · exact .error trivial
  · split
    · exact .error trivial
    · exact .ok _

theorem memRead_faultsOnly {mem : List UInt8} {off len : ℤ} : FaultsOnly (memRead mem off len) := by
  unfold memRead
  split_ifs
  · exact .ok _
  · exact .ok _
  · exact .error trivial

theorem memWrite_faultsOnly {mem : List UInt8} {size : ℕ} {off : ℤ} {bs : List UInt8} :
    FaultsOnly (memWrite mem size off bs) := by
  unfold memWrite
  split_ifs
  · exact .ok _
  · exact .ok _
  · exact .error trivial

theorem cString_faultsOnly {mem : List UInt8} : FaultsOnly (cString mem) := by
  induction mem with
  | nil => exact .error trivial
  | cons b mem ih =>
    unfold cString
    split
    · exact .ok _
    · exact ih.seq fun s => .ok _

theorem FmBytesArray.at_faultsOnly {fba : FmBytesArray} {i : ℤ} : FaultsOnly (fba.at i) := by
  unfold FmBytesArray.at
  split
  · exact .error trivial
  · split
    · exact .error trivial
    · exact .ok _

theorem fmBytesGetLength_faultsOnly {p : Option FmBytes} : FaultsOnly (fmBytesGetLength p) :=
  derefOption_faultsOnly.seq fun _ => .ok _

theorem fmBytesCopy_faultsOnly {des : Option FmBytes} {offset1 : ℤ} {src : Option FmBytes}
    {offset2 len : ℤ} : FaultsOnly (fmBytesCopy des offset1 src offset2 len) := by
  unfold fmBytesCopy
  split
  · split_ifs
    · exact .ok _
    · exact .ok _
    · exact .ok _
    · exact memRead_faultsOnly.seq fun bs => memWrite_faultsOnly.seq fun buf => .ok _
  · exact .ok _

theorem firstByte_faultsOnly {p : Option FmBytes} : FaultsOnly (firstByte p) :=
  derefOption_faultsOnly.seq fun _ => byteAt_faultsOnly

/-! ## Sessions -/

theorem dataGetByName_faultsOnly {ccb : Ccb} {name : List UInt8} :
    FaultsOnly (dataGetByName ccb name) := by
  refine cString_faultsOnly.seq fun text => ?_
  unfold zcHashtableGet
  split
  · exact .ok _
  · exact .error trivial

theorem dataGetByLiteral_faultsOnly {ccb : Ccb} {name : String} :
    FaultsOnly (dataGetByLiteral ccb name) :=
  dataGetByName_faultsOnly

theorem skbQueuePurge_faultsOnly {q : List Skb} : FaultsOnly (skbQueuePurge q) := by
  induction q with
  | nil => exact .ok _
  | cons s q ih =>
    refine StopsOnly.seq ?_ fun _ => ih
    unfold kfreeSkb
    split
    · exact .error trivial
    · exact .ok _

theorem ccbSetBootstrap_faultsOnly {ccb : Ptr Ccb} {result : Bool} :
    FaultsOnly (ccbSetBootstrap ccb result) :=
  Ptr.deref_faultsOnly.seq fun _ => .ok _

theorem ccbSetWriteBack_faultsOnly {ccb : Ptr Ccb} {result : Bool} :
    FaultsOnly (ccbSetWriteBack ccb result) :=
  Ptr.deref_faultsOnly.seq fun _ => .ok _

/-! ## Fields of an INSTALL command -/

theorem fmbytesConcatWithLen_faultsOnly {des : List UInt8} {pos : ℕ} {src : Option FmBytes} :
    FaultsOnly (fmbytesConcatWithLen des pos src) := by
  cases src with
  | none => exact memWrite_faultsOnly.seq fun _ => .ok _
  | some p =>
    refine memWrite_faultsOnly.seq fun des₁ => ?_
    refine memRead_faultsOnly.seq fun bs => ?_
    refine memWrite_faultsOnly.seq fun des₂ => ?_
    exact byteAt_faultsOnly.seq fun _ => .ok _

theorem concatFields_faultsOnly {fields : List (Option (Option FmBytes))} {pos : ℕ}
    {buf : List UInt8} : FaultsOnly (concatFields fields pos buf) := by
  induction fields generalizing pos buf with
  | nil => exact .ok _
  | cons field fields ih =>
    cases field with
    | none => exact ih
    | some src => exact fmbytesConcatWithLen_faultsOnly.seq fun _ => ih

/-! ## Fresh buffers -/

/-- The room behind the payload of a fresh buffer. -/
def commandRoom : ℕ := maxApduLen - tagA0HeadRoom

/-- A fresh buffer is empty, and all of its room is left. -/
theorem apduPreprocess_layout {u : Unspec} {k : ℕ} {agent : Option FmBytes} {skb : Skb}
    (h : apduPreprocess u k agent = .ok skb) :
    skb.Layout (List.replicate tagA0HeadRoom 0) [] (List.replicate commandRoom 0) := by
  obtain ⟨len, -, h⟩ := bind_eq_ok.mp h
  obtain ⟨name, -, h⟩ := bind_eq_ok.mp h
  obtain rfl := Except.ok.inj h
  have hfresh := Skb.Layout.alloc (u.skb k) maxApduLen
  constructor
  · rw [commandRoom, List.append_nil, List.replicate_append_replicate]
    exact hfresh.buff_eq
  · rfl
  · rfl
  · rfl

/-- It is made or a bad pointer met. -/
theorem apduPreprocess_faultsOnly {u : Unspec} {k : ℕ} {agent : Option FmBytes} :
    FaultsOnly (apduPreprocess u k agent) := by
  refine fmBytesGetLength_faultsOnly.seq fun len => ?_
  exact fmBytesCopy_faultsOnly.seq fun name => .ok _

/-- It as a buffer to build a command in. -/
def commandBuffer {u : Unspec} {k : ℕ} {agent : Option FmBytes} {skb : Skb}
    (h : apduPreprocess u k agent = .ok skb) : OutBuffer (5 + 292) :=
  { skb with
    head := List.replicate tagA0HeadRoom 0, body := [], room := List.replicate commandRoom 0,
    layout := apduPreprocess_layout h, room_le := by
      rw [List.length_replicate]
      decide }

/-! ## Commands -/

section Make

variable {cla ins p1 p2 : UInt8}

/-- The room behind the payload. -/
theorem OutBuffer.tail_le {n : ℕ} (out : OutBuffer n) : out.tail + n ≤ out.buff.length := by
  have hroom := out.room_le
  have htail := out.layout.tail_eq
  rw [out.layout.buff_eq]
  simp only [List.length_append]
  omega

/-- The room behind a header. -/
theorem OutBuffer.append_tail_le {k : ℕ} (out : OutBuffer (5 + k)) (bs : List UInt8)
    (hbs : bs.length = 5) : (out.append bs).tail + k ≤ (out.append bs).buff.length := by
  have hroom := out.room_le
  have htail := out.layout.tail_eq
  simp only [OutBuffer.append, List.length_append, List.length_drop]
  omega

/-- More bytes are put behind a header, where there is room for both. -/
theorem OutBuffer.skbPut_append {k n : ℕ} (out : OutBuffer (5 + k)) (bs : List UInt8)
    (hbs : bs.length = 5) (hn : n ≤ k) : ∃ r, skbPut (out.append bs) n = .ok r := by
  have hroom := out.append_tail_le bs hbs
  have hpos : (out.append bs).buff.length ≠ 0 := by
    simp only [OutBuffer.append, List.length_append, hbs]
    omega
  unfold skbPut
  rw [if_neg hpos, if_neg (by omega)]
  exact ⟨_, rfl⟩

/-- A header and what its length byte announces. -/
theorem _gpMakeApdu_faultsOnly {n : ℕ} (hn : 255 ≤ n) (out : OutBuffer (5 + n))
    (data : Option FmBytes) : FaultsOnly (_gpMakeApdu cla ins p1 p2 data out.toSkb) := by
  by_cases hdata : ∀ d, data = some d → u8 d.leng = 0
  · rw [_gpMakeApdu_empty out hdata]
    exact .ok _
  · push Not at hdata
    obtain ⟨d, rfl, hlen⟩ := hdata
    rw [_gpMakeApdu_data out hlen]
    split
    · exact .ok _
    · have hle : (u8 d.leng).toNat ≤ n := by
        have := (u8 d.leng).toNat_lt
        omega
      obtain ⟨r, hr⟩ := out.skbPut_append [cla, ins, p1, p2, u8 d.leng] rfl hle
      rw [hr]
      exact .error trivial

variable {u : Unspec} {k : ℕ} {agent : Option FmBytes} {skb : Skb}

/-- A command in a fresh buffer. -/
theorem _gpMakeApdu_fresh_faultsOnly (h : apduPreprocess u k agent = .ok skb)
    {data : Option FmBytes} : FaultsOnly (_gpMakeApdu cla ins p1 p2 data skb) :=
  _gpMakeApdu_faultsOnly (by decide) (commandBuffer h) data

/-- An INSTALL command in a fresh buffer. -/
theorem installFields_faultsOnly (h : apduPreprocess u k agent = .ok skb)
    {fields : List (Option (Option FmBytes))} : FaultsOnly (installFields u p1 fields skb) := by
  refine concatFields_faultsOnly.seq fun _ => ?_
  exact (_gpMakeApdu_fresh_faultsOnly h).seq fun _ => .ok _

end Make

end TsmVm
