import TsmVm.CommandBatches
import TsmVm.LoadRounds
import TsmVm.LoaderLimits

/-!
# No room for a command (`skb_over_panic`)

Where `skb_put` finds no room it stays in a loop for ever. Of the twelve
bytecodes that build commands eleven put a header, at most 255 bytes of data and
a status word into a buffer with room for 297 bytes. The twelfth puts what a
line of the script gives it, of up to a thousand characters, and one status word
after the other. None of the twelve reports that its input is too long: a length is
cut to a byte, and what the builders return is not looked at.
-/

namespace TsmVm

/-- The bytecodes that build commands. -/
def Bytecode.isGp (fn : Bytecode) : Bool := fn.setsBootstrap || fn.repliesToAgent

/-- The fields of the INSTALL command of a bytecode, with their lookups; `none` is a
reserved byte. -/
def Bytecode.fields (fn : Bytecode) (ccb : Ccb) (arg : FmBytesArray) :
    List (Option (Res (Option FmBytes))) :=
  match fn with
  | .gpInstallForInstallMakeSelectable =>
    [some (arg.at 1), some (arg.at 2), some (arg.at 3), some (arg.at 4),
      some (dataGetByLiteral ccb "parameter"), some (dataGetByLiteral ccb "token")]
  | .gpInstallForPersonalize => [none, none, some (arg.at 1), none, none, none]
  | .gpInstallForLoadAndLoad =>
    [some (dataGetByLiteral ccb "cap pkg aid"), some (arg.at 1),
      some (dataGetByLiteral ccb "cap hash"), some (dataGetByLiteral ccb "load parameter"),
      some (dataGetByLiteral ccb "token")]
  | .gpInstallForExtradition =>
    [some (arg.at 1), none, some (arg.at 2), none, some (arg.at 3),
      some (dataGetByLiteral ccb "token")]
  | _ => []

/-- Bytes are put where there is room for them. -/
theorem skbPutBytes_ok {s : Skb} (bs : List UInt8) (hpos : s.buff.length ≠ 0)
    (hroom : s.tail + bs.length ≤ s.buff.length) :
    ∃ t, skbPutBytes s bs = .ok t ∧ t.tail = s.tail + bs.length ∧
      t.buff.length = s.buff.length := by
  have hput : skbPut s bs.length =
      .ok (s.tail, { s with tail := s.tail + bs.length, len := s.len + bs.length }) := by
    unfold skbPut
    rw [if_neg hpos, if_neg (by omega)]
  refine ⟨_, by rw [skbPutBytes, hput]; rfl, rfl, skbPut_poke_length hput rfl⟩

/-- Room for a status word in every buffer is room enough. -/
theorem _gpPaddingSw_faultsOnly {q : List Skb}
    (h : ∀ s ∈ q, s.buff.length ≠ 0 ∧ s.tail + 2 ≤ s.buff.length) :
    FaultsOnly (_gpPaddingSw q) := by
  induction q with
  | nil => exact .ok _
  | cons s q ih =>
    obtain ⟨⟨hpos, hroom⟩, hq⟩ := List.forall_mem_cons.mp h
    obtain ⟨s₁, hput₁, htail₁, hlen₁⟩ := skbPutBytes_ok [0x90] hpos
      (by rw [List.length_singleton]; omega)
    rw [List.length_singleton] at htail₁
    obtain ⟨s₂, hput₂, -, -⟩ := skbPutBytes_ok (s := s₁) [0x00] (by omega)
      (by rw [List.length_singleton]; omega)
    rw [_gpPaddingSw, hput₁, ok_bind, hput₂, ok_bind]
    exact (ih hq).seq fun _ => .ok _

section Handlers

variable {cla ins p1 p2 : UInt8} {u : Unspec} {k : ℕ} {agent data : Option FmBytes} {skb : Skb}

/-- Behind a command there is room for a status word. -/
theorem _gpMakeApdu_fresh_room (h : apduPreprocess u k agent = .ok skb) {r : ℤ × Skb}
    (hmake : _gpMakeApdu cla ins p1 p2 data skb = .ok r) :
    r.2.buff.length ≠ 0 ∧ r.2.tail + 2 ≤ r.2.buff.length := by
  have hmake : _gpMakeApdu cla ins p1 p2 data (commandBuffer h).toSkb = .ok r := hmake
  by_cases hdata : ∀ d, data = some d → u8 d.leng = 0
  · rw [_gpMakeApdu_empty _ hdata] at hmake
    obtain rfl := Except.ok.inj hmake
    have hroom := (commandBuffer h).append_tail_le [cla, ins, p1, p2, 0] rfl
    dsimp only
    omega
  · push Not at hdata
    obtain ⟨d, rfl, hlen⟩ := hdata
    obtain ⟨-, rfl⟩ := _gpMakeApdu_refused _ hlen hmake
    have hroom := (commandBuffer h).tail_le
    dsimp only
    omega

/-- A command that is sent as it is gets its status word. -/
theorem padded_faultsOnly {ret : ℤ}
    (hroom : skb.buff.length ≠ 0 ∧ skb.tail + 2 ≤ skb.buff.length) :
    FaultsOnly (do
      let _ ← _gpPaddingSw [skb]
      let ccb ← setWriteBackWithoutCcb
      return (ret, ccb) : Res (ℤ × Ccb)) := by
  refine (_gpPaddingSw_faultsOnly (by simpa using hroom)).seq fun _ => ?_
  exact ccbSetWriteBack_faultsOnly.seq fun _ => .ok _

/-- A command that waits for its MAC. -/
theorem cacheApdu_faultsOnly {ccb : Ccb} {make : Skb → Res (ℤ × Skb)} {ret : ℤ}
    (hmake : ∀ skb, apduPreprocess u 0 agent = .ok skb → FaultsOnly (make skb)) :
    FaultsOnly (cacheApdu make ret u ccb agent) := by
  refine skbQueuePurge_faultsOnly.seq fun apduQ => ?_
  refine apduPreprocess_faultsOnly.bind fun skb hskb => ?_
  refine (hmake skb hskb).seq fun r => ?_
  exact ccbSetBootstrap_faultsOnly.seq fun _ => .ok _

/-- The loop of `gp_store_data`. -/
theorem storeDataLoop_faultsOnly {ccb : Ccb} {arg : FmBytesArray} {n i : ℕ} {blkNum : UInt8}
    {q : List Skb} : FaultsOnly (storeDataLoop u ccb agent arg n i blkNum q) := by
  induction n generalizing i blkNum q with
  | zero => exact .ok q
  | succ n ih =>
    refine apduPreprocess_faultsOnly.bind fun skb hskb => ?_
    refine FmBytesArray.at_faultsOnly.seq fun name => ?_
    refine derefOption_faultsOnly.seq fun name => ?_
    refine dataGetByName_faultsOnly.seq fun parm => ?_
    exact (_gpMakeApdu_fresh_faultsOnly hskb).seq fun _ => ih

end Handlers

/-- **Eleven of the twelve** bytecodes that build commands always have room for them. -/
theorem call_faultsOnly {fn : Bytecode} (hfn : fn.isGp = true) (hne : fn ≠ .gpTraverse)
    {u : Unspec} {ccb : Ccb} {rsp : Ptr FmBytesArray} {arg : FmBytesArray} :
    FaultsOnly (fn.call u ccb rsp arg) := by
  cases fn with
  | gpSelect =>
    refine FmBytesArray.at_faultsOnly.seq fun agent => ?_
    refine FmBytesArray.at_faultsOnly.seq fun aid => ?_
    refine skbQueuePurge_faultsOnly.bind fun cmdQ hcmdQ => ?_
    obtain rfl := skbQueuePurge_eq_nil hcmdQ
    refine apduPreprocess_faultsOnly.bind fun skb hskb => ?_
    refine (_gpMakeApdu_fresh_faultsOnly hskb).bind fun r hr => ?_
    exact padded_faultsOnly (_gpMakeApdu_fresh_room hskb hr)
  | gpInitUpdate =>
    refine FmBytesArray.at_faultsOnly.seq fun agent => ?_
    refine FmBytesArray.at_faultsOnly.seq fun kv => ?_
    refine dataGetByLiteral_faultsOnly.seq fun hc => ?_
    refine skbQueuePurge_faultsOnly.bind fun cmdQ hcmdQ => ?_
    obtain rfl := skbQueuePurge_eq_nil hcmdQ
    refine apduPreprocess_faultsOnly.bind fun skb hskb => ?_
    refine firstByte_faultsOnly.seq fun kv => ?_
    refine (_gpMakeApdu_fresh_faultsOnly hskb).bind fun r hr => ?_
    exact padded_faultsOnly (_gpMakeApdu_fresh_room hskb hr)
  | gpExtAuth =>
    refine FmBytesArray.at_faultsOnly.seq fun agent => ?_
    refine FmBytesArray.at_faultsOnly.seq fun sl => ?_
    refine dataGetByLiteral_faultsOnly.seq fun nhc => ?_
    exact cacheApdu_faultsOnly fun skb hskb =>
      firstByte_faultsOnly.seq fun sl => _gpMakeApdu_fresh_faultsOnly hskb
  | gpGetStatus =>
    refine FmBytesArray.at_faultsOnly.seq fun agent => ?_
    refine FmBytesArray.at_faultsOnly.seq fun subset => ?_
    refine FmBytesArray.at_faultsOnly.seq fun searchCriteria => ?_
    exact cacheApdu_faultsOnly fun skb hskb =>
      firstByte_faultsOnly.seq fun subset => _gpMakeApdu_fresh_faultsOnly hskb
  | gpInstallForInstallMakeSelectable =>
    refine FmBytesArray.at_faultsOnly.seq fun agent => ?_
    refine FmBytesArray.at_faultsOnly.seq fun pkgAid => ?_
    refine FmBytesArray.at_faultsOnly.seq fun appAid => ?_
    refine FmBytesArray.at_faultsOnly.seq fun insAid => ?_
    refine FmBytesArray.at_faultsOnly.seq fun priv => ?_
    refine dataGetByLiteral_faultsOnly.seq fun installParm => ?_
    refine dataGetByLiteral_faultsOnly.seq fun token => ?_
    exact cacheApdu_faultsOnly fun skb hskb => installFields_faultsOnly hskb
  | gpInstallForPersonalize =>
    refine FmBytesArray.at_faultsOnly.seq fun agent => ?_
    refine FmBytesArray.at_faultsOnly.seq fun aid => ?_
    exact cacheApdu_faultsOnly fun skb hskb => installFields_faultsOnly hskb
  | gpPutKey =>
    refine FmBytesArray.at_faultsOnly.seq fun agent => ?_
    refine FmBytesArray.at_faultsOnly.seq fun kv => ?_
    exact cacheApdu_faultsOnly fun skb hskb =>
      firstByte_faultsOnly.seq fun kv => _gpMakeApdu_fresh_faultsOnly hskb
  | gpInstallForLoadAndLoad => exact gpInstallForLoadAndLoad_faultsOnly rsp
  | gpInstallForExtradition =>
    refine FmBytesArray.at_faultsOnly.seq fun agent => ?_
    refine FmBytesArray.at_faultsOnly.seq fun destAid => ?_
    refine FmBytesArray.at_faultsOnly.seq fun appAid => ?_
    refine FmBytesArray.at_faultsOnly.seq fun parm => ?_
    refine dataGetByLiteral_faultsOnly.seq fun token => ?_
    exact cacheApdu_faultsOnly fun skb hskb => installFields_faultsOnly hskb
  | gpStoreData =>
    refine FmBytesArray.at_faultsOnly.seq fun agent => ?_
    refine skbQueuePurge_faultsOnly.seq fun apduQ => ?_
    refine storeDataLoop_faultsOnly.seq fun apduQ => ?_
    exact ccbSetBootstrap_faultsOnly.seq fun _ => .ok _
  | gpTraverse => exact (hne rfl).elim
  | gpMsgMacing => exact ccbSetWriteBack_faultsOnly.seq fun _ => .ok _
  | _ => cases hfn

/-! ## Raw commands -/

section Traverse

variable {arg : FmBytesArray} {agent : ByteString} {cmds : List ByteString} {spare : ℕ}

end Traverse

end TsmVm
