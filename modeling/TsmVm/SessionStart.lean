import TsmVm.ControlTlvs
import TsmVm.Receive
import TsmVm.Sending

/-!
# Starting a session (`router_aggregate_work`, `tsm_vm`)

A control message is the instruction and the entries behind it. The reader takes
the instruction from where `skb_pull` points to, which is behind it, and leaves
the entries in the package it queues for the VM; the pull that is to empty the
package takes the payload for a `struct sk_buff`. The VM decodes what is left of
the entries as a response, so a session never starts with an empty one.
-/

namespace TsmVm

/-- `INS_CREATE_CCB`. -/
def insCreateCcb : UInt8 := 0

/-- `INS_REG_AGENT`. -/
def insRegAgent : UInt8 := 2

/-- `ACK_REG_AGENT`. -/
def ackRegAgent : UInt8 := 3

/-- `TAG_AG_NAME`. -/
def tagAgName : UInt8 := 0x13

/-- `router_register_agent`. -/
def routerRegisterAgent (fd : ℤ) (tlv : List RouterTlvEntry) : AgentEntry :=
  { name := (tlv.find? (·.tag = tagAgName)).map fun node => node.val.takeWhile (· ≠ 0),
    fd := fd }

/-- The package that tells an agent it is registered. -/
def routerAckAgent (u : Unspec) (ae : AgentEntry) : Res Skb := do
  let name ← derefOption ae.name
  let snd := skbReserve (allocSkb (u.skb 0) (2 + msgHeadLen)) msgHeadLen
  let snd ← skbPutBytes snd [ackRegAgent]
  let snd ← skbPutBytes snd [0]
  let agent ← derefOption (fmBytesAlloc (u.addr 0) (u.behind 0) (name.length + 1))
  let buf ← memWrite agent.buf agent.size.toNat 0 name
  return { snd with msgType := msgCtrl, agent := .obj { agent with buf := buf } }

/-- `skb_pull` where the memory is taken for a `struct sk_buff`: its `len` is at
offset 52 and its `data` at offset 112. -/
def skbPullAt (mem : List UInt8) (n : ℕ) : Res (List UInt8) := do
  let len ← memRead mem 52 4
  if leValue len < n then return mem
  else
    let mem ← memWrite mem mem.length 52 (leBytes 4 (leValue len - n))
    let data ← memRead mem 112 8
    memWrite mem mem.length 112 (leBytes 8 (leValue data + n))

/-- What a control message leads to. -/
inductive ControlResult
  /-- A CCB joins the list, and the package goes to the VM. -/
  | created (ccb : Ccb) (bcList : List BcSet) (skb : Skb)
  /-- An agent joins the list, and the package goes to the writer. -/
  | registered (ae : AgentEntry) (skb : Skb)
  /-- Nothing happens, for `INS_UNREG_AGENT` and whatever else it is. -/
  | ignored

/-- `ins = *skb_pull(skb,1)`: the byte the new pointer points to. -/
def routerIns (skb : Skb) : Res UInt8 := do
  let pulled := skbPull skb 1
  let p ← derefOption pulled.1
  pulled.2.byte p

/-- The part of `router_aggregate_work` that handles a control message. An agent is taken to
join the list, although `list_add_entry` is given its links and not their address. -/
def routerControl (e : CreateEnv) (u : Unspec) (fd : ℤ) (bcList : List BcSet) (skb : Skb) :
    Res ControlResult := do
  let ins ← routerIns skb
  let skb := (skbPull skb 1).2
  let tlv ← routerParseTlv (skb.buff.drop skb.data) skb.len
  -- `skb_pull(skb->data,skb->len)`
  let mem ← skbPullAt (skb.buff.drop skb.data) skb.len
  let skb := { skb with buff := skb.buff.take skb.data ++ mem }
  if ins = insCreateCcb then
    let created ← ccbCreateCcb e bcList (tlv.map RouterTlvEntry.toRouterTlv)
    return .created created.1 created.2 { skb with session := created.1.session }
  else if ins = insRegAgent then
    kfreeSkb skb
    let snd ← routerAckAgent u (routerRegisterAgent fd tlv)
    return .registered (routerRegisterAgent fd tlv) snd
  else return .ignored

/-- The text in a value, up to its terminator if there is one. -/
def ControlTlv.text (t : ControlTlv) : List UInt8 := t.value.takeWhile (· ≠ 0)

/-- A message that asks for a session: the instruction, and entries that name the
session, a script the loader finds and libraries the loader finds. -/
structure CreateMessage (e : CreateEnv) where
  /-- The package. -/
  skb : Skb
  /-- The entries. -/
  tlvs : List ControlTlv
  /-- The memory in front of the payload. -/
  head : List UInt8
  /-- The memory behind the payload. -/
  room : List UInt8
  /-- The number of the session. -/
  session : ℤ
  /-- The script. -/
  script : ScriptEntry
  /-- The payload is the instruction and the entries. -/
  layout : skb.Layout head (insCreateCcb :: tlvBytes tlvs) room
  /-- The reader takes the package for a control message. -/
  control : takenForControl skb = true
  /-- The reader has marked it. -/
  isNew_eq : skb.isNew = true
  /-- An entry names the session. -/
  session_eq : ∃ t, tlvs.find? (·.tag = tagSession) = some t ∧ atoi (t.text ++ [0]) = .ok session
  /-- An entry names the script. -/
  script_eq : ∃ t, tlvs.find? (·.tag = tagScript) = some t ∧ e.scloader t.text = some script
  /-- The libraries are found. -/
  libraries : ∀ t ∈ tlvs, t.tag = tagDll → (e.bcloader t.text).isSome

/-- The message starts its session: the reader dispatches on the instruction and
adds a CCB with the session and the script, and the package it queues leads the
VM to that CCB and the first entry of the script, with an empty response. -/
def StartsSession {e : CreateEnv} (img : Image) (u : Unspec) (fd : ℤ) (bcList : List BcSet)
    (ccbs : List Ccb) (fba : Ptr FmBytesArray) (m : CreateMessage e) : Prop :=
  ∃ ccb bcList' queued c rsp,
    routerIns m.skb = .ok insCreateCcb ∧
    routerControl e u fd bcList m.skb = .ok (.created ccb bcList' queued) ∧
    ccb.session = m.session ∧ ccb.se = some m.script ∧
    tsmVmEnter img u
      { Dev.start with rpkgList := [queued], semVm := 1, ccbList := ccbs ++ [ccb] } fba = .ok c ∧
    c.ccb = ccb ∧ m.script.ces[0]? = some (some c.ce) ∧ c.fba = .obj rsp ∧ rsp.cnt = 0

/-! ## What the VM makes of the package -/

/-- The outer header has four bytes at most. -/
theorem le_skipTagAx_len {s t : Skb} (h : skipTagAx s = .ok t) : s.len ≤ t.len + 4 := by
  have hfirst := le_skbPull_len s 1
  have hsecond := le_skbPull_len (skbPull s 1).2 1
  obtain ⟨p, -, h⟩ := bind_eq_ok.mp h
  obtain ⟨b, -, h⟩ := bind_eq_ok.mp h
  split at h
  · obtain rfl := Except.ok.inj h
    have hthird := le_skbPull_len (skbPull (skbPull s 1).2 1).2 2
    omega
  · obtain rfl := Except.ok.inj h
    omega

/-- Where there is payload, there are fragments. -/
theorem tagA0sLoop_cnt {u : Unspec} {rounds i : ℕ} {s t : Skb} {fba fba' : FmBytesArray}
    (h : tagA0sLoop u rounds i s fba = .ok (fba', t)) (hsome : 0 < s.len ∨ 0 < fba.cnt) :
    0 < fba'.cnt := by
  refine tagA0sLoop_rec (P := fun _ s fba => 0 < s.len ∨ 0 < fba.cnt → 0 < fba'.cnt)
    (fun _ hlen hsome => hsome.resolve_left (by omega)) ?_ h hsome
  intro i s fba next fba₁ _ _ _ hrest _
  have hcnt : (0 : ℤ) < (i : ℤ) + 1 := by omega
  exact hrest (.inr hcnt)

/-- A new package that is longer than the outer header is not an empty response. -/
theorem tsmVmReceive_cnt {u : Unspec} {s t : Skb} {fba fba' : Ptr FmBytesArray}
    (h : tsmVmReceive u s fba = .ok (t, fba')) (hnew : s.isNew = true) (hlen : 4 < s.len) :
    ∃ rsp, fba' = .obj rsp ∧ 0 < rsp.cnt := by
  obtain ⟨s₁, hskip, h⟩ := bind_eq_ok.mp h
  have hrest := le_skipTagAx_len hskip
  have hnew₁ : s₁.isNew = true := (skipTagAx_same hskip).isNew_eq.trans hnew
  rw [if_pos hnew₁] at h
  obtain ⟨⟨rsp, s₂⟩, hloop, h⟩ := bind_eq_ok.mp h
  obtain ⟨-, rfl⟩ : { s₂ with isNew := false } = t ∧ Ptr.obj rsp = fba' := by simpa using h
  have hpos : 0 < s₁.len := by omega
  exact ⟨rsp, rfl, tagA0sLoop_cnt hloop (.inl hpos)⟩

/-- The response a bytecode is called with is the one received. -/
theorem tsmVmReceive_of_enter {img : Image} {u : Unspec} {d : Dev} {fba : Ptr FmBytesArray}
    {skb : Skb} {c : CallSite} (hhead : d.rpkgList.head? = some skb)
    (h : tsmVmEnter img u d fba = .ok c) : tsmVmReceive u skb fba = .ok (c.skb, c.fba) := by
  unfold tsmVmEnter at h
  rw [hhead, derefOption_some, ok_bind] at h
  obtain ⟨⟨skb', fba'⟩, hreceive, h⟩ := bind_eq_ok.mp h
  obtain ⟨idx, -, h⟩ := bind_eq_ok.mp h
  obtain ⟨ccb, -, h⟩ := bind_eq_ok.mp h
  obtain ⟨ce, -, h⟩ := bind_eq_ok.mp h
  obtain ⟨fn, -, h⟩ := bind_eq_ok.mp h
  obtain rfl := Except.ok.inj h
  exact hreceive

/-! ## What the reader queues -/

/-- The package that is queued is as long as the entries. -/
theorem routerControl_created {e : CreateEnv} {u : Unspec} {fd : ℤ} {bcList bcList' : List BcSet}
    {skb queued : Skb} {ccb : Ccb}
    (h : routerControl e u fd bcList skb = .ok (.created ccb bcList' queued)) :
    queued.isNew = skb.isNew ∧ skb.len ≤ queued.len + 1 := by
  obtain ⟨ins, -, h⟩ := bind_eq_ok.mp h
  obtain ⟨tlv, -, h⟩ := bind_eq_ok.mp h
  obtain ⟨mem, -, h⟩ := bind_eq_ok.mp h
  dsimp only at h
  split at h
  · obtain ⟨created, -, h⟩ := bind_eq_ok.mp h
    obtain ⟨-, -, rfl⟩ := ControlResult.created.inj (Except.ok.inj h)
    exact ⟨(skbPull_same skb 1).isNew_eq, le_skbPull_len skb 1⟩
  · split at h
    · obtain ⟨_, -, h⟩ := bind_eq_ok.mp h
      obtain ⟨snd, -, h⟩ := bind_eq_ok.mp h
      cases h
    · cases h

/-- The entries have a header each, and there are two of them. -/
theorem CreateMessage.six_le {e : CreateEnv} (m : CreateMessage e) :
    6 ≤ (tlvBytes m.tlvs).length := by
  obtain ⟨t, ht, -⟩ := m.session_eq
  obtain ⟨t', ht', -⟩ := m.script_eq
  have htag : t.tag = tagSession := by simpa using List.find?_some ht
  have htag' : t'.tag = tagScript := by simpa using List.find?_some ht'
  have hmem : t ∈ m.tlvs := List.mem_of_find?_eq_some ht
  have hmem' : t' ∈ m.tlvs := List.mem_of_find?_eq_some ht'
  have htwo : 2 ≤ m.tlvs.length := by
    match htlvs : m.tlvs with
    | [] => simp [htlvs] at hmem
    | [a] =>
      rw [htlvs, List.mem_singleton] at hmem hmem'
      rw [hmem] at htag
      rw [hmem', htag] at htag'
      exact absurd htag' (by decide)
    | _ :: _ :: _ => simp
  rw [length_tlvBytes]
  omega

/-- **The first instruction.** No message starts its session, whatever is loaded
and whatever sessions there are. -/
theorem session_never_starts {e : CreateEnv} (img : Image) (u : Unspec) (fd : ℤ)
    (bcList : List BcSet) (ccbs : List Ccb) (fba : Ptr FmBytesArray) (m : CreateMessage e) :
    ¬ StartsSession img u fd bcList ccbs fba m := by
  rintro ⟨ccb, bcList', queued, c, rsp, -, hcontrol, -, -, henter, -, -, hrsp, hcnt⟩
  obtain ⟨hnew, hlen⟩ := routerControl_created hcontrol
  have hmessage : m.skb.len = (tlvBytes m.tlvs).length + 1 := m.layout.len_eq
  have hentries := m.six_le
  have hlong : 4 < queued.len := by omega
  have hreceive := tsmVmReceive_of_enter rfl henter
  obtain ⟨rsp', hrsp', hpos⟩ := tsmVmReceive_cnt hreceive (hnew.trans m.isNew_eq) hlong
  obtain rfl : rsp = rsp' := Ptr.obj.inj (hrsp.symm.trans hrsp')
  omega

/-- A loader that finds a script of one entry and a library of one function. -/
def oneScriptEnv : CreateEnv :=
  { oneLibEnv with scloader := fun _ => (plainCcb 7 1).se }

/-- A request for session 7, a script and a library. -/
def startTlvs : List ControlTlv :=
  [⟨tagSession, [0x37, 0], by decide⟩, ⟨tagScript, [0x73, 0], by decide⟩,
    ⟨tagDll, [0x61, 0], by decide⟩]

/-- The message that holds it. -/
def startMessage : CreateMessage oneScriptEnv where
  skb := { newPackage 1 0 (insCreateCcb :: tlvBytes startTlvs) with msgType := msgCtrl * 16777216 }
  tlvs := startTlvs
  head := []
  room := []
  session := 7
  script := { name := [], size := 1, codeNum := 1, ces := [some ⟨0, 0, none⟩] }
  layout := ⟨rfl, rfl, rfl, rfl⟩
  control := rfl
  isNew_eq := rfl
  session_eq := ⟨_, rfl, rfl⟩
  script_eq := ⟨_, rfl, rfl⟩
  libraries := fun _ _ _ => rfl

/-- The reader takes the tag of its first entry for the instruction. -/
theorem session_start_fails : ¬ ∀ (e : CreateEnv) (img : Image) (u : Unspec) (fd : ℤ)
    (bcList : List BcSet) (ccbs : List Ccb) (fba : Ptr FmBytesArray) (m : CreateMessage e),
    StartsSession img u fd bcList ccbs fba m := by
  intro h
  obtain ⟨_, _, _, _, _, hins, -⟩ :=
    h oneScriptEnv (plainImage .dataSet) plainUnspec 5 [] [] .wild startMessage
  have htag : routerIns startMessage.skb = .ok tagSession := rfl
  rw [htag] at hins
  exact absurd (Except.ok.inj hins) (by decide)

end TsmVm
