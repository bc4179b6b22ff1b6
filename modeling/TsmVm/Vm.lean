import TsmVm.Bytecode

/-!
# The VM loop (`tsm_vm.c`)

One iteration of the loop takes a package from the read queue, decodes the
response in it, executes one bytecode of the session's script and then either
sends the command queue of the CCB, puts the package back, or does nothing
more. The functions follow the source; what C leaves open is a parameter.
-/

namespace TsmVm

/-- Whether C evaluates the call or the value first in an assignment such as
`*(skb_push(pos,1)) = pos->len`, where the call changes what is assigned. -/
inductive EvalOrder
  | valueFirst
  | callFirst
  deriving DecidableEq, Repr

/-- The value assigned, read before or after the call. -/
def EvalOrder.pick {α : Type} (o : EvalOrder) (before after : α) : α :=
  match o with
  | .valueFirst => before
  | .callFirst => after

/-- `*(skb_push(s,1)) = f(s)`. -/
def skbPushValue (o : EvalOrder) (s : Skb) (f : Skb → UInt8) : Res Skb := do
  let (p, t) ← skbPush s 1
  return t.poke p [f (o.pick s t)]

/-- `*(skb_put(s,1)) = f(s)`. -/
def skbPutValue (o : EvalOrder) (s : Skb) (f : Skb → UInt8) : Res Skb := do
  let (p, t) ← skbPut s 1
  return t.poke p [f (o.pick s t)]

/-- `TAG_A1`. -/
def tagA1 : UInt8 := 0xA1

/-- `TAG_A1_HEAD_ROOM`. -/
def tagA1HeadRoom : ℕ := 4

/-- `MSG_HEAD_LEN`. -/
def msgHeadLen : ℕ := 12

/-- `MSG_CTRL`. -/
def msgCtrl : ℤ := 1

/-- `MSG_DATA`. -/
def msgData : ℤ := 2

/-- The loop of `padding_tagA0`: the sum of the lengths and the queue, whose
buffers are changed in place. -/
def paddingTagA0Loop (o : EvalOrder) : List Skb → UInt8 → ℕ → Res (ℕ × List Skb)
  | [], _, len => .ok (len, [])
  | pos :: apduQ, seq, len => do
    let pos ← skbPushBytes pos [seq]
    let pos ← skbPushValue o pos fun s => u8 s.len
    let pos ← skbPushBytes pos [tagA0]
    let (total, apduQ) ← paddingTagA0Loop o apduQ (seq + 1) (len + pos.len)
    return (total, pos :: apduQ)

/-- `padding_tagA0`. -/
def paddingTagA0 (o : EvalOrder) (apduQ : List Skb) : Res (ℕ × List Skb) :=
  paddingTagA0Loop o apduQ 1 0

/-- `setting_agent_info`; an empty queue has no first buffer to look at. -/
def settingAgentInfo (u : Unspec) (out : Skb) (apduQ : List Skb) : Res Skb := do
  let skb ← derefOption apduQ.head?
  let agent ← skb.agent.deref
  let (_, name) ← fmBytesCopy (fmBytesAlloc (u.addr 0) (u.behind 0) agent.leng) 0 (some agent) 0
    agent.leng
  return { out with agent := match name with
    | none => Ptr.null
    | some a => Ptr.obj a }

/-- The first loop of `padding_tagA1`: the payloads behind each other. -/
def paddingTagA1Body (out : Skb) : List Skb → Res Skb
  | [] => .ok out
  | pos :: cmdQ => do
    let (p, out) ← skbPut out pos.len
    let bs ← memRead pos.buff pos.data pos.len
    paddingTagA1Body (out.poke p bs) cmdQ

/-- The length field of `padding_tagA1`, which is appended from its low byte on. -/
def paddingTagA1Len (o : EvalOrder) (out : Skb) : Res Skb :=
  if 255 < out.len then do
    let out ← skbPutValue o out fun s => u8 s.len
    let out ← skbPutValue o out fun s => u8 (s.len / 256 : ℕ)
    skbPutBytes out [0xFF]
  else skbPutValue o out fun s => u8 s.len

/-- The second part of `padding_tagA1`. The header is appended. -/
def paddingTagA1Header (o : EvalOrder) (out : Skb) : Res Skb := do
  let out ← paddingTagA1Len o out
  skbPutBytes out [tagA1]

/-- `padding_tagA1`. -/
def paddingTagA1 (o : EvalOrder) (out : Skb) (cmdQ : List Skb) : Res Skb := do
  let out ← paddingTagA1Body (skbReserve out tagA1HeadRoom) cmdQ
  paddingTagA1Header o out

/-- What `tsm_vm` does to send the command queue, up to the point where the
reply is queued: the reply and the command queue afterwards. -/
def tsmVmReply (o : EvalOrder) (u : Unspec) (ccb : Ccb) : Res (Skb × List Skb) := do
  let (len, cmdQ) ← paddingTagA0 o ccb.cmdQ
  let out := allocSkb (u.skb 0) (len + msgHeadLen + tagA1HeadRoom)
  let out ← settingAgentInfo u out cmdQ
  let out := { out with session := ccb.session, msgType := msgData }
  let out ← paddingTagA1 o (skbReserve out msgHeadLen) cmdQ
  return (out, cmdQ)

/-- `skip_tagAx`. The byte tested is the one the second pull returns a pointer
to, behind the length byte. -/
def skipTagAx (skb : Skb) : Res Skb := do
  let second := skbPull (skbPull skb 1).2 1
  let p ← derefOption second.1
  let b ← second.2.byte p
  if b = 0xFF then return (skbPull second.2 2).2 else return second.2

/-- `DEFAULT_RSP_FRAG_NUM`. -/
def defaultRspFragNum : ℕ := 16

/-- The body of the loop of `tagA0s_to_fmBytesarray`, up to the test of the
capacity: fragment `i` and the buffer behind it. Each pull returns a pointer to
what is left, so the length is read behind the length byte, and the data behind
the data. -/
def tagA0ToFmBytes (u : Unspec) (i : ℕ) (skb : Skb) : Res (Option FmBytes × Skb) := do
  let second := skbPull (skbPull skb 1).2 1
  let p ← derefOption second.1
  let len ← second.2.byte p
  let third := skbPull second.2 1
  let n : ℤ := (len.toNat : ℤ) - 1
  let data := skbPull third.2 (u32 n)
  let copied ← fmBytesCopyFrom (fmBytesAlloc (u.addr i) (u.behind i) n) 0
    (data.1.map fun q => data.2.buff.drop q) 0 n
  return (copied.2, data.2)

/-- The loop of `tagA0s_to_fmBytesarray`, which fills slot `i` next. The first
argument bounds the rounds; each pulls at least one byte. -/
def tagA0sLoop (u : Unspec) : ℕ → ℕ → Skb → FmBytesArray → Res (FmBytesArray × Skb)
  | 0, _, skb, fba => if 0 < skb.len then .error .hang else .ok (fba, skb)
  | rounds + 1, i, skb, fba =>
    if 0 < skb.len then do
      let next ← tagA0ToFmBytes u i skb
      -- `fmBytes_array_resize` is called with the new size only, in place of the array
      if fba.size - fba.cnt ≤ 1 then .error .wildAccess
      else do
        let fba ← fba.store i next.1
        tagA0sLoop u rounds (i + 1) next.2 { fba with cnt := i + 1 }
    else .ok (fba, skb)

/-- `tagA0s_to_fmBytesarray`. -/
def tagA0sToFmBytesArray (u : Unspec) (skb : Skb) : Res (FmBytesArray × Skb) :=
  tagA0sLoop u skb.len 0 skb (fmBytesArrayAlloc (u.addr skb.len) defaultRspFragNum)

/-- `fmBytes_array_free`. -/
def fmBytesArrayFree : Ptr FmBytesArray → Res Unit
  | .wild => .error .wildAccess
  | _ => .ok ()

/-- The first lines of the loop body: the package behind its header, and the
local `fba`, which is assigned for a new package only. -/
def tsmVmReceive (u : Unspec) (skb : Skb) (fba : Ptr FmBytesArray) :
    Res (Skb × Ptr FmBytesArray) := do
  let skb ← skipTagAx skb
  if skb.isNew then
    let (fba, skb) ← tagA0sToFmBytesArray u skb
    return ({ skb with isNew := false }, .obj fba)
  else return (skb, fba)

/-- `fetch_ccb`: the position of the first CCB of the session. -/
def fetchCcb (ccbList : List Ccb) (session : ℤ) : Option ℕ :=
  ccbList.findIdx? fun ccb => ccb.session == session

/-- `se->ces[ccb_get_PC(CCB)]`, read through. -/
def tsmVmFetchEntry (ccb : Ccb) : Res CodeEntry := do
  let se ← derefOption ccb.se
  if ccb.pc < 0 then Except.error .outOfBounds
  else match se.ces[ccb.pc.toNat]? with
    | none => .error .outOfBounds
    | some slot => derefOption slot

/-- Which bytecode lies at an address. -/
abbrev Image := ℕ → Option Bytecode

/-- `bc_array->bc[ce->code]`, ready to be called. -/
def tsmVmFetchBytecode (img : Image) (ccb : Ccb) (ce : CodeEntry) : Res Bytecode := do
  let p ← ccb.bc.slot ce.code
  match img p with
  | none => .error .badCall
  | some fn => return fn

/-- What a bytecode finds at `&ce->parameters`, the address of the field, where
it expects the value of the field: the two halves of the pointer as `size` and
`cnt`, and as slots whatever lies behind the entry. -/
def CodeEntry.parametersAt (ce : CodeEntry) (operands : List (Option FmBytes)) : FmBytesArray :=
  let p := match ce.parameters with
    | none => 0
    | some fba => fba.addr
  { addr := 0, size := int32 (UInt32.ofNat p), cnt := int32 (UInt32.ofNat (p / 4294967296)),
    array := operands }

/-- The part of `tsm_dev_t` the VM works on. -/
structure Dev where
  /-- Packages to be handled, `router->rpkg_list`. -/
  rpkgList : List Skb
  /-- Replies to be sent, `router->wpkg_list`. -/
  wpkgList : List Skb
  /-- Value of `sem_vm`. -/
  semVm : ℕ
  /-- Value of `sem_router_w`. -/
  semRouterW : ℕ
  /-- The CCBs, oldest first. -/
  ccbList : List Ccb
  /-- Numbers of the packages the VM has passed to `kfree_skb`, latest first. -/
  freed : List ℕ
  deriving DecidableEq, Repr

/-- The device after the CCB at a position has changed. -/
def Dev.setCcb (d : Dev) (idx : ℕ) (ccb : Ccb) : Dev :=
  { d with ccbList := d.ccbList.set idx ccb }

/-- A bytecode about to be called. -/
structure CallSite where
  /-- The package, its response already decoded. -/
  skb : Skb
  /-- The response. -/
  fba : Ptr FmBytesArray
  /-- Position of the CCB. -/
  idx : ℕ
  /-- The CCB. -/
  ccb : Ccb
  /-- The entry fetched. -/
  ce : CodeEntry
  /-- The bytecode. -/
  fn : Bytecode

/-- The loop body up to the call of the bytecode, on the front package. -/
def tsmVmEnter (img : Image) (u : Unspec) (d : Dev) (fba : Ptr FmBytesArray) : Res CallSite := do
  let skb ← derefOption d.rpkgList.head?
  let (skb, fba) ← tsmVmReceive u skb fba
  let idx ← derefOption (fetchCcb d.ccbList skb.session)
  let ccb ← derefOption d.ccbList[idx]?
  let ce ← tsmVmFetchEntry ccb
  let fn ← tsmVmFetchBytecode img ccb ce
  return { skb, fba, idx, ccb, ce, fn }

/-- The call of the bytecode. -/
def CallSite.call (c : CallSite) (u : Unspec) : Res (ℤ × Ccb) :=
  c.fn.call u c.ccb c.fba (c.ce.parametersAt u.operands)

/-- The reply branch of the loop body: the package and the response are freed,
the flag is cleared and the reply is queued and posted. -/
def tsmVmWriteBack (o : EvalOrder) (u : Unspec) (d : Dev) (c : CallSite) (ccb : Ccb) :
    Res (Dev × Ptr FmBytesArray × Ccb) := do
  if ccb.writeBack then
    kfreeSkb c.skb
    fmBytesArrayFree c.fba
    let ccb := { ccb with writeBack := false }
    let (out, cmdQ) ← tsmVmReply o u ccb
    return ({ d with freed := c.skb.index :: d.freed, wpkgList := d.wpkgList ++ [out],
                     semRouterW := d.semRouterW + 1 }, .wild, { ccb with cmdQ := cmdQ })
  else return (d, c.fba, ccb)

/-- The bootstrap branch of the loop body: the package goes back to the queue. -/
def tsmVmBootstrap (d : Dev) (c : CallSite) (ccb : Ccb) : Dev × Ccb :=
  if ccb.bootstrap then
    ({ d with rpkgList := d.rpkgList ++ [{ c.skb with reason := pkgReasonBootstrap }],
              semVm := d.semVm + 1 }, { ccb with bootstrap := false })
  else (d, ccb)

/-- The loop body from the call on. -/
def tsmVmLeave (o : EvalOrder) (u : Unspec) (d : Dev) (c : CallSite) :
    Res (Dev × Ptr FmBytesArray) := do
  let (_, ccb) ← c.call u
  let (d, fba, ccb) ← tsmVmWriteBack o u d c ccb
  let (d, ccb) := tsmVmBootstrap d c ccb
  return (d.setCcb c.idx ccb, fba)

/-- One iteration of the loop of `tsm_vm`, for a thread that `sem_wait` lets
through; `fba` is its local variable. -/
def tsmVm (img : Image) (o : EvalOrder) (u : Unspec) (d : Dev) (fba : Ptr FmBytesArray) :
    Res (Dev × Ptr FmBytesArray) := do
  let c ← tsmVmEnter img u d fba
  tsmVmLeave o u { d with rpkgList := d.rpkgList.tail, semVm := d.semVm - 1 } c

end TsmVm
