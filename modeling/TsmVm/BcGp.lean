import TsmVm.Ccb

/-!
# The GlobalPlatform bytecodes (`bc_gp.c`)

Each of these bytecodes builds commands in fresh buffers, puts them in one of
the two queues of its CCB and sets the flag that tells the VM what to do with
the package. Four of them pass the value of the flag where the CCB belongs.
-/

namespace TsmVm

/-- `MAX_APDU_LEN`. -/
def maxApduLen : ℕ := 300

/-- `TAG_A0_HEAD_ROOM`. -/
def tagA0HeadRoom : ℕ := 3

/-- `_gp_make_apdu`. The variable that receives the address of the data is a
`u8`, so what is copied is the memory at an address below 256. -/
def _gpMakeApdu (cla ins p1 p2 : UInt8) (data : Option FmBytes) (out : Skb) : Res (ℤ × Skb) :=
  if out.buff.length = 0 then .ok (fmSysErrNullPointer, out)
  else
    let len : UInt8 := match data with
      | none => 0
      | some d => u8 d.leng
    let buf : UInt8 := u8 (fmBytesGetBuf data)
    if len ≠ 0 ∧ buf = 0 then .ok (fmGenErrInvalidLen, out)
    else do
      let out ← skbPutBytes out [cla]
      let out ← skbPutBytes out [ins]
      let out ← skbPutBytes out [p1]
      let out ← skbPutBytes out [p2]
      let out ← skbPutBytes out [len]
      if len ≠ 0 then
        let _ ← skbPut out len.toNat
        Except.error .wildAccess
      else return (fmOk, out)

/-- `_gp_select`. -/
def _gpSelect (aid : Option FmBytes) (skb : Skb) : Res (ℤ × Skb) :=
  _gpMakeApdu 0x00 0xA4 0x04 0x00 aid skb

/-- `_gp_init_update`. -/
def _gpInitUpdate (kv : UInt8) (hc : Option FmBytes) (skb : Skb) : Res (ℤ × Skb) :=
  _gpMakeApdu 0x80 0x50 kv 0x00 hc skb

/-- `_gp_ext_auth`. -/
def _gpExtAuth (sl : UInt8) (hc : Option FmBytes) (skb : Skb) : Res (ℤ × Skb) :=
  _gpMakeApdu 0x80 0x82 sl 0x00 hc skb

/-- `_gp_get_status`. -/
def _gpGetStatus (subsets : UInt8) (searchCriteria : Option FmBytes) (skb : Skb) : Res (ℤ × Skb) :=
  _gpMakeApdu 0x80 0xF2 subsets 0x02 searchCriteria skb

/-- `_gp_install`. -/
def _gpInstall (p1 : UInt8) (data : Option FmBytes) (skb : Skb) : Res (ℤ × Skb) :=
  _gpMakeApdu 0x80 0xE6 p1 0x00 data skb

/-- `_gp_load`. -/
def _gpLoad (more blkNum : UInt8) (data : Option FmBytes) (skb : Skb) : Res (ℤ × Skb) :=
  _gpMakeApdu 0x80 0xE8 more blkNum data skb

/-- `_gp_put_key`. -/
def _gpPutKey (kv kid : UInt8) (keyData : Option FmBytes) (skb : Skb) : Res (ℤ × Skb) :=
  _gpMakeApdu 0x80 0xD8 kv kid keyData skb

/-- `_gp_store_data`. -/
def _gpStoreData (p1 blkNum : UInt8) (data : Option FmBytes) (skb : Skb) : Res (ℤ × Skb) :=
  _gpMakeApdu 0x80 0xE2 p1 blkNum data skb

/-- `INSTALL_FOR_INSTALL | INSTALL_FOR_SELECT`. -/
def installForInstallSelect : UInt8 := 0x0C

/-- `INSTALL_FOR_EXTRA`. -/
def installForExtra : UInt8 := 0x10

/-- `INSTALL_FOR_PERSONIZE`. -/
def installForPersonize : UInt8 := 0x20

/-- The uninitialised `u8 buf[MAX_APDU_LEN]` of the install builders. -/
def stackBuf (u : Unspec) : List UInt8 := (List.range maxApduLen).map u.stack

/-- The `fmBytes data` on the stack that describes `len` bytes of `buf`. -/
def stackData (u : Unspec) (buf : List UInt8) (len : ℤ) : FmBytes :=
  { size := maxApduLen, leng := len, addr := u.stackAddr, buf := buf }

/-- Arguments written behind each other with their lengths, as the install
builders do; `none` between two arguments is a reserved byte left as it is. -/
def concatFields : List (Option (Option FmBytes)) → ℕ → List UInt8 → Res (ℕ × List UInt8)
  | [], pos, buf => .ok (pos, buf)
  | none :: fields, pos, buf => concatFields fields (pos + 1) buf
  | some src :: fields, pos, buf => do
    let (n, buf) ← fmbytesConcatWithLen buf pos src
    concatFields fields (pos + n) buf

/-- The common body of the install builders: the fields, and the INSTALL command
whose return value is dropped. -/
def installFields (u : Unspec) (p1 : UInt8) (fields : List (Option (Option FmBytes)))
    (skb : Skb) : Res (ℤ × Skb) := do
  let (pos, buf) ← concatFields fields 0 (stackBuf u)
  let (_, skb) ← _gpInstall p1 (some (stackData u buf pos)) skb
  return (0, skb)

/-- `_gp_install_for_install_selectable`. -/
def _gpInstallForInstallSelectable (u : Unspec)
    (pkgAid appAid insAid priv installParm token : Option FmBytes) (skb : Skb) : Res (ℤ × Skb) :=
  installFields u installForInstallSelect
    [some pkgAid, some appAid, some insAid, some priv, some installParm, some token] skb

/-- `_gp_install_for_personalize`. -/
def _gpInstallForPersonalize (u : Unspec) (aid : Option FmBytes) (skb : Skb) : Res (ℤ × Skb) :=
  installFields u installForPersonize [none, none, some aid, none, none, none] skb

/-- `_gp_install_for_load`, which passes the flag of personalization. -/
def _gpInstallForLoad (u : Unspec) (pkgAid sdAid hash loadParm loadToken : Option FmBytes)
    (skb : Skb) : Res (ℤ × Skb) :=
  installFields u installForPersonize
    [some pkgAid, some sdAid, some hash, some loadParm, some loadToken] skb

/-- `_gp_install_for_extradition`. -/
def _gpInstallForExtradition (u : Unspec) (destAid appAid parm token : Option FmBytes)
    (skb : Skb) : Res (ℤ × Skb) :=
  installFields u installForExtra
    [some destAid, none, some appAid, none, some parm, some token] skb

/-- `_gp_padding_sw`: the status word `90 00` behind every buffer of a queue. -/
def _gpPaddingSw : List Skb → Res (List Skb)
  | [] => .ok []
  | skb :: apdus => do
    let skb ← skbPutBytes skb [0x90]
    let skb ← skbPutBytes skb [0x00]
    let apdus ← _gpPaddingSw apdus
    return skb :: apdus

/-- `apdu_preprocess`, for the `k`-th buffer of a call. -/
def apduPreprocess (u : Unspec) (k : ℕ) (agent : Option FmBytes) : Res Skb := do
  let skb := allocSkb (u.skb k) maxApduLen
  let len ← fmBytesGetLength agent
  let (_, name) ← fmBytesCopy (fmBytesAlloc (u.addr k) (u.behind k) len) 0 agent 0 len
  let skb := { skb with agent := match name with
    | none => Ptr.null
    | some a => Ptr.obj a }
  return skbReserve skb tagA0HeadRoom

/-- `kv->buf[0]`. -/
def firstByte (p : Option FmBytes) : Res UInt8 := do
  let p ← derefOption p
  byteAt p.buf 0

/-- `ccb_set_write_back(fm_true)`: the flag is taken for the CCB. -/
def setWriteBackWithoutCcb : Res Ccb := ccbSetWriteBack .wild true

/-- `gp_select`. -/
def gpSelect : TsmBytecode := fun u ccb _ arg => do
  let agent ← arg.at 0
  let aid ← arg.at 1
  let cmdQ ← skbQueuePurge ccb.cmdQ
  let skb ← apduPreprocess u 0 agent
  let (_, skb) ← _gpSelect aid skb
  let _ ← _gpPaddingSw (cmdQ ++ [skb])
  let ccb ← setWriteBackWithoutCcb
  return (u.ret, ccb)

/-- `gp_init_update`. -/
def gpInitUpdate : TsmBytecode := fun u ccb _ arg => do
  let agent ← arg.at 0
  let kv ← arg.at 1
  let hc ← dataGetByLiteral ccb "host challenge"
  let cmdQ ← skbQueuePurge ccb.cmdQ
  let skb ← apduPreprocess u 0 agent
  let kv ← firstByte kv
  let (_, skb) ← _gpInitUpdate kv hc skb
  let _ ← _gpPaddingSw (cmdQ ++ [skb])
  let ccb ← setWriteBackWithoutCcb
  return (u.ret, ccb)

/-- The common body of the bytecodes that cache one command for MACing: the
queue is purged, the command built by `make` is queued and the package is to be
put back. -/
def cacheApdu (make : Skb → Res (ℤ × Skb)) (ret : ℤ) (u : Unspec) (ccb : Ccb)
    (agent : Option FmBytes) : Res (ℤ × Ccb) := do
  let apduQ ← skbQueuePurge ccb.apduQ
  let skb ← apduPreprocess u 0 agent
  let (_, skb) ← make skb
  let ccb ← ccbSetBootstrap (.obj { ccb with apduQ := apduQ ++ [skb] }) true
  return (ret, ccb)

/-- `gp_ext_auth`. -/
def gpExtAuth : TsmBytecode := fun u ccb _ arg => do
  let agent ← arg.at 0
  let sl ← arg.at 1
  let nhc ← dataGetByLiteral ccb "new host challenge"
  cacheApdu (fun skb => do
    let sl ← firstByte sl
    _gpExtAuth sl nhc skb) u.ret u ccb agent

/-- `gp_get_status`. -/
def gpGetStatus : TsmBytecode := fun u ccb _ arg => do
  let agent ← arg.at 0
  let subset ← arg.at 1
  let searchCriteria ← arg.at 2
  cacheApdu (fun skb => do
    let subset ← firstByte subset
    _gpGetStatus subset searchCriteria skb) u.ret u ccb agent

/-- `gp_install_for_install_make_selectable`. -/
def gpInstallForInstallMakeSelectable : TsmBytecode := fun u ccb _ arg => do
  let agent ← arg.at 0
  let pkgAid ← arg.at 1
  let appAid ← arg.at 2
  let insAid ← arg.at 3
  let priv ← arg.at 4
  let installParm ← dataGetByLiteral ccb "parameter"
  let token ← dataGetByLiteral ccb "token"
  cacheApdu (_gpInstallForInstallSelectable u pkgAid appAid insAid priv installParm token)
    u.ret u ccb agent

/-- `gp_install_for_personalize`. -/
def gpInstallForPersonalize : TsmBytecode := fun u ccb _ arg => do
  let agent ← arg.at 0
  let aid ← arg.at 1
  cacheApdu (_gpInstallForPersonalize u aid) u.ret u ccb agent

/-- `gp_put_key`. -/
def gpPutKey : TsmBytecode := fun u ccb _ arg => do
  let agent ← arg.at 0
  let kv ← arg.at 1
  cacheApdu (fun skb => do
    let kv ← firstByte kv
    _gpPutKey kv 0x81 none skb) u.ret u ccb agent

/-- `MAX_LOAD_DATA_SIZE`. -/
def maxLoadDataSize : ℤ := 232

/-- The `while` loop of `gp_install_for_load_and_load`. The offset `pos` is a
`u8`, and what is left to load is reduced by the offset, not by the size of the
block. The first argument bounds the rounds. -/
def loadLoop (u : Unspec) (agent : Option FmBytes) (content : FmBytes) :
    ℕ → ℕ → ℕ → ℤ → UInt8 → List Skb → Res (List Skb)
  | 0, _, _, capLen, _, apduQ => if 0 < capLen then .error .hang else .ok apduQ
  | rounds + 1, k, pos, capLen, blockNum, apduQ =>
    if 0 < capLen then do
      let skb ← apduPreprocess u k agent
      let data : FmBytes := { size := maxApduLen, leng := 0, addr := content.addr + pos,
                              buf := content.buf.drop pos }
      if maxLoadDataSize < capLen then
        let (_, skb) ← _gpLoad 0x80 blockNum (some (data.setLength maxLoadDataSize)) skb
        let pos := (pos + 232) % 256
        loadLoop u agent content rounds (k + 1) pos (capLen - pos) (blockNum + 1) (apduQ ++ [skb])
      else
        let (_, skb) ← _gpLoad 0x00 blockNum (some (data.setLength capLen)) skb
        let pos := (pos + capLen.toNat) % 256
        loadLoop u agent content rounds (k + 1) pos (capLen - pos) (blockNum + 1) (apduQ ++ [skb])
    else .ok apduQ

/-- `gp_install_for_load_and_load`. -/
def gpInstallForLoadAndLoad : TsmBytecode := fun u ccb _ arg => do
  let agent ← arg.at 0
  let sdAid ← arg.at 1
  let pkgAid ← dataGetByLiteral ccb "cap pkg aid"
  let hash ← dataGetByLiteral ccb "cap hash"
  let loadParm ← dataGetByLiteral ccb "load parameter"
  let content ← dataGetByLiteral ccb "cap content"
  let loadToken ← dataGetByLiteral ccb "token"
  let apduQ ← skbQueuePurge ccb.apduQ
  let capLen ← fmBytesGetLength content
  let content ← derefOption content
  -- install for load
  let skb ← apduPreprocess u 0 agent
  let (_, skb) ← _gpInstallForLoad u pkgAid sdAid hash loadParm loadToken skb
  let apduQ := apduQ ++ [skb]
  -- the first block, with the tag and the length of the whole content
  let skb ← apduPreprocess u 1 agent
  let (berlenLen, berlen) := getBERLen (u32 content.leng) (List.replicate 10 0)
  let first := if capLen < 288 then capLen else 288
  let buf := stackBuf u
  let buf ← memWrite buf maxApduLen 0 [0xC4]
  let buf ← memWrite buf maxApduLen 1 (berlen.take berlenLen)
  let bs ← memRead content.buf 0 first
  let buf ← memWrite buf maxApduLen (1 + berlenLen : ℕ) bs
  let pos := (1 + berlenLen + u32 first) % 256
  let (_, skb) ← _gpLoad (if capLen < 288 then 0x80 else 0) 0 (some (stackData u buf pos)) skb
  let apduQ := apduQ ++ [skb]
  -- the rest
  let pos := u32 first % 256
  let capLen := capLen - pos
  let apduQ ← loadLoop u agent content (2 * capLen.toNat + 2) 2 pos capLen 1 apduQ
  let ccb ← ccbSetBootstrap (.obj { ccb with apduQ := apduQ }) true
  return (0, ccb)

/-- `gp_install_for_extradition`. -/
def gpInstallForExtradition : TsmBytecode := fun u ccb _ arg => do
  let agent ← arg.at 0
  let destAid ← arg.at 1
  let appAid ← arg.at 2
  let parm ← arg.at 3
  let token ← dataGetByLiteral ccb "token"
  cacheApdu (_gpInstallForExtradition u destAid appAid parm token) u.ret u ccb agent

/-- The loop of `gp_store_data` from operand `i`, with `n` operands to go; it runs
to the capacity of the operand array, and names a variable by the operand
structure. -/
def storeDataLoop (u : Unspec) (ccb : Ccb) (agent : Option FmBytes) (arg : FmBytesArray) :
    ℕ → ℕ → UInt8 → List Skb → Res (List Skb)
  | 0, _, _, apduQ => .ok apduQ
  | n + 1, i, blkNum, apduQ => do
    let skb ← apduPreprocess u i agent
    let name ← arg.at i
    let name ← derefOption name
    let parm ← dataGetByName ccb name.structBytes
    let (_, skb) ← _gpStoreData (if (i : ℤ) = arg.size - 1 then 0x80 else 0x00) blkNum parm skb
    storeDataLoop u ccb agent arg n (i + 1) (blkNum + 1) (apduQ ++ [skb])

/-- `gp_store_data`. -/
def gpStoreData : TsmBytecode := fun u ccb _ arg => do
  let agent ← arg.at 0
  let apduQ ← skbQueuePurge ccb.apduQ
  let apduQ ← storeDataLoop u ccb agent arg (arg.size - 1).toNat 1 0 apduQ
  let ccb ← ccbSetBootstrap (.obj { ccb with apduQ := apduQ }) true
  return (0, ccb)

/-- The loop of `gp_traverse` from operand `i`, with `n` operands to go; the whole
queue is padded in every round. -/
def traverseLoop (u : Unspec) (agent : Option FmBytes) (arg : FmBytesArray) :
    ℕ → ℕ → List Skb → Res (List Skb)
  | 0, _, cmdQ => .ok cmdQ
  | n + 1, i, cmdQ => do
    let cmd ← arg.at i
    let len ← fmBytesGetLength cmd
    let cmd ← derefOption cmd
    let skb ← apduPreprocess u i agent
    let (p, skb) ← skbPut skb (u32 len)
    let bs ← memRead cmd.buf 0 len
    let cmdQ ← _gpPaddingSw (cmdQ ++ [skb.poke p bs])
    traverseLoop u agent arg n (i + 1) cmdQ

/-- `gp_traverse`. -/
def gpTraverse : TsmBytecode := fun u ccb _ arg => do
  let agent ← arg.at 0
  let cmdQ ← skbQueuePurge ccb.cmdQ
  let _ ← traverseLoop u agent arg (arg.size - 1).toNat 1 cmdQ
  let ccb ← setWriteBackWithoutCcb
  return (0, ccb)

/-- `gp_msg_macing`. -/
def gpMsgMacing : TsmBytecode := fun _ _ _ _ => do
  let ccb ← setWriteBackWithoutCcb
  return (0, ccb)

end TsmVm
