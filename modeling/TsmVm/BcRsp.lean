import TsmVm.Ccb

/-!
# The response bytecodes (`bc_rsp.c`)

These bytecodes look at the response and set the program counter or leave it.
Where each of them jumps to, if it jumps, is computed by a function of its own;
the bytecode performs that jump.
-/

namespace TsmVm

/-- The loop of `_rsp_test_tail` from fragment `i`, with `n` fragments to go. -/
def _rspTestTailLoop (fba : FmBytesArray) (expBuf : Option FmBytes) : ℕ → ℕ → Res Bool
  | 0, _ => .ok true
  | n + 1, i => do
    let frag ← fba.at i
    let len ← fmBytesGetLength expBuf
    let fragLen ← fmBytesGetLength frag
    let same ← fmBytesCompare frag (fragLen - len) expBuf 0 len
    if same = false then return false else _rspTestTailLoop fba expBuf n (i + 1)

/-- `_rsp_test_tail`. -/
def _rspTestTail (rsp : Ptr FmBytesArray) (expBuf : Option FmBytes) : Res Bool := do
  let fba ← rsp.deref
  _rspTestTailLoop fba expBuf fba.cnt.toNat 0

/-- The loop of `_rsp_test_head` from fragment `i`, with `n` fragments to go. -/
def _rspTestHeadLoop (fba : FmBytesArray) (expBuf : Option FmBytes) : ℕ → ℕ → Res Bool
  | 0, _ => .ok true
  | n + 1, i => do
    let frag ← fba.at i
    let len ← fmBytesGetLength expBuf
    let same ← fmBytesCompare frag 0 expBuf 0 len
    if same = false then return false else _rspTestHeadLoop fba expBuf n (i + 1)

/-- `_rsp_test_head`. -/
def _rspTestHead (rsp : Ptr FmBytesArray) (expBuf : Option FmBytes) : Res Bool := do
  let fba ← rsp.deref
  _rspTestHeadLoop fba expBuf fba.cnt.toNat 0

/-- `ccb_set_PC` where a jump is taken. -/
def jumpTo (ccb : Ccb) : Option ℤ → Ccb
  | none => ccb
  | some addr => ccbSetPC ccb addr

/-- Where the four tests jump: to the second operand when the test of the
response against the first one comes out as `jumpOn`. -/
def rspTestTarget (test : Ptr FmBytesArray → Option FmBytes → Res Bool) (jumpOn : Bool)
    (u : Unspec) (rsp : Ptr FmBytesArray) (arg : FmBytesArray) : Res (Option ℤ) := do
  let expBuf ← arg.at 0
  let addrBuf ← arg.at 1
  let addr ← fmBytes2intBE (u.word 0) addrBuf
  let result ← test rsp expBuf
  return if result = jumpOn then some addr else none

/-- The common body of the four tests. -/
def rspTest (test : Ptr FmBytesArray → Option FmBytes → Res Bool) (jumpOn : Bool) : TsmBytecode :=
  fun u ccb rsp arg =>
    if arg.size ≠ 2 then .ok (fmGenErrInvalidParm, ccb)
    else do
      let target ← rspTestTarget test jumpOn u rsp arg
      return (0, jumpTo ccb target)

/-- `rsp_test_tail_jne`: jumps `if(!_rsp_test_tail(rsp,exp_buf))`. -/
def rspTestTailJne : TsmBytecode := rspTest _rspTestTail false

/-- `rsp_test_tail_je`: jumps `if(_rsp_test_tail(rsp,exp_buf))`. -/
def rspTestTailJe : TsmBytecode := rspTest _rspTestTail true

/-- `rsp_test_head_jne`: jumps `if(_rsp_test_head(rsp,exp_buf) != 0)`. -/
def rspTestHeadJne : TsmBytecode := rspTest _rspTestHead true

/-- `rsp_test_head_je`: jumps `if(_rsp_test_head(rsp,exp_buf) == 0)`. -/
def rspTestHeadJe : TsmBytecode := rspTest _rspTestHead false

/-- Where `rsp_is_scp02_ok` jumps: to its operand unless the two cryptograms
compare equal. -/
def rspIsScp02OkTarget (u : Unspec) (ccb : Ccb) (arg : FmBytesArray) : Res (Option ℤ) := do
  let addrBuf ← arg.at 0
  let cardCrypt ← dataGetByLiteral ccb "card cryptogram"
  let calcCrypt ← dataGetByLiteral ccb "calc cryptogram"
  let addr ← fmBytes2intBE (u.word 0) addrBuf
  let len ← fmBytesGetLength calcCrypt
  let same ← fmBytesCompare cardCrypt 0 calcCrypt 0 len
  return if same = false then some addr else none

/-- `rsp_is_scp02_ok`. -/
def rspIsScp02Ok : TsmBytecode := fun u ccb _ arg => do
  let target ← rspIsScp02OkTarget u ccb arg
  return (0, jumpTo ccb target)

/-- Where `rsp_is_app_exsit_je` jumps: to the second operand when the first one
occurs in the first fragment. -/
def rspIsAppExsitJeTarget (u : Unspec) (rsp : Ptr FmBytesArray) (arg : FmBytesArray) :
    Res (Option ℤ) := do
  let appAid ← arg.at 0
  let addrBuf ← arg.at 1
  let fba ← rsp.deref
  let resp ← fba.at 0
  let len ← fmBytesGetLength resp
  let aidLen ← fmBytesGetLength appAid
  let addr ← fmBytes2intBE (u.word 0) addrBuf
  let resp ← derefOption resp
  let appAid ← derefOption appAid
  let found ← fmStrstr resp.buf len appAid.buf aidLen
  return if found.isSome then some addr else none

/-- `rsp_is_app_exsit_je`. -/
def rspIsAppExsitJe : TsmBytecode := fun u ccb rsp arg => do
  let target ← rspIsAppExsitJeTarget u rsp arg
  return (0, jumpTo ccb target)

/-- Where `rsp_is_personalized_je` jumps: to its operand when everything between
the headers and the status word of the first fragment is zero. -/
def rspIsPersonalizedJeTarget (u : Unspec) (rsp : Ptr FmBytesArray) (arg : FmBytesArray) :
    Res (Option ℤ) := do
  let addrBuf ← arg.at 0
  let fba ← rsp.deref
  let resp ← fba.at 0
  let addr ← fmBytes2intBE (u.word 0) addrBuf
  let stop ← fmBytesGetLength resp
  let resp ← derefOption resp
  -- skip A3, then its length, then A2, its length and the sequence number
  let lead ← byteAt resp.buf 1
  let p : ℤ := (if lead = 0xFF then 4 else 2) + 3
  let zero ← isAllZero resp.buf p (stop - p - 2)
  return if zero then some addr else none

/-- `rsp_is_personalized_je`. -/
def rspIsPersonalizedJe : TsmBytecode := fun u ccb rsp arg => do
  let target ← rspIsPersonalizedJeTarget u rsp arg
  return (0, jumpTo ccb target)

/-- Where `rsp_is_card_active_je` jumps: to its operand when the first fragment
does not contain the answer of an inactive card. -/
def rspIsCardActiveJeTarget (u : Unspec) (rsp : Ptr FmBytesArray) (arg : FmBytesArray) :
    Res (Option ℤ) := do
  let addrBuf ← arg.at 0
  let fba ← rsp.deref
  let resp ← fba.at 0
  let addr ← fmBytes2intBE (u.word 0) addrBuf
  let len ← fmBytesGetLength resp
  let resp ← derefOption resp
  let found ← fmStrstr resp.buf len [0x66, 0x10] 2
  return if found.isNone then some addr else none

/-- `rsp_is_card_active_je`. -/
def rspIsCardActiveJe : TsmBytecode := fun u ccb rsp arg => do
  let target ← rspIsCardActiveJeTarget u rsp arg
  return (0, jumpTo ccb target)

end TsmVm
