import TsmVm.Ccb
import TsmVm.Lib.Simulates

/-!
# The data bytecodes (`bc_data.c`)

These bytecodes write the variable environment and nothing else. They do not
agree on what names a variable: some pass the operand structure itself where the
table expects a string, some its buffer, some a fresh string they never fill,
and one the value bound to the name. In front of them stands a search for a
fragment of a response, which none of them uses.
-/

namespace TsmVm

/-- `TAG_A0`. -/
def tagA0 : UInt8 := 0xA0

/-- Memory that can be read, from an address on. -/
structure MemBlock where
  addr : ℕ
  bytes : List UInt8

/-- What can be read from `x` on. -/
def readableAt (m : List MemBlock) (x : ℕ) : List UInt8 :=
  match m.find? fun b => b.addr ≤ x ∧ x ≤ b.addr + b.bytes.length with
  | none => []
  | some b => b.bytes.drop (x - b.addr)

/-- A pointer that is returned by a function without a prototype: its low 32 bits arrive as
an `int`, which is extended with its sign to a pointer again. -/
def throughInt (x : ℕ) : ℕ :=
  if x % 4294967296 < 2147483648 then x % 4294967296
  else x % 4294967296 + 18446744069414584320

/-- `_skip_Tag_Ax`, which `bc_data.c` has no prototype of. -/
def skipTagAxAt (m : List MemBlock) (point : ℕ) : Res ℕ := do
  let skipped ← skipTagAxOffset (readableAt m point)
  return throughInt (point + skipped)

/-- The end of `_get_Tag_A0_at` where the fragment is found: its `n` bytes, which are the
first of `p`. A block of a negative size is `NULL`. -/
def tagA0Data (u : Unspec) (p : List UInt8) (n : ℤ) : Res (Option FmBytes) := do
  let data ← derefOption (fmBytesAlloc (u.addr 0) (u.behind 0) n)
  let bs ← memRead p 0 n
  let buf ← memWrite data.buf data.size.toNat 0 bs
  return some ({ data with buf := buf }.setLength n)

/-- The loop of `_get_Tag_A0_at` up to `stop`. The first number bounds the rounds; each
moves `point` by two bytes or more. -/
def getTagA0Loop (u : Unspec) (m : List MemBlock) (seq : UInt8) (stop : ℕ) :
    ℕ → ℕ → Res (Option FmBytes)
  | 0, point => if point < stop then .error .hang else .ok none
  | rounds + 1, point =>
    if point < stop then do
      let tag ← byteAt (readableAt m point) 0
      if tag = tagA0 then
        let len ← getTagAxLen (readableAt m point)
        let point ← skipTagAxAt m point
        let b ← byteAt (readableAt m point) 0
        if b = seq then tagA0Data u (readableAt m (point + 1)) ((len : ℤ) - 3)
        else getTagA0Loop u m seq stop rounds (point + len)
      else return none
    else .ok none

/-- `_get_Tag_A0_at` on the message at `p`. -/
def getTagA0At (u : Unspec) (m : List MemBlock) (p : ℕ) (seq : UInt8) : Res (Option FmBytes) := do
  let len ← getTagAxLen (readableAt m p)
  let point ← skipTagAxAt m p
  getTagA0Loop u m seq (point + len) len point

/-- An operand structure taken for a C string. -/
def structText (p : Option FmBytes) : Res (List UInt8) := do
  let p ← derefOption p
  cString p.structBytes

/-- The buffer of an operand taken for a C string. -/
def bufText (p : Option FmBytes) : Res (List UInt8) := do
  let p ← derefOption p
  cString p.buf

/-- The loop four of the bytecodes consist of: each round works on `width`
operands, and with operands that do not come out even there is none. -/
def dataGroups (width : ℤ) (round : ℕ → Bre → Res Bre) (ccb : Ccb) (arg : FmBytesArray) :
    Res (ℤ × Ccb) :=
  if arg.cnt.tmod width ≠ 0 then .ok (-1, ccb)
  else do
    let bre ← loopFrom round (arg.cnt / width).toNat 0 ccb.bre
    return (0, { ccb with bre := bre })

/-- The value `data_set` makes of a hexadecimal operand. -/
def hexValue (u : Unspec) (k : ℕ) (src : Option FmBytes) : Res (Option FmBytes) := do
  let leng ← fmBytesGetLength src
  let (_, hex) ← hexstrToHex src (fmBytesAlloc (u.addr k) (u.behind k) (leng.tdiv 2))
  return hex

/-- The round of `data_set` on pair `k`. -/
def dataSetRound (u : Unspec) (arg : FmBytesArray) (k : ℕ) (bre : Bre) : Res Bre := do
  let src ← arg.at (2 * k : ℕ)
  let hex ← hexValue u k src
  let name ← arg.at (2 * k + 1 : ℕ)
  -- the key is the structure `arg->array[i+1]`, not its buffer
  let text ← structText name
  zcHashtablePut bre ⟨text, none⟩ hex

/-- `data_set,data0:name0,data1:name1`. -/
def dataSet : TsmBytecode := fun u ccb _ arg => dataGroups 2 (dataSetRound u arg) ccb arg

/-- The fresh string the extraction bytecodes take for a name, of which only the
terminator is ever written. -/
def freshText (name : Option FmBytes) : Res (List UInt8) := do
  let nameLen ← fmBytesGetLength name
  if nameLen < 0 then Except.error .outOfBounds
  cString (List.replicate (nameLen + 1).toNat 0)

/-- The value the extraction bytecodes cut from `raw`. -/
def cutValue (u : Unspec) (k : ℕ) (raw : Option FmBytes) (start stop : ℤ) :
    Res (Option FmBytes) := do
  let (_, data) ← fmBytesCopy (fmBytesAlloc (u.addr k) (u.behind k) (stop - start + 1)) 0 raw start
    (stop - start + 1)
  return data

/-- The round of `data_extract_rsp` on tuple `k`. -/
def dataExtractRspRound (u : Unspec) (rsp : Ptr FmBytesArray) (arg : FmBytesArray) (k : ℕ)
    (bre : Bre) : Res Bre := do
  let frm ← arg.at (4 * k : ℕ) >>= fmBytes2intBE (u.word (3 * k))
  let start ← arg.at (4 * k + 1 : ℕ) >>= fmBytes2intBE (u.word (3 * k + 1))
  let stop ← arg.at (4 * k + 2 : ℕ) >>= fmBytes2intBE (u.word (3 * k + 2))
  let name ← arg.at (4 * k + 3 : ℕ)
  let text ← freshText name
  let fba ← rsp.deref
  let raw ← fba.at frm
  let data ← cutValue u k raw start stop
  zcHashtablePut bre ⟨text, none⟩ data

/-- `data_extract_rsp,frm:start:end:name,…`. -/
def dataExtractRsp : TsmBytecode := fun u ccb rsp arg =>
  dataGroups 4 (dataExtractRspRound u rsp arg) ccb arg

/-- The round of `data_extract` on tuple `k`. -/
def dataExtractRound (u : Unspec) (arg : FmBytesArray) (k : ℕ) (bre : Bre) : Res Bre := do
  let source ← arg.at (4 * k : ℕ)
  -- `arg->array[i+0]` is passed where a string is expected
  let src ← structText source
  let raw ← zcHashtableGet bre src
  let start ← arg.at (4 * k + 1 : ℕ) >>= fmBytes2intBE (u.word (2 * k))
  let stop ← arg.at (4 * k + 2 : ℕ) >>= fmBytes2intBE (u.word (2 * k + 1))
  let name ← arg.at (4 * k + 3 : ℕ)
  let text ← freshText name
  let data ← cutValue u k raw start stop
  zcHashtablePut bre ⟨text, none⟩ data

/-- `data_extract,src0:start0:end0:dest0,…`. -/
def dataExtract : TsmBytecode := fun u ccb _ arg => dataGroups 4 (dataExtractRound u arg) ccb arg

/-- `data_add_len`, not written yet. -/
def dataAddLen : TsmBytecode := fun _ ccb _ _ => .ok (5, ccb)

/-- The first loop of `data_concat`: the sum of the lengths of the parts. -/
def dataConcatLen (bre : Bre) (arg : FmBytesArray) : ℕ → ℕ → ℤ → Res ℤ
  | 0, _, len => .ok len
  | n + 1, i, len => do
    let text ← arg.at i >>= bufText
    let sub ← zcHashtableGet bre text
    let leng ← fmBytesGetLength sub
    dataConcatLen bre arg n (i + 1) (len + leng)

/-- The second loop of `data_concat`: the parts are copied behind each other. -/
def dataConcatCopy (bre : Bre) (arg : FmBytesArray) :
    ℕ → ℕ → ℤ → Option FmBytes → Res (Option FmBytes)
  | 0, _, _, des => .ok des
  | n + 1, i, offset, des => do
    let text ← arg.at i >>= bufText
    let sub ← zcHashtableGet bre text
    let leng ← fmBytesGetLength sub
    let (_, des) ← fmBytesCopy des offset sub 0 leng
    dataConcatCopy bre arg n (i + 1) (offset + leng) des

/-- `data_concat,sub0,sub1,subn,name`. -/
def dataConcat : TsmBytecode := fun u ccb _ arg => do
  let parts := (arg.cnt - 1).toNat
  let len ← dataConcatLen ccb.bre arg parts 0 0
  let text ← arg.at parts >>= bufText
  let name ← zcHashtableGet ccb.bre text
  let des ← dataConcatCopy ccb.bre arg parts 0 0 (fmBytesAlloc (u.addr 0) (u.behind 0) len)
  -- `name` is the value bound to the last operand; its buffer becomes the key
  let name ← derefOption name
  let key ← cString name.buf
  let bre ← zcHashtablePut ccb.bre ⟨key, some name.addr⟩ des
  return (0, { ccb with bre := bre })

/-- The inner loop of `data_reverse` from byte `j`, with `n` bytes to go. -/
def dataReverseBytes (str0 : List UInt8) (size : ℕ) : ℕ → ℕ → List UInt8 → Res (List UInt8)
  | 0, _, str1 => .ok str1
  | n + 1, j, str1 => do
    let b ← byteAt str0 j
    let str1 ← memWrite str1 size j [~~~b]
    dataReverseBytes str0 size n (j + 1) str1

/-- The value `data_reverse` makes of a source. Its length stays that of a fresh
`fmBytes`. -/
def dataReverseValue (u : Unspec) (k : ℕ) (src : Option FmBytes) : Res (Option FmBytes) := do
  let len ← fmBytesGetLength src
  let src ← derefOption src
  match fmBytesAlloc (u.addr k) (u.behind k) len with
  | none => return none
  | some d => do
    let buf ← dataReverseBytes src.buf d.size.toNat len.toNat 0 d.buf
    return some { d with buf := buf }

/-- The round of `data_reverse` on pair `k`. -/
def dataReverseRound (u : Unspec) (arg : FmBytesArray) (k : ℕ) (bre : Bre) : Res Bre := do
  let source ← arg.at (2 * k : ℕ)
  let text ← bufText source
  let src ← zcHashtableGet bre text
  let des ← arg.at (2 * k + 1 : ℕ)
  let desData ← dataReverseValue u k src
  let key ← bufText des
  zcHashtablePut bre ⟨key, none⟩ desData

/-- `data_reverse,src0:des0,src1:des1`. -/
def dataReverse : TsmBytecode := fun u ccb _ arg => dataGroups 2 (dataReverseRound u arg) ccb arg

end TsmVm
