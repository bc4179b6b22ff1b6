import TsmVm.FmHashtable
import TsmVm.FmSkbuff
import TsmVm.FmUtil

/-!
# Card control blocks (`tsm_ccb.c`, `tsm_scloader.h`)

A CCB is the state of one session: the script it runs and the program counter
into it, the table of bytecodes, the variable environment, the two queues of
commands and the two flags by which a bytecode tells the VM what to do next.
Besides, this module collects what C leaves open for one call.
-/

namespace TsmVm

/-- `code_entry_t`: one line of a script. -/
structure CodeEntry where
  /-- Position in the script. -/
  addr : ℤ
  /-- Number of the bytecode. -/
  code : ℤ
  /-- Operands, `NULL` for a line without any. -/
  parameters : Option FmBytesArray
  deriving DecidableEq, Repr

/-- `script_entry_t`. The list holds the allocated slots of `ces`. -/
structure ScriptEntry where
  /-- File name of the script. -/
  name : List UInt8
  /-- Number of slots, as recorded. -/
  size : ℤ
  /-- Number of entries. -/
  codeNum : ℤ
  /-- The slots. -/
  ces : List (Option CodeEntry)
  deriving DecidableEq, Repr

/-- `byte_code_t`: the table from numbers to function pointers of eight bytes,
as it lies in memory. -/
structure ByteCode where
  /-- Number of slots. -/
  cnt : ℤ
  /-- The memory at `bc`. -/
  bc : List UInt8
  deriving DecidableEq, Repr

/-- Reading `bc_array->bc[code]`, a function pointer. -/
def ByteCode.slot (t : ByteCode) (code : ℤ) : Res ℕ := do
  let bytes ← memRead t.bc (8 * code) 8
  return leValue bytes

/-- Reading a slot of the table. -/
theorem slot_natCast {t : ByteCode} {k : ℕ} (h : 8 * k + 8 ≤ t.bc.length) :
    t.slot k = .ok (leValue ((t.bc.drop (8 * k)).take 8)) := by
  have hread := memRead_natCast t.bc (8 * k) 8
  rw [List.length_drop, if_pos (by omega)] at hread
  have hcast : ((8 * k : ℕ) : ℤ) = 8 * (k : ℤ) := by push_cast; rfl
  rw [hcast] at hread
  unfold ByteCode.slot
  change (memRead t.bc (8 * (k : ℤ)) ((8 : ℕ) : ℤ) >>= _) = _
  rw [hread]
  rfl

/-- A slot of eight zero bytes. -/
theorem slot_zero {cnt : ℤ} {mem : List UInt8} {j : ℕ}
    (h : ∀ i, 8 * j ≤ i → i < 8 * j + 8 → mem[i]? = some 0) :
    ({ cnt := cnt, bc := mem } : ByteCode).slot j = .ok 0 := by
  have hlen : 8 * j + 8 ≤ mem.length := by
    have := (List.getElem?_eq_some_iff.mp (h (8 * j + 7) (by omega) (by omega))).1
    omega
  have hbytes : (mem.drop (8 * j)).take 8 = List.replicate 8 0 := by
    refine List.eq_replicate_iff.mpr ⟨by rw [List.length_take, List.length_drop]; omega, ?_⟩
    intro b hb
    obtain ⟨i, hi, rfl⟩ := List.mem_iff_getElem.mp hb
    rw [List.length_take] at hi
    have hget := h (8 * j + i) (by omega) (by omega)
    rw [List.getElem_take, List.getElem_drop]
    exact (List.getElem?_eq_some_iff.mp hget).2
  rw [slot_natCast hlen, hbytes, leValue_replicate_zero]

/-- `tsm_ccb_t`. -/
structure Ccb where
  /-- Program counter. -/
  pc : ℤ
  /-- The VM is to send the command queue. -/
  writeBack : Bool
  /-- The VM is to put the package back. -/
  bootstrap : Bool
  /-- Session number. -/
  session : ℤ
  /-- Commands to send. -/
  cmdQ : List Skb
  /-- Commands waiting for a MAC. -/
  apduQ : List Skb
  /-- Bytecode table. -/
  bc : ByteCode
  /-- Script, `NULL` when it could not be loaded. -/
  se : Option ScriptEntry
  /-- Variable environment. -/
  bre : Bre
  deriving DecidableEq, Repr

/-- `ccb_set_PC`. -/
def ccbSetPC (ccb : Ccb) (addr : ℤ) : Ccb := { ccb with pc := addr }

/-- `ccb_set_write_back`, on whatever is passed for the CCB. -/
def ccbSetWriteBack (ccb : Ptr Ccb) (result : Bool) : Res Ccb := do
  let ccb ← ccb.deref
  return { ccb with writeBack := result }

/-- `ccb_set_bootstrap`, on whatever is passed for the CCB. -/
def ccbSetBootstrap (ccb : Ptr Ccb) (result : Bool) : Res Ccb := do
  let ccb ← ccb.deref
  return { ccb with bootstrap := result }

/-- A string literal of the source, without its terminator. -/
def literal (s : String) : List UInt8 := s.toList.map fun c => UInt8.ofNat c.toNat

/-- `data_get_by_name`; `name` is the memory the second argument points to. -/
def dataGetByName (ccb : Ccb) (name : List UInt8) : Res (Option FmBytes) := do
  let text ← cString name
  zcHashtableGet ccb.bre text

/-- `data_get_by_name` on a string literal. -/
def dataGetByLiteral (ccb : Ccb) (name : String) : Res (Option FmBytes) :=
  dataGetByName ccb (literal name ++ [0])

/-- The memory at an `fmBytes` structure itself, which some bytecodes pass where
a string is expected: two `int`s and a pointer. -/
def FmBytes.structBytes (p : FmBytes) : List UInt8 :=
  leBytes 4 (u32 p.size) ++ leBytes 4 (u32 p.leng) ++ leBytes 8 p.addr

/-- What C leaves open for one call: the addresses the allocator returns and
the memory behind its blocks, and what uninitialised variables and freshly
allocated structures hold. Blocks are numbered in the order of allocation. -/
structure Unspec where
  /-- Address of the `k`-th block. -/
  addr : ℕ → ℕ
  /-- No block lies at `NULL`. -/
  addr_ne_zero : ∀ k, addr k ≠ 0
  /-- Memory readable behind the `k`-th block. -/
  behind : ℕ → List UInt8
  /-- Value of the `k`-th uninitialised `int`. -/
  word : ℕ → UInt32
  /-- Bytes of an uninitialised local buffer. -/
  stack : ℕ → UInt8
  /-- Address of that buffer. -/
  stackAddr : ℕ
  /-- Fields of the `k`-th socket buffer before they are assigned. -/
  skb : ℕ → Skb
  /-- Return value of a function that returns an uninitialised variable. -/
  ret : ℤ
  /-- What the memory behind a code entry holds, read as operand slots. -/
  operands : List (Option FmBytes)

/-- `FM_OK`. -/
def fmOk : ℤ := 0

/-- `FM_SYS_ERR_NULL_POINTER`, as an `int`. -/
def fmSysErrNullPointer : ℤ := -2147483648

/-- `FM_GEN_ERR_INVALID_LEN`, as an `int`. -/
def fmGenErrInvalidLen : ℤ := -2147483392

/-- `FM_GEN_ERR_INVALID_PARM`, as an `int`. -/
def fmGenErrInvalidParm : ℤ := -2147483390

/-- `tsm_bytecode`: a bytecode is called with the CCB, the response and its
operands; it returns a number and leaves the CCB changed. -/
abbrev TsmBytecode := Unspec → Ccb → Ptr FmBytesArray → FmBytesArray → Res (ℤ × Ccb)

end TsmVm
