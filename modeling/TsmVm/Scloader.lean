import TsmVm.CcbCreate
import TsmVm.Lib.Fields

/-!
# The script loader (`tsm_scloader.c`)

A script is read line by line. A line of operands is cut at `,` and `:`; what
stands before the first delimiter is the number of the bytecode, the rest are
its operands, kept as the text they are. Entries are stored in a table of slots
that grows with `memcpy_int`, which moves one byte a round.
-/

namespace TsmVm

/-- The loop of `last_index_of`, from index `n` down; index 0 is never looked at. -/
def lastIndexOfLoop (str : List UInt8) (delimiter : UInt8) : ℕ → Option ℕ
  | 0 => none
  | n + 1 => if str[n + 1]? = some delimiter then some (n + 1) else lastIndexOfLoop str delimiter n

/-- `last_index_of` on a string. -/
def lastIndexOf (str : List UInt8) (delimiter : UInt8) : Option ℕ :=
  lastIndexOfLoop str delimiter str.length

/-- What `get_filename_from_path` takes for the file name. -/
def fileNameOf (path : List UInt8) : List UInt8 :=
  match lastIndexOf path 47 with
  | none => path
  | some index => path.drop (index + 1)

/-- `get_filename_from_path` into a zeroed buffer of `size` bytes, read as a
string. A name of just this length is left without a terminator, or has it
stored behind the buffer. -/
def getFilenameFromPath (path : List UInt8) (size : ℕ) : Res (List UInt8) :=
  if size < (fileNameOf path).length then .ok []
  else if (fileNameOf path).length = size then .error .outOfBounds
  else .ok (fileNameOf path)

/-- `fgets` for at most `n` characters: the line and the rest of the file. -/
def fgets : ℕ → List UInt8 → List UInt8 × List UInt8
  | 0, file => ([], file)
  | _ + 1, [] => ([], [])
  | n + 1, b :: file =>
    if b = 10 then ([b], file)
    else
      let line := fgets n file
      (b :: line.1, line.2)

/-- The lines `fgets(line,sizeof(line),fhead)` returns until the end of the file;
the first argument bounds their number. -/
def fgetsAll : ℕ → List UInt8 → List (List UInt8)
  | 0, _ => []
  | n + 1, file =>
    if file = [] then []
    else (fgets 1023 file).1 :: fgetsAll n (fgets 1023 file).2

/-- `is_parameterless`. -/
def isParameterless (line : List UInt8) (len : ℕ) : Bool := (line.take len).all (· ≠ 44)

/-- The delimiters of `strtok`. -/
def isDelim (b : UInt8) : Bool := b = 44 || b = 58

/-- `DEFAULT_PARAM_NUM`. -/
def defaultParamNum : ℕ := 5

/-- `DEFAULT_SC_ENTRY_NUM`. -/
def defaultScEntryNum : ℕ := 128

/-- The two statements that take the line ending off a line of length `len`. -/
def chomp (line : List UInt8) (len : ℕ) : Res (List UInt8) := do
  let last ← byteAt line ((len : ℤ) - 1)
  let line := if last = 10 ∨ last = 13 then line.set (len - 1) 0 else line
  let prev ← byteAt line ((len : ℤ) - 2)
  return if prev = 13 then line.set (len - 2) 0 else line

/-- The inner loop of `scloader_load`, which stores operand `i` next; `text` is
what `strtok` has left. The first argument bounds the rounds. -/
def paramLoop (u : Unspec) : ℕ → List UInt8 → ℕ → FmBytesArray → Res FmBytesArray
  | 0, text, _, parameters =>
    if (Fields.next isDelim text).isSome then .error .hang else .ok parameters
  | n + 1, text, i, parameters =>
    match Fields.next isDelim text with
    | none => .ok parameters
    | some (p, text) => do
      let parm := fmBytesAlloc (u.addr (i + 3)) (u.behind (i + 3)) p.length
      let copied ← fmBytesCopyFrom parm 0 (some (p ++ [0])) 0 p.length
      let parameters :=
        if parameters.size - parameters.cnt < 1 then
          fmBytesArrayResize (u.addr 2) parameters (2 * defaultParamNum)
        else parameters
      let parameters ← parameters.store i copied.2
      paramLoop u n text (i + 1) { parameters with cnt := i + 1 }

/-- The entry a line without its ending becomes; `len` is the length it had with
it. Where `sscanf` finds no number the zero of `calloc` stays, as `atoi` would
return it. -/
def codeEntryOf (u : Unspec) (addr : ℕ) (line : List UInt8) (len : ℕ) : Res CodeEntry :=
  if isParameterless line len then do
    let code ← atoi line
    return { addr := addr, code := code, parameters := none }
  else do
    let text ← cString line
    let first ← derefOption (Fields.next isDelim text)
    let code ← atoi (first.1 ++ [0])
    let parameters ← paramLoop u first.2.length first.2 0
      (fmBytesArrayAlloc (u.addr 1) defaultParamNum)
    return { addr := addr, code := code, parameters := some parameters }

/-- The body of the loop of `scloader_load` up to the table, on what `fgets` has
read into the zeroed line buffer; nothing for a line that is skipped. -/
def loadLine (u : Unspec) (addr : ℕ) (read : List UInt8) : Res (Option CodeEntry) := do
  let line := read ++ List.replicate (1024 - read.length) 0
  let first ← byteAt line 0
  if first = 35 ∨ first = 13 then return none
  else
    let text ← cString line
    let line ← chomp line text.length
    let ce ← codeEntryOf u addr line text.length
    return some ce

/-- `se_alloc`. -/
def seAlloc (name : List UInt8) : ScriptEntry :=
  { name := name, size := defaultScEntryNum, codeNum := 0,
    ces := List.replicate defaultScEntryNum none }

/-- A slot of the table as the pointer it holds. -/
def slotBytes (entryAddr : CodeEntry → ℕ) (slot : Option CodeEntry) : List UInt8 :=
  leBytes 8 (slot.elim 0 entryAddr)

/-- `se_resize`. The pointers go through `memcpy_int`; a slot keeps its entry if
the whole pointer has arrived. The recorded size stays. -/
def seResize (entryAddr : CodeEntry → ℕ) (se : ScriptEntry) : Res ScriptEntry := do
  let slots := 2 * se.size.toNat
  let newCes ← memcpyInt (List.replicate (8 * slots) 0) (se.ces.flatMap (slotBytes entryAddr))
    se.codeNum
  let ces := (List.range slots).map fun i =>
    (se.ces.getD i none).filter fun ce => leValue ((newCes.drop (8 * i)).take 8) = entryAddr ce
  return { se with ces := ces }

/-- The end of the loop body: the entry goes to the next slot. -/
def storeEntry (entryAddr : CodeEntry → ℕ) (se : ScriptEntry) (ce : CodeEntry) :
    Res ScriptEntry := do
  let se ← (if se.size - se.codeNum < 1 then seResize entryAddr se else .ok se)
  if 0 ≤ se.codeNum ∧ se.codeNum < se.ces.length then
    return { se with ces := se.ces.set se.codeNum.toNat (some ce), codeNum := se.codeNum + 1 }
  else Except.error .outOfBounds

/-- The loop of `scloader_load` over the lines `fgets` returns. What C leaves
open is given for each entry; block 0 is the entry itself. -/
def scloaderLoop (us : ℕ → Unspec) : List (List UInt8) → ℕ → ScriptEntry → Res ScriptEntry
  | [], _, se => .ok se
  | read :: reads, addr, se => do
    let ce ← loadLine (us addr) addr read
    match ce with
    | none => scloaderLoop us reads addr se
    | some ce => do
      let se ← storeEntry (fun ce => (us ce.addr.toNat).addr 0) se ce
      scloaderLoop us reads (addr + 1) se

/-- `scloader_load`, with the contents of the files that can be opened. -/
def scloaderLoad (us : ℕ → Unspec) (files : List UInt8 → Option (List UInt8))
    (path : List UInt8) : Res (Option ScriptEntry) :=
  match files path with
  | none => .ok none
  | some file => do
    let name ← getFilenameFromPath path 512
    let se ← scloaderLoop us (fgetsAll file.length file) 0 (seAlloc name)
    return some se

end TsmVm
