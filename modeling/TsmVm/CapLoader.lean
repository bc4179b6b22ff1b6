import TsmVm.Ccb

/-!
# The CAP loader (`cap_loader.c`)

The components of a CAP file are read one by one into a buffer that grows when the next
one does not fit. The AID of the package is taken out of the first component as soon as
it is there, those of the applets out of the fourth.
-/

namespace TsmVm

/-- A buffer of `cap_info`: the block `buffer` points to, and the two numbers kept with
it. -/
structure CapBuffer where
  buffer : List UInt8
  bufSize : ℤ
  dataLen : ℤ

/-- `cap_info`. -/
structure CapInfo where
  path : List UInt8
  content : CapBuffer
  pkgAid : CapBuffer
  appletAid : CapBuffer
  hash : CapBuffer

/-- What the calls for an entry of an archive give: where the first of them fails, or
the bytes `zip_fread` delivers. -/
inductive ZipEntry
  | noMatch
  | noState
  | noSize
  | notOpen
  | file (bytes : List UInt8)

/-- What `caploader_load` returns. -/
inductive CapStatus
  | fmOk
  | zipFileOpenFailed
  | zipFileNoEntryMatch
  | zipFileStateFailed
  | zipFileSizeNotAvail
  | zipFileEntryNotOpen
  deriving DecidableEq, Repr

/-- `sub_cap_name`. -/
def subCapName : List (List UInt8) :=
  [literal "Header.cap", literal "Directory.cap", literal "Import.cap", literal "Applet.cap",
    literal "Class.cap", literal "Method.cap", literal "StaticField.cap",
    literal "ConstantPool.cap", literal "RefLocation.cap"]

/-- `fmsh_malloc`: a block of `size` bytes, with what it happens to hold. -/
def fmshMalloc (junk : ℕ → UInt8) (size : ℕ) : List UInt8 := (List.range size).map junk

/-- The test whether the buffer is big enough for the next component, and what is done
where it is not. What is free is converted to the type of `state.size`. -/
def growContent (junk : ℕ → UInt8) (content : CapBuffer) (size : ℕ) : Res CapBuffer :=
  if (content.bufSize - content.dataLen) % 18446744073709551616 < size then do
    let bufSize := content.bufSize + (size / 4 + 1) * 1024
    let temp := fmshMalloc junk bufSize.toNat
    let bytes ← memRead content.buffer 0 content.dataLen
    let temp ← memWrite temp temp.length 0 bytes
    return { content with buffer := temp, bufSize := bufSize }
  else .ok content

/-- `zip_fread` behind the data of the buffer. -/
def zipFread (content : CapBuffer) (bytes : List UInt8) : Res CapBuffer := do
  let buffer ← memWrite content.buffer content.buffer.length content.dataLen bytes
  return { content with buffer := buffer }

/-- The AID of the package, from the header. -/
def getPkgAid (junk : ℕ → UInt8) (buffer : List UInt8) : Res CapBuffer := do
  let aidLen ← byteAt buffer 12
  let aid ← memRead buffer 13 aidLen.toNat
  let des := fmshMalloc junk aidLen.toNat
  let des ← memWrite des des.length 0 aid
  return { buffer := des, bufSize := aidLen.toNat, dataLen := aidLen.toNat }

/-- The first loop over the applets, which adds up the lengths, from `offset` on. The
sum is a byte, and the offset moves by the sum. -/
def aidLenLoop (mem : List UInt8) : ℕ → ℕ → UInt8 → Res UInt8
  | 0, _, adiLen => .ok adiLen
  | n + 1, offset, adiLen => do
    let len ← byteAt mem offset
    let adiLen := adiLen + len
    aidLenLoop mem n (offset + (adiLen.toNat + 3)) adiLen

/-- The second loop, which copies the AIDs to `pos` and behind, and the length it ends
with. -/
def aidCopyLoop (mem : List UInt8) : ℕ → ℕ → ℕ → UInt8 → List UInt8 → Res (UInt8 × List UInt8)
  | 0, _, _, adiLen, des => .ok (adiLen, des)
  | n + 1, offset, pos, _, des => do
    let adiLen ← byteAt mem offset
    let aid ← memRead mem (offset + 1 : ℕ) adiLen.toNat
    let des ← memWrite des des.length pos aid
    aidCopyLoop mem n (offset + (adiLen.toNat + 3)) (pos + adiLen.toNat) adiLen des

/-- The AIDs of the applets, from the memory the component starts at. -/
def getAppletAid (junk : ℕ → UInt8) (mem : List UInt8) (appletAid : CapBuffer) :
    Res CapBuffer := do
  let appCnt ← byteAt mem 3
  let adiLen ← aidLenLoop mem appCnt.toNat 4 0
  let copied ← aidCopyLoop mem appCnt.toNat 4 0 adiLen (fmshMalloc junk adiLen.toNat)
  return { appletAid with buffer := copied.2, dataLen := copied.1.toNat }

/-- The body of the loop for component `i`, behind the calls that find it. Block `i + 1`
is the one the buffer grows to, the AIDs get blocks 10 and 11. -/
def loadComponent (junk : ℕ → ℕ → UInt8) (cap : CapInfo) (i : ℕ) (bytes : List UInt8) :
    Res CapInfo := do
  let content ← growContent (junk (i + 1)) cap.content bytes.length
  let content ← zipFread content bytes
  let pkgAid ← (if i = 0 then getPkgAid (junk 10) content.buffer else .ok cap.pkgAid)
  let appletAid ← (if i = 3 then
      getAppletAid (junk 11) (content.buffer.drop content.dataLen.toNat) cap.appletAid
    else .ok cap.appletAid)
  return { cap with content := { content with dataLen := content.dataLen + bytes.length },
                    pkgAid := pkgAid, appletAid := appletAid }

/-- The loop over the components, from number `i` on. -/
def componentLoop (junk : ℕ → ℕ → UInt8) (zip : List UInt8 → ZipEntry) :
    List (List UInt8) → ℕ → CapInfo → Res (CapStatus × CapInfo)
  | [], _, cap => .ok (.fmOk, cap)
  | name :: names, i, cap =>
    match zip name with
    | .noMatch => .ok (.zipFileNoEntryMatch, cap)
    | .noState => .ok (.zipFileStateFailed, cap)
    | .noSize => .ok (.zipFileSizeNotAvail, cap)
    | .notOpen => .ok (.zipFileEntryNotOpen, cap)
    | .file bytes => do
      let cap ← loadComponent junk cap i bytes
      componentLoop junk zip names (i + 1) cap

/-- The buffer of the contents as it is allocated first. -/
def startCap (junk : ℕ → ℕ → UInt8) (cap : CapInfo) : CapInfo :=
  { cap with content := { buffer := fmshMalloc (junk 0) 36864, bufSize := 36864, dataLen := 0 } }

/-- `caploader_load`, with the archives that can be opened. -/
def caploaderLoad (junk : ℕ → ℕ → UInt8) (hash : CapBuffer → CapBuffer → CapBuffer)
    (archives : List UInt8 → Option (List UInt8 → ZipEntry)) (cap : CapInfo) :
    Res (CapStatus × CapInfo) :=
  let cap := startCap junk cap
  match archives cap.path with
  | none => .ok (.zipFileOpenFailed, cap)
  | some zip => do
    let loaded ← componentLoop junk zip subCapName 0 cap
    if loaded.1 = .fmOk then
      return (.fmOk, { loaded.2 with hash := hash loaded.2.content loaded.2.hash })
    else return loaded

end TsmVm
