import TsmVm.TsmCfg
import Mathlib.Data.List.Infix

/-!
# The bytecode loader (`tsm_bcloader.c`)

A library `libX.so` comes with a header `X.h` in the same directory. The loader
makes the path of the header out of that of the library, in three buffers of 512
bytes cleared before, and takes the names of the functions from the header line by
line, in an array that doubles when it is full.
-/

namespace TsmVm

/-! ## The path of the header -/

/-- `last_index_of` on a string of any length. Its length is kept in an `int`; a
negative one puts the end in front of the start, which the loop then never meets. -/
def lastIndexOfString (str : List UInt8) (delimiter : UInt8) : Res (Option ℕ) :=
  let len := (str.length : ℤ).bmod 4294967296
  if len < 0 then .error .outOfBounds else .ok (lastIndexOfLoop str delimiter len.toNat)

/-- `get_filename_from_path` into the buffer `name`: the return value and the buffer.
Only the copy of a whole path takes the terminator with it. -/
def getFilenameInto (path : Option (List UInt8)) (name : List UInt8) (size : ℕ) :
    Res (ℤ × List UInt8) :=
  match path with
  | none => .ok (-1, name)
  | some path => do
    let index ← lastIndexOfString path 47
    match index with
    | none =>
      if size < path.length then return (-1, name)
      else
        let name ← memWrite name name.length 0 (path ++ [0])
        return (0, name)
    | some index =>
      let start := path.drop (index + 1)
      if size < start.length then return (-1, name)
      else
        let name ← memWrite name name.length 0 start
        return (0, name)

/-- `"lib%s"`. -/
def libFormat : List ScanDirective := [.char 108, .char 105, .char 98, .word]

/-- `bcloader_get_hfile_name`: the return value and the buffer `name`. Without `.so`
in the name the pointer `end` is `NULL`, and its distance from `start` as a `size_t` is
larger than any buffer. -/
def bcloaderGetHfileName (libname name : List UInt8) : Res (ℤ × List UInt8) := do
  let libname ← cString libname
  let word ← textAt 512 (sscanf libFormat libname 0) 0
  let libfileName := word ++ List.replicate (512 - word.length) 0
  let found ← fmStrstr libfileName word.length (literal ".so") 3
  match found with
  | none => return (-1, name)
  | some e =>
    if 512 < e + 2 then return (-1, name)
    else
      let stem ← memRead libfileName 0 e
      let hfileName ← memWrite (List.replicate 512 0) 512 0 stem
      let hfileName ← memWrite hfileName 512 e [46]
      let hfileName ← memWrite hfileName 512 (e + 1 : ℕ) [104]
      let hfile ← cString hfileName
      let name ← memWrite name name.length 0 hfile
      return (0, name)

/-- `bcloader_make_hpath`: the return value and the buffer `hpath`. -/
def bcloaderMakeHpath (path : Option (List UInt8)) (hfile hpath : List UInt8) (size : ℕ) :
    Res (ℤ × List UInt8) :=
  match path with
  | none => .ok (-1, hpath)
  | some path => do
    let index ← lastIndexOfString path 47
    let hfile ← cString hfile
    match index with
    | none =>
      if size < hfile.length then return (-1, hpath)
      else
        let hpath ← memWrite hpath hpath.length 0 (hfile ++ [0])
        return (0, hpath)
    | some index =>
      if size < index + 1 + hfile.length then return (-1, hpath)
      else
        let hpath ← memWrite hpath hpath.length 0 (path.take (index + 1))
        let hpath ← memWrite hpath hpath.length (index + 1 : ℕ) hfile
        return (0, hpath)

/-- The buffers of `bcloader_load` behind the three functions. -/
structure HeaderNames where
  libfileName : List UInt8
  hfile : List UInt8
  hpath : List UInt8
  /-- What `bcloader_make_hpath` has returned. -/
  ret : ℤ

/-- The start of `bcloader_load`; nothing where it returns `NULL`. What
`bcloader_make_hpath` returns is not looked at. -/
def bcloaderNames (path : Option (List UInt8)) : Res (Option HeaderNames) := do
  let lib ← getFilenameInto path (List.replicate 512 0) 512
  if lib.1 ≠ 0 then return none
  else
    let header ← bcloaderGetHfileName lib.2 (List.replicate 512 0)
    if header.1 ≠ 0 then return none
    else
      let made ← bcloaderMakeHpath path header.2 (List.replicate 512 0) 512
      return some { libfileName := lib.2, hfile := header.2, hpath := made.2, ret := made.1 }

/-! ## The names in the header -/

/-- `func_array_t`. -/
structure FuncArray where
  size : ℤ
  base : ℤ
  cnt : ℤ
  /-- The slots, which hold `NULL` or a name. -/
  array : List (Option (List UInt8))

/-- `func_array_alloc`. -/
def funcArrayAlloc (arraySize : ℕ) : FuncArray :=
  { size := arraySize, base := 0, cnt := 0, array := List.replicate arraySize none }

/-- `func_array_resize`. A size that is no longer an `int` comes out negative; there is
no block as large as that, and the first entry is moved to `NULL`. -/
def funcArrayResize (p : FuncArray) : Res FuncArray :=
  let size := (p.size * 2).bmod 4294967296
  if size < 0 then .error .nullDeref
  else
    let moved := p.array.take p.cnt.toNat
    .ok { p with size := size, array := moved ++ List.replicate (size.toNat - moved.length) none }

/-- `func_array_add_entry`. -/
def funcArrayAddEntry (p : FuncArray) (e : List UInt8) : Res FuncArray := do
  let p ← (if p.cnt ≥ p.size then funcArrayResize p else .ok p)
  if 0 ≤ p.cnt ∧ p.cnt < p.array.length then
    return { p with array := p.array.set p.cnt.toNat (some e), cnt := p.cnt + 1 }
  else Except.error .outOfBounds

/-- `"%*[^0-9]%s"`. What `%*` takes is not stored; the word is the second value here. -/
def baseFormat : List ScanDirective := [.set (!isDigit ·), .word]

/-- `"%*[^ ] %[^(]"`. -/
def nameFormat : List ScanDirective := [.set (· ≠ 32), .space, .set (· ≠ 40)]

/-- The body of the loop of `bcloader_get_funcs_name`, on what `fgets` has read. -/
def funcsLine (funcs : FuncArray) (read : List UInt8) : Res FuncArray := do
  let line := read ++ [0]
  let first ← byteAt line 0
  if first = 13 then return funcs
  else if first = 35 then
    let text ← cString line
    if literal "BC_BASE" <:+: text then
      let word ← textAt 1024 (sscanf baseFormat text 0) 1
      let base ← atoi (word ++ [0])
      return { funcs with base := base }
    else return funcs
  else
    let text ← cString line
    let last ← byteAt line ((text.length : ℤ) - 1)
    let line := if last = 10 then line.set (text.length - 1) 0 else line
    let text ← cString line
    let name ← textAt 1024 (sscanf nameFormat text 0) 1
    funcArrayAddEntry funcs name

/-- The loop of `bcloader_get_funcs_name`. -/
def funcsLoop : List (List UInt8) → FuncArray → Res FuncArray
  | [], funcs => .ok funcs
  | read :: reads, funcs => do
    let funcs ← funcsLine funcs read
    funcsLoop reads funcs

/-- `FM_BCLOADER_INVALID_PARM`. -/
def fmBcloaderInvalidParm : ℤ := int32 0x80000501

/-- `FM_SYS_ERR_OPEN_FILE_FAIL`. -/
def fmSysErrOpenFileFail : ℤ := int32 0x80000002

/-- `DEF_BYCODE_SIZE`. -/
def defBycodeSize : ℕ := 256

/-- `bcloader_get_funcs_name`, with the contents of the files that can be opened: the
return value and the array. -/
def bcloaderGetFuncsName (files : List UInt8 → Option (List UInt8)) (path : List UInt8)
    (funcs : Option FuncArray) : Res (ℤ × Option FuncArray) :=
  match funcs with
  | none => .ok (fmBcloaderInvalidParm, none)
  | some p =>
    if p.cnt ≠ 0 then .ok (fmBcloaderInvalidParm, some p)
    else match files path with
      | none => .ok (fmSysErrOpenFileFail, some p)
      | some file => do
        let p ← funcsLoop (fgetsAll file.length file) p
        return (0, some p)

end TsmVm
