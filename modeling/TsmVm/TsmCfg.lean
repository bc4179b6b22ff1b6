import TsmVm.Scloader

/-!
# The configuration (`tsm_cfg.c`)

`cfg_load` reads a file line by line. A line in brackets selects a section, the
other lines are taken apart by `sscanf` as the section asks for. The structure
comes from `calloc`; its list of agents is not set up by `list_init`.
-/

namespace TsmVm

/-! ## `sscanf` -/

/-- A part of a format. -/
inductive ScanDirective
  /-- White space: skips any amount of it. -/
  | space
  /-- An ordinary character. -/
  | char (c : UInt8)
  /-- `%s`. -/
  | word
  /-- `%[…]`, with the characters it takes. -/
  | set (p : UInt8 → Bool)
  /-- `%d`. -/
  | int
  /-- `%n`. -/
  | count

/-- A value `sscanf` stores. -/
inductive Scanned
  | text (s : List UInt8)
  | number (v : ℤ)
  | count (n : ℕ)
deriving DecidableEq

/-- The number `%d` reads behind white space, and what is left. -/
def scanInt (s : List UInt8) : Option (ℤ × List UInt8) :=
  let digits (t : List UInt8) : Option (ℤ × List UInt8) :=
    if t.takeWhile isDigit = [] then none
    else some ((t.takeWhile isDigit).foldl (fun n b => n * 10 + (b.toNat - 48)) 0,
      t.dropWhile isDigit)
  match s with
  | 45 :: t => (digits t).map fun r => (longToInt (-r.1), r.2)
  | 43 :: t => (digits t).map fun r => (longToInt r.1, r.2)
  | t => (digits t).map fun r => (longToInt r.1, r.2)

/-- `sscanf` on a string, `k` characters of which have been read: the values it
stores until a directive fails. -/
def sscanf : List ScanDirective → List UInt8 → ℕ → List Scanned
  | [], _, _ => []
  | .space :: fmt, s, k => sscanf fmt (s.dropWhile isSpace) (k + (s.takeWhile isSpace).length)
  | .char c :: fmt, s, k =>
    match s with
    | [] => []
    | b :: s => if b = c then sscanf fmt s (k + 1) else []
  | .word :: fmt, s, k =>
    let t := s.dropWhile isSpace
    let w := t.takeWhile (!isSpace ·)
    if w = [] then []
    else .text w :: sscanf fmt (t.dropWhile (!isSpace ·)) (k + (s.length - t.length) + w.length)
  | .set p :: fmt, s, k =>
    let w := s.takeWhile p
    if w = [] then [] else .text w :: sscanf fmt (s.dropWhile p) (k + w.length)
  | .int :: fmt, s, k =>
    match scanInt (s.dropWhile isSpace) with
    | none => []
    | some (v, t) => .number v :: sscanf fmt t (k + (s.length - t.length))
  | .count :: fmt, s, k => .count k :: sscanf fmt s k

/-- What `sscanf` returns: the conversions made. An end of the string before the
first one is not told apart from zero. -/
def scanCount (items : List Scanned) : ℕ :=
  items.countP fun item => match item with
    | .count _ => false
    | _ => true

/-- The string in a zeroed buffer of `size` bytes that the `i`-th value goes to. -/
def textAt (size : ℕ) (items : List Scanned) (i : ℕ) : Res (List UInt8) :=
  match items[i]? with
  | some (.text w) => if w.length < size then .ok w else .error .outOfBounds
  | _ => .ok []

/-! ## `trim_lr` and `str_trim` -/

/-- The characters `trim_lr` takes off. -/
def isTrim (b : UInt8) : Bool := b = 32 || b = 9 || b = 10

/-- The first loop: the index of the first character that stays. -/
def trimSkip : List UInt8 → ℕ → Res ℕ
  | [], _ => .error .outOfBounds
  | b :: mem, p => if isTrim b then trimSkip mem (p + 1) else .ok p

/-- The second loop, which moves the characters from `p` on to `q`; the first
argument bounds its rounds. -/
def trimMove : ℕ → List UInt8 → ℕ → ℕ → Res (List UInt8 × ℕ)
  | 0, _, _, _ => .error .outOfBounds
  | n + 1, mem, p, q => do
    let b ← byteAt mem p
    if b = 0 then return (mem, q)
    else
      let mem ← memWrite mem mem.length q [b]
      trimMove n mem (p + 1) (q + 1)

/-- The third loop, from the end: the index behind the last character that stays. -/
def trimBack (mem : List UInt8) : ℕ → Res ℕ
  | 0 => .error .outOfBounds
  | q + 1 => do
    let b ← byteAt mem q
    if isTrim b then trimBack mem q else return q + 1

/-- `trim_lr`, on the memory of the string. -/
def trimLr (mem : List UInt8) : Res (List UInt8) := do
  let p ← trimSkip mem 0
  let b ← byteAt mem p
  if b = 0 then memWrite mem mem.length 0 [0]
  else
    let moved ← trimMove mem.length mem p 0
    let last ← trimBack moved.1 moved.2
    memWrite moved.1 moved.1.length last [0]

/-- `str_trim`. -/
def strTrim (s : List UInt8) : List UInt8 := s.filter (· ≠ 32)

/-! ## The configuration -/

/-- `agent_info_t`. The strings are the memory allocated for them. -/
structure AgentInfo where
  agentId : ℤ
  name : List UInt8
  agentWFifo : List UInt8
  agentRFifo : List UInt8

/-- A `list_t`: as `calloc` leaves it, or set up by `list_init`, with its entries. -/
inductive AgentInfos
  | zeroed
  | linked (entries : List AgentInfo)

/-- `list_add_entry`. -/
def listAddEntry : AgentInfos → AgentInfo → Res AgentInfos
  | .zeroed, _ => .error .nullDeref
  | .linked entries, agent => .ok (.linked (entries ++ [agent]))

/-- The entries a `list_for_each` meets. -/
def listForEach : AgentInfos → Res (List AgentInfo)
  | .zeroed => .error .nullDeref
  | .linked entries => .ok entries

/-- `tsm_cfg_t`. -/
structure TsmCfg where
  port : ℤ
  bcParmMax : ℤ
  bcClassNum : ℤ
  bcClassRoom : ℤ
  agList : AgentInfos

/-- The structure `calloc` returns. -/
def tsmCfgCalloc : TsmCfg :=
  { port := 0, bcParmMax := 0, bcClassNum := 0, bcClassRoom := 0, agList := .zeroed }

/-- `"[ %[^] \t]"`. -/
def sectionFormat : List ScanDirective :=
  [.char 91, .space, .set fun b => b ≠ 93 && b ≠ 32 && b ≠ 9]

/-- `" %[^=]= %s "`. -/
def optionFormat : List ScanDirective :=
  [.space, .set (· ≠ 61), .char 61, .space, .word, .space]

/-- `"%s%n%s%s"`. -/
def wordsFormat : List ScanDirective := [.word, .count, .word, .word]

/-- `"%d,%s,%s,%s"`. -/
def agentFormat : List ScanDirective :=
  [.int, .char 44, .word, .char 44, .word, .char 44, .word]

/-- A line in brackets. The local buffer `name` is not initialised, and keeps what
it holds where the line has no name. -/
def cfgParseSection (name : List UInt8) (line : List UInt8) (sec : ℕ) : Res (ℕ × ℤ) := do
  let name ← (match (sscanf sectionFormat line 0).head? with
    | some (.text w) => if w.length < 1024 then .ok (w ++ [0]) else .error .outOfBounds
    | _ => .ok name : Res (List UInt8))
  let isGlobal ← strcmpEq name (literal "global")
  let isAgent ← strcmpEq name (literal "agent")
  if isGlobal then return (1, if sec ≥ 1 then -1 else 0)
  else if isAgent then return (2, if sec ≥ 2 then -1 else 0)
  else return (sec, -1)

/-- A line of section 1. -/
def cfgParseOption (cfg : TsmCfg) (line : List UInt8) : Res (TsmCfg × ℤ) := do
  let items := sscanf optionFormat line 0
  let name ← textAt 1024 items 0
  let value ← textAt 128 items 1
  if scanCount items ≠ 2 then return (cfg, -1)
  else
    let words := sscanf wordsFormat name 0
    let word1 ← textAt 128 words 0
    let word2 ← textAt 128 words 2
    let word3 ← textAt 128 words 3
    let value := strTrim value
    if word1 = literal "bytecode" then
      if word2 = literal "parameter" ∧ word3 = literal "max" then do
        let v ← atoi (value ++ [0])
        return ({ cfg with bcParmMax := v }, 0)
      else if word2 = literal "class" ∧ word3 = literal "max" then do
        let v ← atoi (value ++ [0])
        return ({ cfg with bcClassNum := v }, 0)
      else if word2 = literal "class" ∧ word3 = literal "room" then do
        let v ← atoi (value ++ [0])
        return ({ cfg with bcClassRoom := v }, 0)
      else return (cfg, -1)
    else return (cfg, -1)

/-- A line of section 2. What is scanned is not the line but `name`, which is not
initialised here. -/
def cfgParseAgent (name : List UInt8) (cfg : TsmCfg) : Res (TsmCfg × ℤ) := do
  let name ← cString name
  let items := sscanf agentFormat name 0
  let word1 ← textAt 128 items 1
  let word2 ← textAt 128 items 2
  let word3 ← textAt 128 items 3
  if scanCount items ≠ 4 then return (cfg, -1)
  else
    let id := match items.head? with
      | some (.number v) => v
      | _ => 0
    let agList ← listAddEntry cfg.agList
      { agentId := id, name := word1, agentRFifo := word2, agentWFifo := word3 }
    return ({ cfg with agList := agList }, 0)

/-- `cfg_parse_line`, on a string: the configuration, the section, and what is
returned. -/
def cfgParseLine (u : Unspec) (cfg : TsmCfg) (line : List UInt8) (sec : ℕ) :
    Res (TsmCfg × ℕ × ℤ) :=
  let name := (List.range 1024).map u.stack
  if line.head? = some 91 then do
    let r ← cfgParseSection name line sec
    return (cfg, r.1, r.2)
  else if sec = 1 then do
    let r ← cfgParseOption cfg line
    return (r.1, sec, r.2)
  else if sec = 2 then do
    let r ← cfgParseAgent name cfg
    return (r.1, sec, r.2)
  else .ok (cfg, sec, -1)

/-- The body of the loop of `cfg_load`, on what `fgets` has read. -/
def cfgLoadLine (u : Unspec) (cfg : TsmCfg) (sec : ℕ) (read : List UInt8) :
    Res (TsmCfg × ℕ) := do
  let line := read ++ [0]
  let first ← byteAt line 0
  if first = 35 ∨ first = 10 then return (cfg, sec)
  else
    let text ← cString line
    let last ← byteAt line ((text.length : ℤ) - 1)
    let line := if last = 10 then line.set (text.length - 1) 0 else line
    let line ← trimLr line
    let text ← cString line
    let r ← cfgParseLine u cfg text sec
    return (r.1, r.2.1)

/-- The loop of `cfg_load`. What C leaves open is given for each line. -/
def cfgLoadLoop (us : ℕ → Unspec) : List (List UInt8) → ℕ → TsmCfg → ℕ → Res TsmCfg
  | [], _, cfg, _ => .ok cfg
  | read :: reads, k, cfg, sec => do
    let r ← cfgLoadLine (us k) cfg sec read
    cfgLoadLoop us reads (k + 1) r.1 r.2

/-- `cfg_load`, with the contents of the files that can be opened. -/
def cfgLoad (us : ℕ → Unspec) (files : List UInt8 → Option (List UInt8)) (cfgPath : List UInt8) :
    Res (Option TsmCfg) :=
  match files cfgPath with
  | none => .ok none
  | some file => do
    let cfg ← cfgLoadLoop us (fgetsAll file.length file) 0 tsmCfgCalloc 0
    return some cfg

end TsmVm
