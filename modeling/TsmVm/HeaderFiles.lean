import TsmVm.Bcloader
import TsmVm.Configuration
import Mathlib.Data.List.TakeWhile

/-!
# Headers and the functions they name

A header is made of preprocessor lines, blank lines and prototypes. The loader makes an
entry of every line that starts neither with `#` nor with a carriage return, so a blank
line must end with CR LF to be none; it looks for the name behind the first space; and it
takes the last number behind `BC_BASE` for the base, whatever the line says.
-/

namespace TsmVm

/-- The characters of an identifier. -/
def isNameByte (b : UInt8) : Bool :=
  isDigit b || (65 ≤ b && b ≤ 90) || b = 95 || (97 ≤ b && b ≤ 122)

/-- The prototype of a function, `type name(args);`. -/
structure Prototype where
  type : List UInt8
  name : List UInt8
  args : List UInt8
  /-- The type starts with a word. -/
  type_start : type.head?.any isNameByte = true
  /-- The first parenthesis is that of the arguments. -/
  type_chars : ∀ b ∈ type, b ≠ 40
  /-- The name is an identifier. -/
  name_ne : name ≠ []
  name_chars : ∀ b ∈ name, isNameByte b = true

/-- The prototype as it is written. -/
def Prototype.text (p : Prototype) : List UInt8 :=
  p.type ++ 32 :: (p.name ++ 40 :: (p.args ++ literal ");"))

/-- A line of a header. -/
inductive HeaderLine
  | preprocessor (l : ScriptLine) (h : l.text.head? = some 35)
  | blank (l : ScriptLine) (h : l.isBlank = true)
  | prototype (l : ScriptLine) (p : Prototype) (h : l.text = p.text)

namespace HeaderLine

/-- The line of the file. -/
def line : HeaderLine → ScriptLine
  | .preprocessor l _ => l
  | .blank l _ => l
  | .prototype l _ _ => l

/-- The function it names. -/
def name? : HeaderLine → Option (List UInt8)
  | .prototype _ p _ => some p.name
  | _ => none

/-- A preprocessor line that mentions `BC_BASE`. -/
def mentionsBase : HeaderLine → Bool
  | .preprocessor l _ => decide (literal "BC_BASE" <:+: l.text)
  | _ => false

/-- The line is `#define BC_BASE n`. -/
def DefinesBase (n : ℕ) : HeaderLine → Prop
  | .preprocessor l _ =>
    ∃ number, IsDecimal number n ∧ l.text = literal "#define BC_BASE " ++ number
  | _ => False

end HeaderLine

/-- A header file. -/
structure HeaderFile where
  /-- The lines. -/
  lines : List HeaderLine
  /-- The number of the first bytecode. -/
  base : ℕ
  /-- One of the lines defines it. -/
  define : ∃ l ∈ lines, l.DefinesBase base
  /-- Only the last line may lack its ending. -/
  ended : (lines.map HeaderLine.line).Pairwise fun l _ => l.ending ≠ .eof
  /-- If it does, it is not empty. -/
  last_ne : ∀ l ∈ lines.map HeaderLine.line, l.ending = .eof → l.text ≠ []

namespace HeaderFile

/-- The file. -/
def toScriptFile (file : HeaderFile) : ScriptFile :=
  ⟨file.lines.map HeaderLine.line, file.ended, file.last_ne⟩

/-- The names of the functions, in their order. -/
def names (file : HeaderFile) : List (List UInt8) := file.lines.filterMap HeaderLine.name?

end HeaderFile

/-- The base is that of the header, and the entries are its functions. -/
def FollowsHeader (path : List UInt8) (file : HeaderFile) : Prop :=
  ∃ funcs, bcloaderGetFuncsName (fun _ => some file.toScriptFile.bytes) path
      (some (funcArrayAlloc defBycodeSize)) = .ok (0, some funcs) ∧
    funcs.base = file.base ∧ funcs.cnt = file.names.length ∧
    ∀ (i : ℕ) (name : List UInt8), file.names[i]? = some name →
      funcs.array[i]? = some (some name)

/-- The digits of the first number of a text. -/
def firstNumber (s : List UInt8) : List UInt8 := (s.dropWhile (!isDigit ·)).takeWhile isDigit

/-- A header the loader reads as it is meant. -/
structure HeaderFile.Loadable (file : HeaderFile) : Prop where
  /-- Every line fits into the buffer with its ending. -/
  fits : ∀ l ∈ file.lines, l.line.bytes.length ≤ 1023
  /-- Blank lines are empty and end with CR LF. -/
  blank : ∀ l h, .blank l h ∈ file.lines → l.text = [] ∧ l.ending = .crlf
  /-- A type is one word, perhaps with blanks behind it. -/
  types : ∀ l p h, .prototype l p h ∈ file.lines →
    ∀ b ∈ p.type.dropWhile (· ≠ 32), isSpace b = true
  /-- The last line that mentions `BC_BASE` gives the base. -/
  base_last : ∀ l ∈ (file.lines.filter HeaderLine.mentionsBase).getLast?,
    longToInt (decimalOf (firstNumber l.line.text)) = file.base
  /-- The size of the array stays an `int`. -/
  few : file.names.length ≤ 1073741824

/-! ## The array -/

/-- An array that holds some names, having doubled a number of times. -/
structure FuncArray.Holds (p : FuncArray) (base : ℤ) (names : List (List UInt8)) : Prop where
  base_eq : p.base = base
  cnt_eq : p.cnt = names.length
  size_eq : p.size = p.array.length
  /-- The size is an `int`. -/
  doubled : ∃ k ≤ 22, p.array.length = 256 * 2 ^ k
  cnt_le : names.length ≤ p.array.length
  slot : ∀ (i : ℕ) (name : List UInt8), names[i]? = some name → p.array[i]? = some (some name)

theorem funcArrayAlloc_holds : (funcArrayAlloc defBycodeSize).Holds 0 [] where
  base_eq := rfl
  cnt_eq := rfl
  size_eq := by simp [funcArrayAlloc]
  doubled := ⟨0, by omega, List.length_replicate⟩
  cnt_le := Nat.zero_le _
  slot := by simp

section Array

variable {p : FuncArray} {base : ℤ} {names : List (List UInt8)}

/-- A full array doubles, as long as its size is an `int`. -/
theorem FuncArray.Holds.resize (h : p.Holds base names) (hfull : names.length = p.array.length)
    (hfew : names.length < 1073741824) :
    ∃ p', funcArrayResize p = .ok p' ∧ p'.Holds base names ∧ names.length < p'.array.length := by
  obtain ⟨k, hk, hsize⟩ := h.doubled
  have hcnt := h.cnt_eq
  have hpsize := h.size_eq
  have hk' : k < 22 := by
    by_contra hge
    obtain rfl : k = 22 := by omega
    omega
  have hpow : (2 : ℕ) ^ k ≤ 2 ^ 21 := Nat.pow_le_pow_right (by decide) (by omega)
  have hpos := Nat.two_pow_pos k
  have hnew : (p.size * 2).bmod 4294967296 = (2 * p.array.length : ℕ) := by
    rw [Int.bmod_eq_emod]
    split <;> omega
  have htake : p.array.take p.cnt.toNat = p.array :=
    List.take_of_length_le (by omega)
  have hlen : (p.array ++ List.replicate (2 * p.array.length - p.array.length)
      (none : Option (List UInt8))).length = 2 * p.array.length := by
    rw [List.length_append, List.length_replicate]
    omega
  unfold funcArrayResize
  dsimp only
  rw [hnew, if_neg (by omega), htake, Int.toNat_natCast]
  refine ⟨_, rfl, ⟨h.base_eq, h.cnt_eq, ?_, ⟨k + 1, hk', ?_⟩, ?_, ?_⟩, ?_⟩
  · dsimp only
    rw [hlen]
  · dsimp only
    rw [hlen, hsize, pow_succ]
    omega
  · dsimp only
    rw [hlen]
    omega
  · intro i name hname
    have hi : i < names.length := (List.getElem?_eq_some_iff.mp hname).1
    dsimp only
    rw [List.getElem?_append_left (by omega)]
    exact h.slot i name hname
  · dsimp only
    rw [hlen]
    omega

/-- Past `2 ^ 30` entries it does not. -/
theorem FuncArray.Holds.resize_fails (h : p.Holds base names)
    (hfull : names.length = p.array.length) (hmany : 1073741824 ≤ names.length) :
    funcArrayResize p = .error .nullDeref := by
  obtain ⟨k, hk, hsize⟩ := h.doubled
  have hpsize := h.size_eq
  have hpow : (2 : ℕ) ^ k ≤ 2 ^ 22 := Nat.pow_le_pow_right (by decide) hk
  have hnew : (p.size * 2).bmod 4294967296 < 0 := by
    rw [Int.bmod_eq_emod]
    split <;> omega
  unfold funcArrayResize
  exact if_pos hnew

/-- An entry where there is room. -/
theorem FuncArray.Holds.store (h : p.Holds base names) (hroom : names.length < p.array.length)
    (e : List UInt8) :
    ({ p with array := p.array.set p.cnt.toNat (some e), cnt := p.cnt + 1 } : FuncArray).Holds
      base (names ++ [e]) where
  base_eq := h.base_eq
  cnt_eq := by
    rw [List.length_append, List.length_singleton]
    push_cast
    exact congrArg (· + 1) h.cnt_eq
  size_eq := by simpa using h.size_eq
  doubled := by simpa using h.doubled
  cnt_le := by
    rw [List.length_append, List.length_singleton, List.length_set]
    omega
  slot := by
    have hcnt : p.cnt.toNat = names.length := by
      rw [h.cnt_eq, Int.toNat_natCast]
    intro i name hname
    rw [hcnt]
    obtain hlt | hge := Nat.lt_or_ge i names.length
    · rw [List.getElem?_append_left hlt] at hname
      rw [List.getElem?_set_ne (by omega)]
      exact h.slot i name hname
    · have hi := (List.getElem?_eq_some_iff.mp hname).1
      rw [List.length_append, List.length_singleton] at hi
      obtain rfl : i = names.length := by omega
      obtain rfl : e = name := by simpa using hname
      exact List.getElem?_set_self hroom

/-- The next entry. -/
theorem FuncArray.Holds.addEntry (h : p.Holds base names) (hfew : names.length < 1073741824)
    (e : List UInt8) : ∃ p', funcArrayAddEntry p e = .ok p' ∧ p'.Holds base (names ++ [e]) := by
  have hstore : ∀ q : FuncArray, q.Holds base names → names.length < q.array.length →
      ∃ q', (if 0 ≤ q.cnt ∧ q.cnt < q.array.length then
          return { q with array := q.array.set q.cnt.toNat (some e), cnt := q.cnt + 1 }
        else .error .outOfBounds : Res FuncArray) = .ok q' ∧ q'.Holds base (names ++ [e]) := by
    intro q hq hroom
    have hcnt := hq.cnt_eq
    rw [if_pos (by omega)]
    exact ⟨_, rfl, hq.store hroom e⟩
  have hcnt := h.cnt_eq
  have hsize := h.size_eq
  have hle := h.cnt_le
  unfold funcArrayAddEntry
  by_cases hfull : p.cnt ≥ p.size
  · obtain ⟨q, hresize, hq, hroom⟩ := h.resize (by omega) hfew
    rw [if_pos hfull, hresize, ok_bind]
    exact hstore q hq hroom
  · rw [if_neg hfull, ok_bind]
    exact hstore p h (by omega)

/-- What is added is one of the first `2 ^ 30`. -/
theorem FuncArray.Holds.few_of_addEntry (h : p.Holds base names) {e : List UInt8} {p' : FuncArray}
    (hok : funcArrayAddEntry p e = .ok p') : names.length < 1073741824 := by
  by_contra hmany
  obtain ⟨k, hk, hlen⟩ := h.doubled
  have hpow : (2 : ℕ) ^ k ≤ 2 ^ 22 := Nat.pow_le_pow_right (by decide) hk
  have hcnt := h.cnt_eq
  have hsize := h.size_eq
  have hle := h.cnt_le
  have hfull : p.cnt ≥ p.size := by omega
  unfold funcArrayAddEntry at hok
  rw [if_pos hfull, h.resize_fails (by omega) (by omega), error_bind] at hok
  cases hok

end Array

/-! ## Lines -/

/-- What a line has for a name: what stands behind the first space, up to a
parenthesis. -/
def nameIn (s : List UInt8) : List UInt8 :=
  if s.takeWhile (· ≠ 32) = [] then []
  else ((s.dropWhile (· ≠ 32)).dropWhile isSpace).takeWhile (· ≠ 40)

/-- A line without its line feed. -/
def chomped (read : List UInt8) : List UInt8 :=
  if read.getLast? = some 10 then read.dropLast else read

/-- The entry the loader makes of a line. -/
def readEntry (read : List UInt8) : Option (List UInt8) :=
  if read.head? = some 13 ∨ read.head? = some 35 then none else some (nameIn (chomped read))

/-- The base behind a line. -/
def readBase (base : ℤ) (read : List UInt8) : ℤ :=
  if read.head? = some 35 ∧ literal "BC_BASE" <:+: read then
    longToInt (decimalOf (firstNumber read))
  else base

section Read

variable {s read : List UInt8}

/-- The name finds room in its buffer. -/
theorem textAt_nameFormat (h : s.length < 1024) :
    textAt 1024 (sscanf nameFormat s 0) 1 = .ok (nameIn s) := by
  have hlen := (((s.dropWhile (· ≠ 32)).dropWhile isSpace).takeWhile_sublist (· ≠ 40)).length_le
  have hspace := (s.dropWhile (· ≠ 32)).length_dropWhile_le isSpace
  have hword := s.length_dropWhile_le (· ≠ 32)
  unfold nameIn nameFormat
  simp only [sscanf]
  split
  · rfl
  · split
    · rename_i hnil
      rw [hnil]
      rfl
    · exact if_pos (by omega)

/-- A text goes on with a digit behind what is no digit, or is over. -/
theorem dropWhile_not_isDigit (s : List UInt8) :
    s.dropWhile (!isDigit ·) = [] ∨
      ∃ b digits, s.dropWhile (!isDigit ·) = b :: digits ∧ isDigit b = true := by
  induction s with
  | nil => exact .inl rfl
  | cons b s ih =>
    cases hb : isDigit b with
    | true => exact .inr ⟨b, s, by simp [hb], hb⟩
    | false =>
      rw [List.dropWhile_cons_of_pos (by simp [hb])]
      exact ih

theorem isSpace_cases {b : UInt8} (h : isSpace b = true) :
    b = 9 ∨ b = 10 ∨ b = 11 ∨ b = 12 ∨ b = 13 ∨ b = 32 := by
  unfold isSpace at h
  simp only [Bool.or_eq_true, Bool.and_eq_true, decide_eq_true_eq, UInt8.le_iff_toNat_le,
    ← UInt8.toNat_inj] at h ⊢
  have hnine : (9 : UInt8).toNat = 9 := rfl
  have hten : (10 : UInt8).toNat = 10 := rfl
  have heleven : (11 : UInt8).toNat = 11 := rfl
  have htwelve : (12 : UInt8).toNat = 12 := rfl
  have hthirteen : (13 : UInt8).toNat = 13 := rfl
  omega

theorem isSpace_of_isDigit {b : UInt8} (h : isDigit b = true) : isSpace b = false := by
  cases hspace : isSpace b with
  | false => rfl
  | true =>
    obtain rfl | rfl | rfl | rfl | rfl | rfl := isSpace_cases hspace
    all_goals cases h

/-- The number behind `BC_BASE` does, too. -/
theorem textAt_baseFormat (hhead : s.head? = some 35) (h : s.length < 1024) :
    textAt 1024 (sscanf baseFormat s 0) 1 =
      .ok ((s.dropWhile (!isDigit ·)).takeWhile (!isSpace ·)) := by
  obtain ⟨rest, rfl⟩ : ∃ rest, s = 35 :: rest := by
    cases s with
    | nil => cases hhead
    | cons b s => exact ⟨s, by simpa using hhead⟩
  have htake : (35 :: rest).takeWhile (!isDigit ·) ≠ [] := by
    rw [List.takeWhile_cons]
    exact List.cons_ne_nil _ _
  -- what follows starts with a digit, so no blank is skipped in front of it
  have hskip : ((35 :: rest).dropWhile (!isDigit ·)).dropWhile isSpace =
      (35 :: rest).dropWhile (!isDigit ·) := by
    obtain hnil | ⟨b, digits, hdigits, hb⟩ := dropWhile_not_isDigit (35 :: rest)
    · rw [hnil]
      rfl
    · rw [hdigits, List.dropWhile_cons_of_neg (by simp [isSpace_of_isDigit hb])]
  have hlen := (((35 :: rest).dropWhile (!isDigit ·)).takeWhile_sublist (!isSpace ·)).length_le
  have hdrop := (35 :: rest).length_dropWhile_le (!isDigit ·)
  unfold baseFormat
  simp only [sscanf, hskip]
  rw [if_neg htake]
  split
  · rename_i hnil
    rw [hnil]
    rfl
  · exact if_pos (by omega)

/-- `atoi` reads the first number. -/
theorem atoi_firstNumber (s : List UInt8) :
    atoi ((s.dropWhile (!isDigit ·)).takeWhile (!isSpace ·) ++ [0]) =
      .ok (longToInt (decimalOf (firstNumber s))) := by
  rw [atoi_eq endsNumber_zero]
  congr 2
  unfold firstNumber
  obtain hnil | ⟨b, digits, hdigits, hb⟩ := dropWhile_not_isDigit s
  · rw [hnil]
    rfl
  · have hspace := isSpace_of_isDigit hb
    have hsign : b ≠ 45 ∧ b ≠ 43 := by
      constructor
      all_goals
        rintro rfl
        cases hb
    have hword : ((b :: digits).takeWhile (!isSpace ·)).takeWhile isDigit =
        (b :: digits).takeWhile isDigit := by
      rw [List.takeWhile_takeWhile]
      congr 1
      funext c
      cases hc : isDigit c with
      | true => simp [isSpace_of_isDigit hc]
      | false => simp
    rw [hdigits, ← hword, List.takeWhile_cons_of_pos (by simp [hspace])]
    simp [signedDecimal, hspace, hsign]

/-- A line without its line feed is read as a string. -/
theorem cString_chomped (hne : read ≠ []) (hchars : ∀ b ∈ read, b ≠ 0) :
    (do
      let text ← cString (read ++ [0])
      let last ← byteAt (read ++ [0]) ((text.length : ℤ) - 1)
      cString (if last = 10 then (read ++ [0]).set (text.length - 1) 0 else read ++ [0])) =
      .ok (chomped read) := by
  obtain ⟨front, b, rfl⟩ : ∃ front b, read = front ++ [b] :=
    ⟨read.dropLast, read.getLast hne, (List.dropLast_append_getLast hne).symm⟩
  have hb : byteAt (front ++ [b] ++ [0]) (((front ++ [b]).length : ℤ) - 1) = .ok b := by
    have hlen : ((front ++ [b]).length : ℤ) - 1 = (front.length : ℕ) := by simp
    rw [hlen]
    exact byteAt_natCast (by simp)
  have hset : (front ++ [b] ++ [0]).set ((front ++ [b]).length - 1) 0 = front ++ 0 :: [0] := by
    have hlen : (front ++ [b]).length - 1 = front.length := by simp
    rw [hlen, List.append_assoc, List.set_append_right _ _ le_rfl, Nat.sub_self]
    rfl
  rw [cString_terminated hchars, ok_bind, hb, ok_bind, chomped]
  by_cases hlf : b = 10
  · rw [if_pos hlf, if_pos (by simp [hlf]), hset, List.dropLast_concat]
    exact cString_terminated (fun c hc => hchars c (List.mem_append_left _ hc)) [0]
  · rw [if_neg hlf, if_neg (by simp [hlf])]
    exact cString_terminated hchars []

theorem length_chomped_le (read : List UInt8) : (chomped read).length ≤ read.length := by
  unfold chomped
  split
  · rw [List.length_dropLast]
    omega
  · exact le_rfl

/-- What the loader does with a line. -/
theorem funcsLine_eq (funcs : FuncArray) (hne : read ≠ []) (hchars : ∀ b ∈ read, b ≠ 0)
    (hlen : read.length ≤ 1023) :
    funcsLine funcs read =
      match readEntry read with
      | none => .ok { funcs with base := readBase funcs.base read }
      | some name => funcArrayAddEntry funcs name := by
  obtain ⟨b, hhead⟩ : ∃ b, read.head? = some b := by
    cases read with
    | nil => exact absurd rfl hne
    | cons b read => exact ⟨b, rfl⟩
  unfold funcsLine readEntry readBase
  dsimp only
  rw [byteAt_head hhead, ok_bind, hhead]
  by_cases hcr : b = 13
  · subst hcr
    rfl
  by_cases hhash : b = 35
  · subst hhash
    have hstring : cString (read ++ [0]) = .ok read := cString_terminated hchars []
    simp only [hstring, ok_bind, textAt_baseFormat hhead (by omega), atoi_firstNumber]
    by_cases hbase : literal "BC_BASE" <:+: read
    · simp [hbase]
    · simp [hbase]
  · have hread := cString_chomped hne hchars
    have hname := textAt_nameFormat ((length_chomped_le read).trans_lt (by omega))
    rw [if_neg hcr, if_neg hhash, if_neg (by simp [hcr, hhash])]
    obtain ⟨text, htext, hread⟩ := bind_eq_ok.mp hread
    obtain ⟨last, hlast, hread⟩ := bind_eq_ok.mp hread
    rw [htext, ok_bind, hlast, ok_bind, hread, ok_bind, hname, ok_bind]

end Read

/-! ## The loop -/

/-- What `fgets` returns of a text file. -/
structure IsRead (read : List UInt8) : Prop where
  ne_nil : read ≠ []
  ne_zero : ∀ b ∈ read, b ≠ 0
  length_le : read.length ≤ 1023

theorem fgets_append_rest (n : ℕ) (file : List UInt8) :
    (fgets n file).1 ++ (fgets n file).2 = file := by
  induction n generalizing file with
  | zero => rfl
  | succ n ih =>
    cases file with
    | nil => rfl
    | cons b file =>
      rw [fgets]
      split
      · rfl
      · rw [List.cons_append, ih]

theorem fgets_length_le (n : ℕ) (file : List UInt8) : (fgets n file).1.length ≤ n := by
  induction n generalizing file with
  | zero => exact le_rfl
  | succ n ih =>
    cases file with
    | nil => exact Nat.zero_le _
    | cons b file =>
      rw [fgets]
      split
      · exact Nat.le_add_left 1 n
      · exact Nat.succ_le_succ (ih file)

theorem fgets_ne_nil {n : ℕ} {file : List UInt8} (h : file ≠ []) : (fgets (n + 1) file).1 ≠ [] := by
  obtain ⟨b, file, rfl⟩ := List.exists_cons_of_ne_nil h
  rw [fgets]
  split
  · exact List.cons_ne_nil _ _
  · exact List.cons_ne_nil _ _

theorem isRead_of_fgetsAll {file : List UInt8} (hfile : ∀ b ∈ file, b ≠ 0) {n : ℕ} :
    ∀ read ∈ fgetsAll n file, IsRead read := by
  induction n generalizing file with
  | zero =>
    intro read hread
    cases hread
  | succ n ih =>
    rw [fgetsAll]
    split
    · intro read hread
      cases hread
    · rename_i hne
      have hsplit := fgets_append_rest 1023 file
      have hpart : ∀ b, b ∈ (fgets 1023 file).1 ∨ b ∈ (fgets 1023 file).2 → b ≠ 0 := fun b hb =>
        hfile b (by rw [← hsplit]; exact List.mem_append.mpr hb)
      refine List.forall_mem_cons.mpr ⟨⟨fgets_ne_nil hne, fun b hb => hpart b (.inl hb),
        fgets_length_le 1023 file⟩, ih fun b hb => hpart b (.inr hb)⟩

section Loop

variable {p p' : FuncArray} {base : ℤ} {names reads : List (List UInt8)}

/-- The loop over the lines, as long as the names find room. -/
theorem FuncArray.Holds.funcsLoop (h : p.Holds base names) (hreads : ∀ r ∈ reads, IsRead r)
    (hfew : names.length + (reads.filterMap readEntry).length ≤ 1073741824) :
    ∃ p', TsmVm.funcsLoop reads p = .ok p' ∧
      p'.Holds (reads.foldl readBase base) (names ++ reads.filterMap readEntry) := by
  induction reads generalizing p base names with
  | nil => exact ⟨p, rfl, by simpa using h⟩
  | cons read reads ih =>
    obtain ⟨hread, hrest⟩ := List.forall_mem_cons.mp hreads
    have hline := funcsLine_eq p hread.ne_nil hread.ne_zero hread.length_le
    rw [TsmVm.funcsLoop, hline, List.foldl_cons]
    cases hentry : readEntry read with
    | none =>
      rw [List.filterMap_cons_none hentry] at hfew ⊢
      have hbase : ({ p with base := readBase p.base read } : FuncArray).Holds
          (readBase base read) names := { h with base_eq := by rw [h.base_eq] }
      exact ih hbase hrest hfew
    | some name =>
      rw [List.filterMap_cons_some hentry] at hfew ⊢
      rw [List.length_cons] at hfew
      obtain ⟨q, hq, hholds⟩ := h.addEntry (by omega) name
      have hbase : readBase base read = base := by
        refine if_neg fun hhash => ?_
        rw [readEntry, if_pos (.inr hhash.1)] at hentry
        cases hentry
      dsimp only
      rw [hq, ok_bind, hbase, List.append_cons]
      exact ih hholds hrest (by rw [List.length_append, List.length_singleton]; omega)

/-- Where it comes to its end they have found room. -/
theorem FuncArray.Holds.few_of_funcsLoop (h : p.Holds base names) (hreads : ∀ r ∈ reads, IsRead r)
    (hok : TsmVm.funcsLoop reads p = .ok p') :
    names.length + (reads.filterMap readEntry).length ≤ 1073741824 := by
  induction reads generalizing p base names with
  | nil =>
    obtain ⟨k, hk, hlen⟩ := h.doubled
    have hpow : (2 : ℕ) ^ k ≤ 2 ^ 22 := Nat.pow_le_pow_right (by decide) hk
    have hle := h.cnt_le
    simp only [List.filterMap_nil, List.length_nil]
    omega
  | cons read reads ih =>
    obtain ⟨hread, hrest⟩ := List.forall_mem_cons.mp hreads
    have hline := funcsLine_eq p hread.ne_nil hread.ne_zero hread.length_le
    rw [TsmVm.funcsLoop, hline] at hok
    cases hentry : readEntry read with
    | none =>
      rw [List.filterMap_cons_none hentry]
      rw [hentry] at hok
      have hbase : ({ p with base := readBase p.base read } : FuncArray).Holds
          (readBase base read) names := { h with base_eq := by rw [h.base_eq] }
      exact ih hbase hrest hok
    | some name =>
      rw [List.filterMap_cons_some hentry, List.length_cons]
      rw [hentry] at hok
      obtain ⟨q, hq, hok⟩ := bind_eq_ok.mp hok
      obtain ⟨q', hq', hholds⟩ := h.addEntry (h.few_of_addEntry hq) name
      obtain rfl : q = q' := Except.ok.inj (hq.symm.trans hq')
      have hfew := ih hholds hrest hok
      rw [List.length_append, List.length_singleton] at hfew
      omega

end Loop

/-! ## Kinds of lines -/

/-- A pattern without the characters of the ending does not reach into it. -/
theorem infix_append_iff_of_not_mem {sub s e : List UInt8} (hsub : sub ≠ [])
    (he : ∀ b ∈ e, b ∉ sub) : sub <:+: s ++ e ↔ sub <:+: s := by
  constructor
  · rintro ⟨front, back, h⟩
    obtain ⟨rest, hs, -⟩ | ⟨rest, hfront, hrest⟩ := List.append_eq_append_iff.mp h
    · exact ⟨front, rest, hs.symm⟩
    · obtain rfl | hne := eq_or_ne rest []
      · exact ⟨front, [], by rw [List.append_nil, hfront, List.append_nil]⟩
      · -- the last character of the pattern would be one of the ending
        have hlast := congrArg List.getLast? hfront
        rw [List.getLast?_append_of_ne_nil _ hsub, List.getLast?_append_of_ne_nil _ hne,
          List.getLast?_eq_some_getLast hne] at hlast
        have hmem : rest.getLast hne ∈ e := by
          rw [hrest]
          exact List.mem_append_left back (List.getLast_mem hne)
        exact absurd (List.mem_of_getLast? hlast) (he _ hmem)
  · exact fun h => h.trans (List.prefix_append s e).isInfix

theorem takeWhile_append_of_nil {q : UInt8 → Bool} {e : List UInt8} (he : e.takeWhile q = [])
    (s : List UInt8) : (s ++ e).takeWhile q = s.takeWhile q := by
  induction s with
  | nil => simpa using he
  | cons b s ih =>
    rw [List.cons_append, List.takeWhile_cons, List.takeWhile_cons, ih]

theorem LineEnding.bytes_cases (e : LineEnding) : ∀ b ∈ e.bytes, b = 13 ∨ b = 10 := by
  cases e <;> simp [LineEnding.bytes]

section Kinds

variable {l : ScriptLine} {p : Prototype}

theorem mentions_bytes (l : ScriptLine) :
    literal "BC_BASE" <:+: l.bytes ↔ literal "BC_BASE" <:+: l.text := by
  refine infix_append_iff_of_not_mem (by decide) fun b hb => ?_
  obtain rfl | rfl := l.ending.bytes_cases b hb
  · decide
  · decide

/-- The ending has no digits. -/
theorem firstNumber_bytes (l : ScriptLine) : firstNumber l.bytes = firstNumber l.text := by
  have hend : ∀ b ∈ l.ending.bytes, isDigit b = false := by
    intro b hb
    obtain rfl | rfl := l.ending.bytes_cases b hb
    · rfl
    · rfl
  have htake : l.ending.bytes.takeWhile isDigit = [] := by
    cases hbytes : l.ending.bytes with
    | nil => rfl
    | cons c rest =>
      rw [hbytes] at hend
      rw [List.takeWhile_cons_of_neg (by simp [hend c])]
  have hdrop : l.ending.bytes.dropWhile (!isDigit ·) = [] := by
    rw [List.dropWhile_eq_nil_iff]
    simpa using hend
  unfold ScriptLine.bytes firstNumber
  rw [List.dropWhile_append]
  split
  · rename_i hnil
    rw [hdrop, List.isEmpty_iff.mp hnil]
  · exact takeWhile_append_of_nil htake _

theorem chomped_bytes (l : ScriptLine) : ∃ tail, chomped l.bytes = l.text ++ tail := by
  unfold ScriptLine.bytes chomped
  cases hend : l.ending with
  | lf => exact ⟨[], by simp [LineEnding.bytes]⟩
  | crlf =>
    refine ⟨[13], ?_⟩
    have hsplit : l.text ++ LineEnding.crlf.bytes = (l.text ++ [13]) ++ [10] := by
      simp [LineEnding.bytes]
    rw [hsplit, if_pos (by simp), List.dropLast_concat]
  | eof =>
    refine ⟨[], if_neg fun hlast => ?_⟩
    have hmem := List.mem_of_getLast? hlast
    rw [LineEnding.bytes, List.append_nil] at hmem
    exact ScriptLine.text_ne_ten 10 hmem rfl

theorem chomped_subset (read : List UInt8) : chomped read ⊆ read := by
  unfold chomped
  split
  · exact List.dropLast_subset read
  · exact List.Subset.refl read

theorem isComment_of_head (h : l.bytes.head? = some 35) : l.isComment = true := by
  unfold ScriptLine.isComment
  cases htext : l.text with
  | nil =>
    rw [ScriptLine.bytes, htext, List.nil_append] at h
    obtain hb | hb := l.ending.bytes_cases 35 (List.mem_of_head? h)
    · cases hb
    · cases hb
  | cons b rest =>
    rw [ScriptLine.bytes, htext] at h
    obtain rfl : b = 35 := by simpa using h
    rfl

/-- Blanks hold no name. -/
theorem nameIn_of_isSpace {s : List UInt8} (h : ∀ b ∈ s, isSpace b = true) : nameIn s = [] := by
  unfold nameIn
  split
  · rfl
  · have hnil : (s.dropWhile (· ≠ 32)).dropWhile isSpace = [] :=
      List.dropWhile_eq_nil_iff.mpr fun b hb => h b ((List.dropWhile_sublist _).subset hb)
    rw [hnil]
    rfl

/-- A blank line is skipped where it is empty and ends with CR LF. -/
theorem isSkipped_iff_of_isBlank (hblank : l.isBlank = true) :
    l.isSkipped = true ↔ l.text = [] ∧ l.ending = .crlf := by
  rw [ScriptLine.isSkipped, isComment_of_isBlank hblank]
  simp

/-- A blank line that is not passed over becomes an entry without a name. -/
theorem readEntry_of_isBlank (hblank : l.isBlank = true) (hne : l.bytes ≠ []) :
    readEntry l.bytes = if l.isSkipped then none else some [] := by
  unfold readEntry
  cases hskip : l.isSkipped with
  | true => exact if_pos ((isSkipped_iff_head hne).mp hskip).symm
  | false =>
    have hhead : ¬ (l.bytes.head? = some 13 ∨ l.bytes.head? = some 35) := fun h => by
      rw [(isSkipped_iff_head hne).mpr h.symm] at hskip
      cases hskip
    have hspace : ∀ b ∈ l.bytes, isSpace b = true := by
      intro b hb
      obtain hb | hb := List.mem_append.mp hb
      · exact List.all_eq_true.mp hblank b hb
      · obtain rfl | rfl := l.ending.bytes_cases b hb
        · rfl
        · rfl
    rw [if_neg hhead, nameIn_of_isSpace fun b hb => hspace b (chomped_subset _ hb)]
    rfl

theorem isSpace_of_isNameByte {b : UInt8} (h : isNameByte b = true) : isSpace b = false := by
  cases hspace : isSpace b with
  | false => rfl
  | true =>
    obtain rfl | rfl | rfl | rfl | rfl | rfl := isSpace_cases hspace
    all_goals cases h

theorem isNameByte_ne {b : UInt8} (h : isNameByte b = true) :
    b ≠ 13 ∧ b ≠ 32 ∧ b ≠ 35 ∧ b ≠ 40 := by
  refine ⟨?_, ?_, ?_, ?_⟩
  all_goals
    rintro rfl
    cases h

theorem Prototype.exists_type (p : Prototype) :
    ∃ b rest, p.type = b :: rest ∧ isNameByte b = true := by
  have hstart := p.type_start
  cases htype : p.type with
  | nil =>
    rw [htype] at hstart
    cases hstart
  | cons b rest =>
    rw [htype] at hstart
    exact ⟨b, rest, rfl, hstart⟩

theorem dropWhile_append_space (s r : List UInt8) :
    (s ++ 32 :: r).dropWhile (· ≠ 32) = s.dropWhile (· ≠ 32) ++ 32 :: r := by
  induction s with
  | nil => rfl
  | cons b s ih =>
    by_cases hb : b = 32
    · simp [hb]
    · simpa [hb] using ih

/-- The name is found where the type is one word. -/
theorem nameIn_prototype (p : Prototype) (tail : List UInt8) :
    nameIn (p.text ++ tail) = p.name ↔ ∀ b ∈ p.type.dropWhile (· ≠ 32), isSpace b = true := by
  obtain ⟨b, rest, htype, hb⟩ := p.exists_type
  obtain ⟨c, cs, hname⟩ := List.exists_cons_of_ne_nil p.name_ne
  have hc := isSpace_of_isNameByte (p.name_chars c (by simp [hname]))
  have hchars : ∀ d ∈ p.name, d ≠ 40 := fun d hd => (isNameByte_ne (p.name_chars d hd)).2.2.2
  have htext : p.text ++ tail =
      p.type ++ 32 :: (p.name ++ 40 :: (p.args ++ literal ");" ++ tail)) := by
    simp [Prototype.text]
  generalize p.args ++ literal ");" ++ tail = behind at htext
  have htake : (p.text ++ tail).takeWhile (· ≠ 32) ≠ [] := by
    rw [htext, htype, List.cons_append, List.takeWhile_cons_of_pos]
    · exact List.cons_ne_nil _ _
    · simpa using (isNameByte_ne hb).2.1
  have hfound : (p.name ++ 40 :: behind).takeWhile (· ≠ 40) = p.name := by
    rw [List.takeWhile_append_of_pos (by simpa using hchars)]
    simp
  rw [nameIn, if_neg htake, htext, dropWhile_append_space, List.dropWhile_append]
  constructor
  · intro h
    rw [← List.dropWhile_eq_nil_iff]
    by_contra hne
    -- what is left of the type would belong to the name
    have hleft : ∀ d ∈ (p.type.dropWhile (· ≠ 32)).dropWhile isSpace ++ 32 :: p.name, d ≠ 40 := by
      intro d hd
      obtain hd | hd := List.mem_append.mp hd
      · exact p.type_chars d ((List.dropWhile_sublist _).subset
          ((List.dropWhile_sublist _).subset hd))
      · obtain rfl | hd := List.mem_cons.mp hd
        · decide
        · exact hchars d hd
    rw [if_neg (by simpa using hne), List.append_cons, ← List.append_assoc,
      List.takeWhile_append_of_pos (by simpa using hleft)] at h
    have hlen := congrArg List.length h
    simp at hlen
    omega
  · intro h
    rw [List.dropWhile_eq_nil_iff.mpr h, List.isEmpty_nil, if_pos rfl,
      List.dropWhile_cons_of_pos (by decide), hname, List.cons_append,
      List.dropWhile_cons_of_neg (by simp [hc]), ← List.cons_append, ← hname, hfound]

end Kinds

/-- Two ways to pick entries of a list that agree on which there are. -/
theorem eq_of_filterMap_eq {α β : Type} {f g : α → Option β} {l : List α}
    (hsome : ∀ a ∈ l, (f a).isSome = (g a).isSome) (h : l.filterMap f = l.filterMap g) :
    ∀ a ∈ l, f a = g a := by
  induction l with
  | nil => simp
  | cons a l ih =>
    obtain ⟨ha, hl⟩ := List.forall_mem_cons.mp hsome
    cases hf : f a with
    | none =>
      have hg : g a = none := by
        rw [hf] at ha
        exact Option.isNone_iff_eq_none.mp (by simpa using ha)
      rw [List.filterMap_cons_none hf, List.filterMap_cons_none hg] at h
      exact List.forall_mem_cons.mpr ⟨hf.trans hg.symm, ih hl h⟩
    | some b =>
      obtain ⟨b', hg⟩ : ∃ b', g a = some b' := by
        rw [hf] at ha
        exact Option.isSome_iff_exists.mp ha.symm
      rw [List.filterMap_cons_some hf, List.filterMap_cons_some hg] at h
      have hcons := List.cons.inj h
      exact List.forall_mem_cons.mpr ⟨by rw [hf, hg, hcons.1], ih hl hcons.2⟩

/-! ## Headers -/

namespace HeaderLine

variable {l : HeaderLine}

/-- What the loader makes of the lines, behind the place they have in the file. -/
theorem readEntry_prototype {sl : ScriptLine} {p : Prototype} {h : sl.text = p.text} :
    ∃ name, readEntry (prototype sl p h).line.bytes = some name ∧
      (name = p.name ↔ ∀ b ∈ p.type.dropWhile (· ≠ 32), isSpace b = true) := by
  obtain ⟨b, rest, htype, hb⟩ := p.exists_type
  obtain ⟨tail, htail⟩ := chomped_bytes sl
  have hhead : sl.bytes.head? = some b := by
    rw [ScriptLine.bytes, h, Prototype.text, htype]
    rfl
  have hread : readEntry sl.bytes = some (nameIn (p.text ++ tail)) := by
    rw [readEntry, hhead, if_neg, htail, h]
    simpa using ⟨(isNameByte_ne hb).1, (isNameByte_ne hb).2.2.1⟩
  exact ⟨_, hread, nameIn_prototype p tail⟩

theorem head_preprocessor {sl : ScriptLine} (h : sl.text.head? = some 35) :
    sl.bytes.head? = some 35 := by
  rw [ScriptLine.bytes, List.head?_append, h]
  rfl

theorem readEntry_preprocessor {sl : ScriptLine} {h : sl.text.head? = some 35} :
    readEntry (preprocessor sl h).line.bytes = none := if_pos (.inr (head_preprocessor h))

/-- Only preprocessor lines give a base. -/
theorem readBase_line (l : HeaderLine) (base : ℤ) :
    readBase base l.line.bytes =
      if l.mentionsBase then longToInt (decimalOf (firstNumber l.line.text)) else base := by
  unfold readBase
  cases l with
  | preprocessor sl h =>
    simp only [line, mentionsBase, head_preprocessor h, mentions_bytes, firstNumber_bytes,
      true_and, decide_eq_true_eq]
  | blank sl h =>
    refine if_neg fun hhash => ?_
    have hcomment : sl.isComment = true := isComment_of_head hhash.1
    rw [isComment_of_isBlank h] at hcomment
    cases hcomment
  | prototype sl p h =>
    refine if_neg fun hhash => ?_
    obtain ⟨name, hname, -⟩ := readEntry_prototype (h := h)
    rw [readEntry, if_pos (.inr hhash.1)] at hname
    cases hname

end HeaderLine

namespace HeaderFile

variable {file : HeaderFile} {path : List UInt8}

theorem bytes_ne_nil (file : HeaderFile) : ∀ l ∈ file.lines, l.line.bytes ≠ [] := fun _ hl =>
  file.toScriptFile.bytes_ne_nil _ (List.mem_map_of_mem hl)

theorem bytes_ne_zero (file : HeaderFile) : ∀ b ∈ file.toScriptFile.bytes, b ≠ 0 := by
  intro b hb
  obtain ⟨l, -, hb⟩ := List.mem_flatMap.mp hb
  obtain hb | hb := List.mem_append.mp hb
  · exact (l.chars b hb).1
  · exact l.ending.bytes_ne_zero b hb

/-- What `fgets` returns of the file. -/
def reads (file : HeaderFile) : List (List UInt8) :=
  fgetsAll file.toScriptFile.bytes.length file.toScriptFile.bytes

theorem isRead (file : HeaderFile) : ∀ r ∈ file.reads, IsRead r :=
  isRead_of_fgetsAll file.bytes_ne_zero

theorem reads_eq (hfits : ∀ l ∈ file.lines, l.line.bytes.length ≤ 1023) :
    file.reads = file.lines.map fun l => l.line.bytes := by
  have h := fgetsAll_lines file.ended file.last_ne
    (by simpa using hfits) (le_refl (file.toScriptFile.bytes).length)
  rw [List.map_map] at h
  exact h

theorem names_ne_nil (file : HeaderFile) : [] ∉ file.names := by
  intro h
  obtain ⟨l, -, hname⟩ := List.mem_filterMap.mp h
  cases l with
  | preprocessor l h => cases hname
  | blank l h => cases hname
  | prototype l p h => exact p.name_ne (Option.some.inj hname)

theorem getFuncsName_eq (path : List UInt8) (file : HeaderFile) :
    bcloaderGetFuncsName (fun _ => some file.toScriptFile.bytes) path
        (some (funcArrayAlloc defBycodeSize)) = do
      let p ← funcsLoop file.reads (funcArrayAlloc defBycodeSize)
      return (0, some p) := rfl

/-- The base is given by the last line that mentions it. -/
theorem foldl_readBase (lines : List HeaderLine) (base : ℤ) :
    (lines.map fun l => l.line.bytes).foldl readBase base =
      ((lines.filter HeaderLine.mentionsBase).getLast?.map
        fun l => longToInt (decimalOf (firstNumber l.line.text))).getD base := by
  induction lines generalizing base with
  | nil => rfl
  | cons l lines ih =>
    rw [List.map_cons, List.foldl_cons, l.readBase_line, ih]
    cases hmentions : l.mentionsBase with
    | false => rw [List.filter_cons_of_neg (by simp [hmentions])]; rfl
    | true =>
      rw [List.filter_cons_of_pos hmentions, List.getLast?_cons]
      cases (lines.filter HeaderLine.mentionsBase).getLast? <;> rfl

/-- Some line does. -/
theorem exists_mentions (file : HeaderFile) :
    ∃ l, (file.lines.filter HeaderLine.mentionsBase).getLast? = some l := by
  obtain ⟨l, hl, hdefines⟩ := file.define
  have hmentions : l.mentionsBase = true := by
    cases l with
    | preprocessor l h =>
      obtain ⟨number, -, htext⟩ := hdefines
      exact decide_eq_true ⟨literal "#define ", 32 :: number, by rw [htext]; rfl⟩
    | blank l h => cases hdefines
    | prototype l p h => cases hdefines
  have hne : file.lines.filter HeaderLine.mentionsBase ≠ [] :=
    List.ne_nil_of_mem (List.mem_filter.mpr ⟨hl, hmentions⟩)
  exact ⟨_, List.getLast?_eq_some_getLast hne⟩

/-- In a header that is as it should be the entries are the names. -/
theorem Loadable.entries_eq (h : file.Loadable) :
    file.reads.filterMap readEntry = file.names := by
  rw [reads_eq h.fits, List.filterMap_map]
  refine List.filterMap_congr fun l hl => ?_
  have hne := file.bytes_ne_nil l hl
  cases l with
  | preprocessor l hhash => exact HeaderLine.readEntry_preprocessor
  | blank l hblank =>
    have hskip := (isSkipped_iff_of_isBlank hblank).mpr (h.blank l hblank hl)
    exact (readEntry_of_isBlank hblank hne).trans (if_pos hskip)
  | prototype l p htext =>
    obtain ⟨name, hname, hiff⟩ := HeaderLine.readEntry_prototype (h := htext)
    exact hname.trans (congrArg some (hiff.mpr (h.types l p htext hl)))

/-- It is followed. -/
theorem Loadable.followsHeader (h : file.Loadable) (path : List UInt8) :
    FollowsHeader path file := by
  obtain ⟨p, hloop, hholds⟩ := funcArrayAlloc_holds.funcsLoop file.isRead
    (by rw [h.entries_eq]; simpa using h.few)
  rw [h.entries_eq, List.nil_append] at hholds
  obtain ⟨l, hl⟩ := file.exists_mentions
  have hbase : file.reads.foldl readBase 0 = file.base := by
    rw [reads_eq h.fits, foldl_readBase, hl]
    exact h.base_last l hl
  exact ⟨p, by rw [getFuncsName_eq, hloop]; rfl, hholds.base_eq.trans hbase, hholds.cnt_eq,
    hholds.slot⟩

/-- Where the entries are the names every line fits. -/
theorem fits_of_entries_eq (h : file.reads.filterMap readEntry = file.names) :
    ∀ l ∈ file.lines, l.line.bytes.length ≤ 1023 := by
  by_contra hlong
  push Not at hlong
  obtain ⟨l, hl, hlong⟩ := hlong
  have hmem : [10] ∈ file.reads := fgetsAll_long file.ended file.last_ne
    ⟨l.line, List.mem_map_of_mem hl, hlong⟩ le_rfl
  refine file.names_ne_nil ?_
  rw [← h]
  exact List.mem_filterMap.mpr ⟨[10], hmem, rfl⟩

/-- There the blank lines make no entries. -/
theorem blank_of_entries_eq (h : file.reads.filterMap readEntry = file.names) :
    ∀ l hb, .blank l hb ∈ file.lines → l.text = [] ∧ l.ending = .crlf := by
  intro l hb hl
  by_contra hnot
  have hskip : l.isSkipped = false :=
    Bool.eq_false_iff.mpr fun hskip => hnot ((isSkipped_iff_of_isBlank hb).mp hskip)
  have hentry := readEntry_of_isBlank hb (file.bytes_ne_nil _ hl)
  rw [hskip] at hentry
  refine file.names_ne_nil ?_
  rw [← h, reads_eq (fits_of_entries_eq h)]
  exact List.mem_filterMap.mpr ⟨l.bytes, List.mem_map.mpr ⟨_, hl, rfl⟩, hentry⟩

/-- There every line makes the entry it stands for. -/
theorem readEntry_of_entries_eq (h : file.reads.filterMap readEntry = file.names) :
    ∀ l ∈ file.lines, readEntry l.line.bytes = l.name? := by
  refine eq_of_filterMap_eq (fun l hl => ?_) ?_
  · cases l with
    | preprocessor l hhash => exact congrArg Option.isSome HeaderLine.readEntry_preprocessor
    | blank l hb =>
      have hskip := (isSkipped_iff_of_isBlank hb).mpr (blank_of_entries_eq h l hb hl)
      have hentry := readEntry_of_isBlank hb (file.bytes_ne_nil _ hl)
      rw [if_pos hskip] at hentry
      exact congrArg Option.isSome hentry
    | prototype l p htext =>
      obtain ⟨name, hname, -⟩ := HeaderLine.readEntry_prototype (h := htext)
      rw [hname]
      rfl
  · rw [reads_eq (fits_of_entries_eq h), List.filterMap_map] at h
    exact h

/-- An array that holds the entries of the file and its names has only one list. -/
theorem entries_eq_of_holds {p : FuncArray} {base : ℤ}
    (hholds : p.Holds base (file.reads.filterMap readEntry)) (hcnt : p.cnt = file.names.length)
    (hslot : ∀ (i : ℕ) (name : List UInt8), file.names[i]? = some name →
      p.array[i]? = some (some name)) :
    file.reads.filterMap readEntry = file.names := by
  have hlen : (file.reads.filterMap readEntry).length = file.names.length := by
    have hcnt' := hholds.cnt_eq
    omega
  refine List.ext_getElem hlen fun i hi hi' => ?_
  have hleft := hholds.slot i _ (List.getElem?_eq_getElem hi)
  have hright := hslot i _ (List.getElem?_eq_getElem hi')
  rw [hleft] at hright
  exact Option.some.inj (Option.some.inj hright)

/-- A header that is followed is as it should be. -/
theorem loadable_of_followsHeader (h : FollowsHeader path file) : file.Loadable := by
  obtain ⟨p, hrun, hbase, hcnt, hslot⟩ := h
  rw [getFuncsName_eq] at hrun
  obtain ⟨p', hloop, hrun⟩ := bind_eq_ok.mp hrun
  obtain rfl : p' = p := by simpa using hrun
  have hfew := funcArrayAlloc_holds.few_of_funcsLoop file.isRead hloop
  obtain ⟨q, hq, hholds⟩ := funcArrayAlloc_holds.funcsLoop file.isRead hfew
  obtain rfl : p' = q := Except.ok.inj (hloop.symm.trans hq)
  rw [List.nil_append] at hholds
  have hentries := entries_eq_of_holds hholds hcnt hslot
  have hfits := fits_of_entries_eq hentries
  rw [hentries, List.length_nil, Nat.zero_add] at hfew
  refine ⟨hfits, blank_of_entries_eq hentries, fun l p htext hl => ?_, fun l hl => ?_, hfew⟩
  · obtain ⟨name, hname, hiff⟩ := HeaderLine.readEntry_prototype (h := htext)
    have hsame := hname.symm.trans (readEntry_of_entries_eq hentries _ hl)
    exact hiff.mp (Option.some.inj hsame)
  · have hfold := hholds.base_eq
    rw [reads_eq hfits, foldl_readBase, hl] at hfold
    exact hfold.symm.trans hbase

end HeaderFile

/-- **Headers.** The base and the functions are those of the header exactly where it is
as the loader expects it. -/
theorem followsHeader_iff (path : List UInt8) (file : HeaderFile) :
    FollowsHeader path file ↔ file.Loadable :=
  ⟨HeaderFile.loadable_of_followsHeader, fun h => h.followsHeader path⟩

/-- The prototype `int f();`. -/
def plainPrototype : Prototype where
  type := literal "int"
  name := literal "f"
  args := []
  type_start := by decide
  type_chars _ hb := ne_of_mem_of_not_mem hb (by decide)
  name_ne := by decide
  name_chars := List.all_eq_true.mp (by decide)

theorem literal_empty_chars : ∀ b ∈ literal "", b ≠ 0 ∧ b ≠ 10 ∧ b ≠ 13 := List.forall_mem_nil _

theorem literal_empty_length : (literal "").length < 1023 := by decide

/-- A base, a blank line and a function, all ended by LF. -/
def blankLineHeader : HeaderFile where
  lines := [.preprocessor (plainLine "#define BC_BASE 0" .lf (by decide +kernel)
      (by decide +kernel)) (by decide +kernel),
    .blank (plainLine "" .lf literal_empty_chars literal_empty_length) rfl,
    .prototype (plainLine "int f();" .lf (by decide +kernel) (by decide +kernel)) plainPrototype
      (by decide +kernel)]
  base := 0
  define := ⟨_, List.mem_cons_self, literal "0", ⟨by decide, by decide +kernel, by decide⟩, rfl⟩
  ended := by simp [HeaderLine.line, plainLine]
  last_ne := by simp [HeaderLine.line, plainLine]

/-- The blank line becomes the first function. -/
theorem blankLineHeader_fails : ¬ ∀ (path : List UInt8) (file : HeaderFile),
    FollowsHeader path file := by
  intro h
  have hblank := (HeaderFile.loadable_of_followsHeader (h [] blankLineHeader)).blank _ _
    (List.mem_cons_of_mem _ List.mem_cons_self)
  cases hblank.2

end TsmVm
