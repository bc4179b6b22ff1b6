import TsmVm.Scloader

/-!
# Lines of a script and the entries they stand for

What a line of a script means is stated on its text, without its ending: a
number before the first delimiter, and non-empty fields behind it. The loader
makes just this entry of a line that is read in one piece and has at least two
characters, a number that fits, no delimiter in front of its operands, and at
most ten of them.
-/

namespace TsmVm

/-- How a line ends. -/
inductive LineEnding
  | lf
  | crlf
  /-- The file ends without one. -/
  | eof
  deriving DecidableEq, Repr

/-- The characters of an ending. -/
def LineEnding.bytes : LineEnding → List UInt8
  | .lf => [10]
  | .crlf => [13, 10]
  | .eof => []

theorem LineEnding.bytes_ne_zero (e : LineEnding) : ∀ b ∈ e.bytes, b ≠ 0 := by
  cases e <;> simp [LineEnding.bytes]

/-- A line of a text file. -/
structure ScriptLine where
  /-- The characters before the ending. -/
  text : List UInt8
  /-- The ending. -/
  ending : LineEnding
  /-- They are neither NUL nor line endings themselves. -/
  chars : ∀ b ∈ text, b ≠ 0 ∧ b ≠ 10 ∧ b ≠ 13
  /-- There are less than 1023 of them. -/
  length_lt : text.length < 1023

namespace ScriptLine

/-- The line as it lies in the file. -/
def bytes (l : ScriptLine) : List UInt8 := l.text ++ l.ending.bytes

/-- The line is a comment. -/
def isComment (l : ScriptLine) : Bool := l.text.head? == some 35

/-- The line is blank. -/
def isBlank (l : ScriptLine) : Bool := l.text.all isSpace

/-- The line stands for an entry. -/
def isCode (l : ScriptLine) : Bool := !l.isComment && !l.isBlank

end ScriptLine

/-- The number a sequence of digits denotes. -/
def decimalOf (digits : List UInt8) : ℤ := digits.foldl (fun n b => n * 10 + (b.toNat - 48)) 0

/-- The decimal number a text starts with, behind blanks and a sign. -/
def signedDecimal (s : List UInt8) : ℤ :=
  match s.dropWhile isSpace with
  | [] => 0
  | b :: s =>
    if b = 45 then -decimalOf (s.takeWhile isDigit)
    else if b = 43 then decimalOf (s.takeWhile isDigit)
    else decimalOf ((b :: s).takeWhile isDigit)

namespace ScriptLine

/-- The text before the first delimiter. -/
def front (l : ScriptLine) : List UInt8 := l.text.takeWhile (!isDelim ·)

/-- The number of the bytecode. -/
def number (l : ScriptLine) : ℤ := signedDecimal l.front

/-- The operands: nothing without a comma, else the non-empty fields behind the
first delimiter. -/
def operands (l : ScriptLine) : Option (List (List UInt8)) :=
  if (44 : UInt8) ∈ l.text then some (Fields.fields isDelim (l.text.dropWhile (!isDelim ·)))
  else none

end ScriptLine

/-- An operand array holds some texts, in order, without line endings. -/
structure FmBytesArray.Holds (fba : FmBytesArray) (texts : List (List UInt8)) : Prop where
  /-- There are as many operands as texts. -/
  cnt_eq : fba.cnt = texts.length
  /-- Each operand is its text. -/
  operand : ∀ (i : ℕ) (text : List UInt8), texts[i]? = some text →
    ∃ p : FmBytes, fba.array[i]? = some (some p) ∧ p.leng = text.length ∧ p.content = text ∧
      ∀ b ∈ p.content, b ≠ 10 ∧ b ≠ 13

/-- The entry at a position is the one a line stands for. -/
structure EntryFor (k : ℕ) (l : ScriptLine) (ce : CodeEntry) : Prop where
  /-- The address is the position. -/
  addr_eq : ce.addr = k
  /-- The bytecode is the one the line names. -/
  code_eq : ce.code = l.number
  /-- The operands are those of the line. -/
  parameters_eq : match l.operands with
    | none => ce.parameters = none
    | some texts => ∃ fba, ce.parameters = some fba ∧ fba.Holds texts

/-- A line the loader reads as it is meant. -/
structure ScriptLine.Readable (l : ScriptLine) : Prop where
  /-- Two characters can be looked back at. -/
  two_le : 2 ≤ l.bytes.length
  /-- The number is that of an `int`. -/
  number_fits : -2147483648 ≤ l.number ∧ l.number < 2147483648
  /-- A line with operands does not start with a delimiter. -/
  front_ne : (44 : UInt8) ∈ l.text → l.front ≠ []
  /-- There are ten operands at most. -/
  few : ∀ texts, l.operands = some texts → texts.length ≤ 10

/-! ## Numbers -/

theorem longToInt_eq_self_iff {v : ℤ} : longToInt v = v ↔ -2147483648 ≤ v ∧ v < 2147483648 := by
  unfold longToInt
  rw [Int.bmod_eq_emod]
  constructor
  · intro h
    split at h <;> omega
  · intro h
    split <;> omega

theorem atoiDigits_eq {d : UInt8} (hd : isDigit d = false) (s rest : List UInt8) (acc : ℤ) :
    atoiDigits (s ++ d :: rest) acc =
      .ok ((s.takeWhile isDigit).foldl (fun n b => n * 10 + (b.toNat - 48)) acc) := by
  induction s generalizing acc with
  | nil => simp [atoiDigits, hd]
  | cons b s ih =>
    cases hb : isDigit b with
    | true => simp [atoiDigits, hb, ih]
    | false => simp [atoiDigits, hb]

/-- A byte that ends a number wherever it stands in it. -/
structure EndsNumber (d : UInt8) : Prop where
  /-- It is no blank. -/
  space_eq : isSpace d = false
  /-- It is no digit. -/
  digit_eq : isDigit d = false
  /-- It is no sign. -/
  sign_ne : d ≠ 45 ∧ d ≠ 43

theorem endsNumber_zero : EndsNumber 0 := ⟨by decide, by decide, by decide⟩

theorem endsNumber_of_isDelim {d : UInt8} (h : isDelim d = true) : EndsNumber d := by
  obtain rfl | rfl : d = 44 ∨ d = 58 := by simpa [isDelim] using h
  all_goals exact ⟨by decide, by decide, by decide⟩

/-- `atoi` reads the number a text starts with, as an `int`. -/
theorem atoi_eq {d : UInt8} (hd : EndsNumber d) (s rest : List UInt8) :
    atoi (s ++ d :: rest) = .ok (longToInt (signedDecimal s)) := by
  induction s with
  | nil =>
    have hdigits := atoiDigits_eq hd.digit_eq [] rest 0
    simp only [List.nil_append, List.takeWhile_nil, List.foldl_nil] at hdigits
    simp [atoi, atoiSign, signedDecimal, hd.space_eq, hd.sign_ne, hdigits]
  | cons b s ih =>
    cases hb : isSpace b with
    | true =>
      have hskip : signedDecimal (b :: s) = signedDecimal s := by
        simp [signedDecimal, hb]
      rw [hskip, List.cons_append, atoi, if_pos hb, ih]
    | false =>
      have hstay : (b :: s).dropWhile isSpace = b :: s := by simp [hb]
      have hs := atoiDigits_eq hd.digit_eq s rest 0
      have hbs := atoiDigits_eq hd.digit_eq (b :: s) rest 0
      simp only [List.cons_append] at hbs
      simp only [List.cons_append, atoi, hb, Bool.false_eq_true, if_false, atoiSign, signedDecimal,
        hstay, decimalOf, hs, hbs, ok_bind, pure_eq_ok]
      split
      · rfl
      · split <;> rfl

/-! ## Operands -/

/-- Where the array of the loader stands after some operands. -/
structure ParamsAt (done : List (List UInt8)) (fba : FmBytesArray) : Prop where
  /-- They are stored. -/
  holds : fba.Holds done
  /-- The array has as many slots as it records. -/
  size_eq : fba.size = fba.array.length
  /-- It has grown once if it had to. -/
  size_cases : fba.size = 5 ∧ done.length ≤ 5 ∨ fba.size = 10 ∧ done.length ≤ 10

theorem paramsAt_alloc (addr : ℕ) : ParamsAt [] (fmBytesArrayAlloc addr defaultParamNum) := by
  refine ⟨⟨rfl, ?_⟩, ?_, .inl ⟨rfl, by simp⟩⟩
  · intro i text h
    simp at h
  · simp [fmBytesArrayAlloc]

/-- An operand of the loader is a copy of its text. -/
theorem copyText {addr : ℕ} (haddr : addr ≠ 0) (behind : List UInt8) {text : List UInt8}
    (hne : text ≠ []) :
    fmBytesCopyFrom (fmBytesAlloc addr behind text.length) 0 (some (text ++ [0])) 0 text.length =
      .ok (0, some { size := text.length, leng := text.length, addr := addr,
                     buf := text ++ behind }) := by
  have hpos : 0 < text.length := List.length_pos_of_ne_nil hne
  have halloc : fmBytesAlloc addr behind text.length = some
      { size := text.length, leng := 0, addr := addr,
        buf := List.replicate text.length 0 ++ behind } := by
    unfold fmBytesAlloc
    rw [if_neg (by omega), Int.toNat_natCast]
  have hread : memRead (text ++ [0]) 0 text.length = .ok text := by
    unfold memRead
    rw [if_neg (by omega), if_pos ⟨le_refl _, by omega, by simp⟩]
    simp
  have hwrite : memWrite (List.replicate text.length 0 ++ behind) text.length 0 text =
      .ok (text ++ behind) := by
    unfold memWrite
    rw [if_neg hne, if_pos ⟨le_refl _, by omega, by simp⟩]
    simp
  rw [halloc]
  simp [fmBytesCopyFrom, haddr, hread, hwrite]

/-- The array after the test of its capacity. -/
def grow (addr : ℕ) (fba : FmBytesArray) : FmBytesArray :=
  if fba.size - fba.cnt < 1 then fmBytesArrayResize addr fba (2 * defaultParamNum) else fba

/-- Below ten operands there is room for one more. -/
theorem ParamsAt.grow {done : List (List UInt8)} {fba : FmBytesArray} (h : ParamsAt done fba)
    (addr : ℕ) (hlen : done.length < 10) :
    ParamsAt done (grow addr fba) ∧ done.length < (TsmVm.grow addr fba).size := by
  have hcnt := h.holds.cnt_eq
  unfold TsmVm.grow
  split
  · rename_i hfull
    obtain ⟨hsize, hfew⟩ | ⟨hsize, hfew⟩ := h.size_cases
    · have hused : (fba.array.take fba.cnt.toNat).length = 5 := by
        have := h.size_eq
        rw [List.length_take]
        omega
      have hresize : fmBytesArrayResize addr fba (2 * defaultParamNum) =
          { addr := addr, size := 10, cnt := fba.cnt,
            array := fba.array.take fba.cnt.toNat ++ List.replicate 5 none } := by
        unfold fmBytesArrayResize
        rw [if_neg (by rw [hsize]; decide)]
        dsimp only
        rw [hused]
        rfl
      rw [hresize]
      refine ⟨⟨⟨hcnt, fun i text htext => ?_⟩, ?_, .inr ⟨rfl, by omega⟩⟩, ?_⟩
      · have hi : i < done.length := (List.getElem?_eq_some_iff.mp htext).1
        obtain ⟨p, hp, hrest⟩ := h.holds.operand i text htext
        refine ⟨p, ?_, hrest⟩
        rw [List.getElem?_append_left (by omega), List.getElem?_take_of_lt (by omega)]
        exact hp
      · simp only [List.length_append, hused, List.length_replicate]
        decide
      · show (done.length : ℤ) < 10
        omega
    · omega
  · exact ⟨h, by omega⟩

/-- Storing an operand where there is room. -/
theorem ParamsAt.store {done : List (List UInt8)} {fba : FmBytesArray} (h : ParamsAt done fba)
    (hroom : done.length < fba.size) {p : FmBytes} {text : List UInt8}
    (hleng : p.leng = text.length) (hcontent : p.content = text)
    (hchars : ∀ b ∈ text, b ≠ 10 ∧ b ≠ 13) :
    ∃ r, fba.store done.length (some p) = .ok r ∧
      ParamsAt (done ++ [text]) { r with cnt := (done.length : ℤ) + 1 } := by
  have hsize := h.size_eq
  refine ⟨{ fba with array := fba.array.set done.length (some p) }, ?_, ⟨⟨?_, ?_⟩, ?_, ?_⟩⟩
  · unfold FmBytesArray.store
    rw [if_pos ⟨by omega, by omega⟩, Int.toNat_natCast]
  · simp
  · intro i t ht
    obtain hi | hi := Nat.lt_or_ge i done.length
    · rw [List.getElem?_append_left hi] at ht
      obtain ⟨q, hq, hrest⟩ := h.holds.operand i t ht
      exact ⟨q, by rw [List.getElem?_set_ne (by omega)]; exact hq, hrest⟩
    · have hlt : i < (done ++ [text]).length := (List.getElem?_eq_some_iff.mp ht).1
      simp only [List.length_append, List.length_singleton] at hlt
      obtain rfl : i = done.length := by omega
      obtain rfl : text = t := by simpa using ht
      refine ⟨p, List.getElem?_set_self (by omega), hleng, hcontent, ?_⟩
      rw [hcontent]
      exact hchars
  · simpa using hsize
  · simp only [List.length_append, List.length_singleton]
    obtain ⟨hfive, hfew⟩ | ⟨hten, hfew⟩ := h.size_cases
    · exact .inl ⟨hfive, by omega⟩
    · exact .inr ⟨hten, by omega⟩

section ParamLoop

variable {u : Unspec} {n : ℕ} {text : List UInt8} {done : List (List UInt8)} {fba : FmBytesArray}

/-- One round of the inner loop, while there is room. -/
theorem paramLoop_step (h : ParamsAt done fba) (hlen : done.length < 10) {piece rest : List UInt8}
    (hnext : Fields.next isDelim text = some (piece, rest))
    (hchars : ∀ b ∈ text, b ≠ 10 ∧ b ≠ 13) :
    ∃ r, ParamsAt (done ++ [piece]) r ∧
      paramLoop u (n + 1) text done.length fba = paramLoop u n rest (done ++ [piece]).length r := by
  have hne := Fields.ne_nil_of_next hnext
  have hpiece : ∀ b ∈ piece, b ≠ 10 ∧ b ≠ 13 := fun b hb =>
    hchars b ((Fields.subset_of_next hnext).1 hb)
  obtain ⟨hgrow, hroom⟩ := h.grow (u.addr 2) hlen
  obtain ⟨r, hstore, hr⟩ := hgrow.store hroom
    (p := { size := piece.length, leng := piece.length, addr := u.addr (done.length + 3),
            buf := piece ++ u.behind (done.length + 3) }) rfl (by simp [FmBytes.content]) hpiece
  refine ⟨_, hr, ?_⟩
  have hcopy := copyText (u.addr_ne_zero (done.length + 3)) (u.behind (done.length + 3)) hne
  unfold grow at hstore
  rw [paramLoop, hnext]
  simp only [hcopy, ok_bind, hstore, List.length_append, List.length_singleton]

/-- With ten operands at most the loop stores them all. -/
theorem paramLoop_holds (h : ParamsAt done fba) (hn : text.length ≤ n)
    (hchars : ∀ b ∈ text, b ≠ 10 ∧ b ≠ 13)
    (hfew : done.length + (Fields.fields isDelim text).length ≤ 10) :
    ∃ r, paramLoop u n text done.length fba = .ok r ∧
      ParamsAt (done ++ Fields.fields isDelim text) r := by
  induction n generalizing text done fba with
  | zero =>
    obtain rfl : text = [] := List.length_eq_zero_iff.mp (by omega)
    exact ⟨fba, rfl, by simpa using h⟩
  | succ n ih =>
    cases hnext : Fields.next isDelim text with
    | none =>
      rw [Fields.next_eq_none_iff.mp hnext, List.append_nil]
      exact ⟨fba, by rw [paramLoop, hnext], h⟩
    | some r =>
      obtain ⟨piece, rest⟩ := r
      have hfields := Fields.fields_of_next hnext
      have hshort := Fields.length_of_next hnext
      rw [hfields, List.length_cons] at hfew
      obtain ⟨r, hr, hstep⟩ := paramLoop_step (u := u) (n := n) h (by omega) hnext hchars
      rw [hstep, hfields, List.append_cons done piece (Fields.fields isDelim rest)]
      refine ih hr (by omega) (fun b hb => hchars b ((Fields.subset_of_next hnext).2 hb)) ?_
      rw [List.length_append, List.length_singleton]
      omega

/-- The eleventh operand is stored behind the array. -/
theorem paramLoop_few (h : ParamsAt done fba) (hn : text.length ≤ n)
    (hchars : ∀ b ∈ text, b ≠ 10 ∧ b ≠ 13) {r : FmBytesArray}
    (hok : paramLoop u n text done.length fba = .ok r) :
    done.length + (Fields.fields isDelim text).length ≤ 10 := by
  have hle : done.length ≤ 10 := by
    obtain ⟨-, hfew⟩ | ⟨-, hfew⟩ := h.size_cases <;> omega
  induction n generalizing text done fba with
  | zero =>
    obtain rfl : text = [] := List.length_eq_zero_iff.mp (by omega)
    simpa using hle
  | succ n ih =>
    cases hnext : Fields.next isDelim text with
    | none =>
      rw [Fields.next_eq_none_iff.mp hnext]
      exact hle
    | some next =>
      obtain ⟨piece, rest⟩ := next
      have hshort := Fields.length_of_next hnext
      rw [Fields.fields_of_next hnext, List.length_cons]
      obtain hlt | hten := Nat.lt_or_ge done.length 10
      · obtain ⟨r', hr', hstep⟩ := paramLoop_step (u := u) (n := n) h hlt hnext hchars
        rw [hstep] at hok
        have hlen : (done ++ [piece]).length = done.length + 1 := by simp
        have := ih hr' (by omega) (fun b hb => hchars b ((Fields.subset_of_next hnext).2 hb)) hok
          (by omega)
        omega
      · -- all ten slots are taken, and the array does not grow a second time
        exfalso
        have hcnt := h.holds.cnt_eq
        have hsize := h.size_eq
        have hten' : fba.size = 10 := by
          obtain ⟨-, hfew⟩ | ⟨hten', -⟩ := h.size_cases
          · omega
          · exact hten'
        have hresize : fmBytesArrayResize (u.addr 2) fba (2 * defaultParamNum) = fba := by
          unfold fmBytesArrayResize
          rw [if_pos (by rw [hten']; decide)]
        rw [paramLoop, hnext] at hok
        obtain ⟨copied, -, hok⟩ := bind_eq_ok.mp hok
        obtain ⟨stored, hstore, -⟩ := bind_eq_ok.mp hok
        rw [hresize, ite_self] at hstore
        unfold FmBytesArray.store at hstore
        rw [if_neg (by omega)] at hstore
        cases hstore

end ParamLoop

/-! ## Lines -/

/-- What becomes of the last two characters of a line. -/
theorem chomp_append (w rest : List UInt8) (a b : UInt8) :
    chomp (w ++ a :: b :: rest) (w.length + 2) =
      .ok (w ++ (if a = 13 then 0 else a) :: (if b = 10 ∨ b = 13 then 0 else b) :: rest) := by
  have hlast : byteAt (w ++ a :: b :: rest) (((w.length + 2 : ℕ) : ℤ) - 1) = .ok b := by
    have hidx : ((w.length + 2 : ℕ) : ℤ) - 1 = (w.length + 1 : ℕ) := by omega
    rw [hidx]
    exact byteAt_natCast (by simp)
  have hset : (w ++ a :: b :: rest).set (w.length + 2 - 1) 0 = w ++ a :: 0 :: rest := by
    rw [List.set_append_right _ _ (by omega)]
    have hidx : w.length + 2 - 1 - w.length = 1 := by omega
    rw [hidx]
    rfl
  have hline : (if b = 10 ∨ b = 13 then (w ++ a :: b :: rest).set (w.length + 2 - 1) 0
      else w ++ a :: b :: rest) = w ++ a :: (if b = 10 ∨ b = 13 then 0 else b) :: rest := by
    split
    · exact hset
    · rfl
  unfold chomp
  rw [hlast, ok_bind, hline]
  generalize (if b = 10 ∨ b = 13 then 0 else b) = c
  have hprev : byteAt (w ++ a :: c :: rest) (((w.length + 2 : ℕ) : ℤ) - 2) = .ok a := by
    have hidx : ((w.length + 2 : ℕ) : ℤ) - 2 = w.length := by omega
    rw [hidx]
    exact byteAt_natCast (by simp)
  dsimp only
  rw [hprev, ok_bind, pure_eq_ok]
  split
  · rw [Nat.add_sub_cancel, List.set_append_right _ _ (le_refl _), Nat.sub_self]
    rfl
  · rfl

/-- A line of one character is looked at before its start. -/
theorem chomp_short {line : List UInt8} {len : ℕ} (hlen : len < 2) (r : List UInt8) :
    chomp line len ≠ .ok r := by
  intro h
  obtain ⟨last, -, h⟩ := bind_eq_ok.mp h
  dsimp only at h
  rw [byteAt_neg (by omega), error_bind] at h
  cases h

/-- Taking off the line ending leaves the buffer as large as it is. -/
theorem chomp_length {line line' : List UInt8} {len : ℕ} (h : chomp line len = .ok line') :
    line'.length = line.length := by
  obtain ⟨last, -, h⟩ := bind_eq_ok.mp h
  obtain ⟨prev, -, h⟩ := bind_eq_ok.mp h
  obtain rfl := Except.ok.inj h
  split_ifs <;> simp only [List.length_set]

/-- The operands of an entry are split off what is behind its number. -/
theorem loadLine_parameters {u : Unspec} {k : ℕ} {read : List UInt8} {ce : CodeEntry}
    (h : loadLine u k read = .ok (some ce)) :
    ce.parameters = none ∨ ∃ rest fba,
      rest.length < (read ++ List.replicate (1024 - read.length) 0).length ∧
      paramLoop u rest.length rest 0 (fmBytesArrayAlloc (u.addr 1) defaultParamNum) = .ok fba ∧
      ce.parameters = some fba := by
  obtain ⟨first, -, h⟩ := bind_eq_ok.mp h
  split at h
  · cases h
  obtain ⟨text, -, h⟩ := bind_eq_ok.mp h
  obtain ⟨line, hline, h⟩ := bind_eq_ok.mp h
  obtain ⟨ce', hce, h⟩ := bind_eq_ok.mp h
  obtain rfl : ce' = ce := by simpa using h
  unfold codeEntryOf at hce
  split at hce
  · obtain ⟨code, -, hce⟩ := bind_eq_ok.mp hce
    obtain rfl := Except.ok.inj hce
    exact .inl rfl
  · obtain ⟨text', htext', hce⟩ := bind_eq_ok.mp hce
    obtain ⟨first', hfirst, hce⟩ := bind_eq_ok.mp hce
    obtain ⟨code, -, hce⟩ := bind_eq_ok.mp hce
    obtain ⟨parameters, hloop, hce⟩ := bind_eq_ok.mp hce
    obtain rfl := Except.ok.inj hce
    have hnext := Fields.length_of_next (derefOption_eq_ok.mp hfirst)
    obtain ⟨⟨behind, hbehind⟩, -⟩ := cString_eq_ok htext'
    have hlength := chomp_length hline
    rw [hbehind, List.length_append] at hlength
    exact .inr ⟨first'.2, parameters, by omega, hloop, rfl⟩

namespace ScriptLine

variable (l : ScriptLine)

/-- With two characters at least the ending goes. -/
theorem chomp_bytes (hne : l.text ≠ []) (htwo : 2 ≤ l.bytes.length) (m : ℕ) :
    chomp (l.bytes ++ List.replicate m 0) l.bytes.length =
      .ok (l.text ++ List.replicate (l.ending.bytes.length + m) 0) := by
  obtain ⟨init, c, hinit⟩ : ∃ init c, l.text = init ++ [c] :=
    ⟨_, _, (List.dropLast_append_getLast hne).symm⟩
  have hc := l.chars c (by simp [hinit])
  unfold bytes at htwo ⊢
  cases hend : l.ending with
  | lf =>
    have h := chomp_append init (List.replicate m 0) c 10
    simp only [hinit, LineEnding.bytes, List.append_assoc, List.cons_append, List.nil_append,
      List.length_append, List.length_cons, List.length_nil, zero_add, Nat.reduceAdd]
    rw [h, if_neg hc.2.2, if_pos (.inl rfl), Nat.add_comm 1 m, List.replicate_succ]
  | crlf =>
    have h := chomp_append l.text (List.replicate m 0) 13 10
    simp only [LineEnding.bytes, List.append_assoc, List.cons_append, List.nil_append,
      List.length_append, List.length_cons, List.length_nil, zero_add]
    rw [h, if_pos rfl, if_pos (.inl rfl), Nat.add_comm (1 + 1) m, List.replicate_succ,
      List.replicate_succ]
  | eof =>
    rw [hend, hinit] at htwo
    simp only [LineEnding.bytes, List.append_nil, List.length_append, List.length_singleton]
      at htwo
    obtain ⟨w, a, rfl⟩ : ∃ w a, init = w ++ [a] :=
      ⟨_, _, (List.dropLast_append_getLast (by intro h; simp [h] at htwo)).symm⟩
    have ha := l.chars a (by simp [hinit])
    have h := chomp_append w (List.replicate m 0) a c
    simp only [hinit, LineEnding.bytes, List.append_assoc, List.cons_append, List.nil_append,
      List.length_append, List.length_cons, List.length_nil, zero_add, List.append_nil,
      Nat.reduceAdd]
    rw [h, if_neg ha.2.2, if_neg (by simp [hc])]

/-- The number of a line, as the loader reads it. -/
theorem atoi_text {m : ℕ} (hm : 0 < m) :
    atoi (l.text ++ List.replicate m 0) = .ok (longToInt l.number) := by
  have hsplit := List.takeWhile_append_dropWhile (p := fun b => !isDelim b) (l := l.text)
  obtain ⟨m, rfl⟩ := Nat.exists_eq_succ_of_ne_zero (Nat.pos_iff_ne_zero.mp hm)
  cases hrest : l.text.dropWhile (!isDelim ·) with
  | nil =>
    rw [hrest, List.append_nil] at hsplit
    have h := atoi_eq endsNumber_zero l.front (List.replicate m 0)
    rw [number, ← h, front, hsplit]
    rfl
  | cons d rest =>
    have hd := Fields.delim_of_dropWhile hrest
    have h := atoi_eq (endsNumber_of_isDelim hd) l.front (rest ++ List.replicate (m + 1) 0)
    rw [hrest] at hsplit
    rw [← hsplit, List.append_assoc]
    exact h

/-- A line without a comma has no operands for the loader either. -/
theorem isParameterless_text {m len : ℕ} (hlen : l.text.length ≤ len) :
    isParameterless (l.text ++ List.replicate m 0) len = decide ((44 : UInt8) ∉ l.text) := by
  unfold isParameterless
  rw [List.take_append, List.take_of_length_le hlen, List.all_append]
  have hzeros :
      ((List.replicate m (0 : UInt8)).take (len - l.text.length)).all (· ≠ 44) = true := by
    rw [List.take_replicate, List.all_replicate]
    simp
  rw [hzeros, Bool.and_true, Bool.eq_iff_iff, List.all_eq_true]
  simp only [decide_eq_true_eq]
  exact ⟨fun h hmem => h 44 hmem rfl, fun h b hb hcomma => h (hcomma ▸ hb)⟩

/-- The text is what the line buffer spells. -/
theorem cString_text {m : ℕ} (hm : 0 < m) :
    cString (l.text ++ List.replicate m 0) = .ok l.text := by
  obtain ⟨m, rfl⟩ := Nat.exists_eq_succ_of_ne_zero (Nat.pos_iff_ne_zero.mp hm)
  exact cString_terminated (fun b hb => (l.chars b hb).1) _

/-- The operands stand behind the first delimiter. -/
theorem operands_eq (hcomma : (44 : UInt8) ∈ l.text) :
    ∃ d rest, isDelim d = true ∧ l.text = l.front ++ d :: rest ∧
      l.operands = some (Fields.fields isDelim rest) := by
  have hsplit := List.takeWhile_append_dropWhile (p := fun b => !isDelim b) (l := l.text)
  cases hrest : l.text.dropWhile (!isDelim ·) with
  | nil =>
    exfalso
    rw [hrest, List.append_nil] at hsplit
    rw [← hsplit] at hcomma
    have := List.all_eq_true.mp List.all_takeWhile 44 hcomma
    simp [isDelim] at this
  | cons d rest =>
    have hd := Fields.delim_of_dropWhile hrest
    refine ⟨d, rest, hd, ?_, ?_⟩
    · rw [← hrest]
      exact hsplit.symm
    · unfold operands
      rw [if_pos hcomma, hrest, Fields.fields_cons_of_pos hd]

/-- No operand contains a line ending. -/
theorem chars_of_suffix {d : UInt8} {rest : List UInt8} (h : l.text = l.front ++ d :: rest) :
    ∀ b ∈ rest, b ≠ 10 ∧ b ≠ 13 := by
  intro b hb
  have hmem : b ∈ l.text := by
    rw [h]
    simp [hb]
  exact (l.chars b hmem).2

variable {u : Unspec} {k m len : ℕ}

/-- The entry of a line without operands. -/
theorem codeEntryOf_of_not_mem (hcomma : (44 : UInt8) ∉ l.text) (hm : 0 < m)
    (hlen : l.text.length ≤ len) :
    codeEntryOf u k (l.text ++ List.replicate m 0) len =
      .ok { addr := k, code := longToInt l.number, parameters := none } := by
  unfold codeEntryOf
  rw [if_pos (by rw [l.isParameterless_text hlen]; simpa using hcomma), l.atoi_text hm]
  rfl

/-- The next field of a text that does not start with a delimiter. -/
theorem next_text {d : UInt8} {rest : List UInt8}
    (h : l.text = l.front ++ d :: rest) (hne : l.front ≠ []) :
    Fields.next isDelim l.text = some (l.front, rest) := by
  have hdrop : l.text.dropWhile (!isDelim ·) = d :: rest := by
    have hsplit := List.takeWhile_append_dropWhile (p := fun b => !isDelim b) (l := l.text)
    exact List.append_cancel_left (hsplit.trans h)
  obtain ⟨a, t, hfront⟩ := List.exists_cons_of_ne_nil hne
  have ha : isDelim a = false := by
    have hmem : a ∈ l.text.takeWhile (!isDelim ·) := by
      rw [← front, hfront]
      exact List.mem_cons_self
    simpa using List.all_eq_true.mp List.all_takeWhile a hmem
  have hstay : l.text.dropWhile isDelim = l.text := by
    rw [h, hfront, List.cons_append, List.dropWhile_cons_of_neg (by simp [ha])]
  have htext : l.text ≠ [] := by
    rw [h]
    simp
  unfold Fields.next
  rw [hstay]
  simp only [List.isEmpty_iff, htext, if_false, hdrop]
  rfl

/-- The entry of a line with operands. -/
theorem codeEntryOf_of_mem (hcomma : (44 : UInt8) ∈ l.text) (hm : 0 < m)
    (hlen : l.text.length ≤ len) :
    codeEntryOf u k (l.text ++ List.replicate m 0) len = (do
      let first ← derefOption (Fields.next isDelim l.text)
      let code ← atoi (first.1 ++ [0])
      let parameters ← paramLoop u first.2.length first.2 0
        (fmBytesArrayAlloc (u.addr 1) defaultParamNum)
      return { addr := k, code := code, parameters := some parameters }) := by
  unfold codeEntryOf
  rw [if_neg (by rw [l.isParameterless_text hlen]; simpa using hcomma), l.cString_text hm, ok_bind]

/-- Up to ten operands are stored. -/
theorem codeEntryOf_of_few (hcomma : (44 : UInt8) ∈ l.text) (hm : 0 < m)
    (hlen : l.text.length ≤ len) (hfront : l.front ≠ []) {texts : List (List UInt8)}
    (htexts : l.operands = some texts) (hfew : texts.length ≤ 10) :
    ∃ fba, codeEntryOf u k (l.text ++ List.replicate m 0) len =
        .ok { addr := k, code := longToInt l.number, parameters := some fba } ∧
      ParamsAt texts fba := by
  obtain ⟨d, rest, -, htext, hoperands⟩ := l.operands_eq hcomma
  obtain rfl : texts = Fields.fields isDelim rest :=
    Option.some.inj (htexts.symm.trans hoperands)
  have halloc := paramsAt_alloc (u.addr 1)
  obtain ⟨fba, hloop, hparams⟩ := paramLoop_holds (u := u) halloc (le_refl rest.length)
    (l.chars_of_suffix htext) (by simpa using hfew)
  rw [List.nil_append] at hparams
  refine ⟨fba, ?_, hparams⟩
  have hloop : paramLoop u rest.length rest 0 (fmBytesArrayAlloc (u.addr 1) defaultParamNum) =
      .ok fba := hloop
  rw [l.codeEntryOf_of_mem hcomma hm hlen, l.next_text htext hfront, derefOption_some, ok_bind,
    atoi_eq endsNumber_zero, ok_bind]
  dsimp only
  rw [hloop]
  rfl

/-- Where all operands are counted there are ten at most, and something before the
first delimiter. -/
theorem few_of_codeEntryOf (hcomma : (44 : UInt8) ∈ l.text) (hm : 0 < m)
    (hlen : l.text.length ≤ len) {texts : List (List UInt8)} (htexts : l.operands = some texts)
    {ce : CodeEntry} (hce : codeEntryOf u k (l.text ++ List.replicate m 0) len = .ok ce)
    {fba : FmBytesArray} (hfba : ce.parameters = some fba) (hcnt : fba.cnt = texts.length) :
    l.front ≠ [] ∧ texts.length ≤ 10 := by
  obtain ⟨d, rest, hd, htext, hoperands⟩ := l.operands_eq hcomma
  obtain rfl : texts = Fields.fields isDelim rest :=
    Option.some.inj (htexts.symm.trans hoperands)
  have halloc := paramsAt_alloc (u.addr 1)
  rw [l.codeEntryOf_of_mem hcomma hm hlen] at hce
  obtain ⟨⟨first, rest'⟩, hnext, hce⟩ := bind_eq_ok.mp hce
  obtain ⟨code, -, hce⟩ := bind_eq_ok.mp hce
  obtain ⟨parameters, hloop, hce⟩ := bind_eq_ok.mp hce
  obtain rfl : { addr := k, code := code, parameters := some parameters } = ce := by
    simpa using hce
  obtain rfl : parameters = fba := by simpa using hfba
  rw [derefOption_eq_ok] at hnext
  have hrest' : ∀ b ∈ rest', b ≠ 10 ∧ b ≠ 13 := fun b hb =>
    (l.chars b ((Fields.subset_of_next hnext).2 hb)).2
  have hfew := paramLoop_few halloc (le_refl _) hrest' hloop
  obtain ⟨r, hr, hparams⟩ := paramLoop_holds (u := u) halloc (le_refl _) hrest' hfew
  obtain rfl : parameters = r := Except.ok.inj (hloop.symm.trans hr)
  have hcount := hparams.holds.cnt_eq
  rw [List.nil_append] at hcount
  have hsame : (Fields.fields isDelim rest').length = (Fields.fields isDelim rest).length := by
    omega
  refine ⟨fun hnil => ?_, ?_⟩
  · -- a delimiter in front makes the first operand the number
    have hfields := Fields.fields_of_next hnext
    rw [htext, hnil, List.nil_append, Fields.fields_cons_of_pos hd] at hfields
    rw [hfields, List.length_cons] at hsame
    omega
  · rw [← hsame]
    simpa using hfew

/-- Which texts become the entry they stand for. -/
theorem codeEntryOf_iff (hm : 0 < m) (hlen : l.text.length ≤ len) :
    (∃ ce, codeEntryOf u k (l.text ++ List.replicate m 0) len = .ok ce ∧ EntryFor k l ce) ↔
      (-2147483648 ≤ l.number ∧ l.number < 2147483648) ∧
      ((44 : UInt8) ∈ l.text → l.front ≠ []) ∧
      ∀ texts, l.operands = some texts → texts.length ≤ 10 := by
  by_cases hcomma : (44 : UInt8) ∈ l.text
  · obtain ⟨d, rest, -, -, hoperands⟩ := l.operands_eq hcomma
    constructor
    · rintro ⟨ce, hce, hentry⟩
      have hparams := hentry.parameters_eq
      rw [hoperands] at hparams
      obtain ⟨fba, hfba, hholds⟩ := hparams
      obtain ⟨hfront, hfew⟩ :=
        l.few_of_codeEntryOf hcomma hm hlen hoperands hce hfba hholds.cnt_eq
      obtain ⟨fba', hce', -⟩ :=
        l.codeEntryOf_of_few (u := u) (k := k) hcomma hm hlen hfront hoperands hfew
      obtain rfl := Except.ok.inj (hce'.symm.trans hce)
      refine ⟨longToInt_eq_self_iff.mp hentry.code_eq, fun _ => hfront, fun texts htexts => ?_⟩
      rw [hoperands] at htexts
      exact Option.some.inj htexts ▸ hfew
    · rintro ⟨hnumber, hfront, hfew⟩
      obtain ⟨fba, hce, hparams⟩ := l.codeEntryOf_of_few (u := u) (k := k) hcomma hm hlen
        (hfront hcomma) hoperands (hfew _ hoperands)
      refine ⟨_, hce, rfl, longToInt_eq_self_iff.mpr hnumber, ?_⟩
      rw [hoperands]
      exact ⟨fba, rfl, hparams.holds⟩
  · have hoperands : l.operands = none := if_neg hcomma
    rw [l.codeEntryOf_of_not_mem hcomma hm hlen, hoperands]
    constructor
    · rintro ⟨ce, hce, hentry⟩
      obtain rfl := Except.ok.inj hce
      exact ⟨longToInt_eq_self_iff.mp hentry.code_eq, fun h => absurd h hcomma, by simp⟩
    · rintro ⟨hnumber, -, -⟩
      refine ⟨_, rfl, rfl, longToInt_eq_self_iff.mpr hnumber, ?_⟩
      rw [hoperands]

/-- The first character of a line that stands for an entry. -/
theorem head_of_isCode (hcode : l.isCode = true) :
    ∃ b rest, l.text = b :: rest ∧ b ≠ 35 ∧ b ≠ 13 := by
  cases htext : l.text with
  | nil => simp [isCode, isBlank, htext] at hcode
  | cons b rest =>
    have hb := l.chars b (by simp [htext])
    refine ⟨b, rest, rfl, ?_, hb.2.2⟩
    rintro rfl
    simp [isCode, isComment, htext] at hcode

/-- What becomes of a line that stands for an entry. -/
theorem loadLine_bytes (hcode : l.isCode = true) (hfits : l.bytes.length ≤ 1023) :
    loadLine u k l.bytes = (do
      let line ← chomp (l.bytes ++ List.replicate (1024 - l.bytes.length) 0) l.bytes.length
      let ce ← codeEntryOf u k line l.bytes.length
      return some ce) := by
  obtain ⟨b, rest, htext, hhash, hcr⟩ := l.head_of_isCode hcode
  have hfirst : byteAt (l.bytes ++ List.replicate (1024 - l.bytes.length) 0) 0 = .ok b := by
    have hget : (l.bytes ++ List.replicate (1024 - l.bytes.length) 0)[0]? = some b := by
      simp [bytes, htext]
    exact byteAt_natCast hget
  have hstring : cString (l.bytes ++ List.replicate (1024 - l.bytes.length) 0) = .ok l.bytes := by
    have hzeros : 1024 - l.bytes.length ≠ 0 := by omega
    obtain ⟨m, hm⟩ := Nat.exists_eq_succ_of_ne_zero hzeros
    rw [hm]
    refine cString_terminated (fun c hc => ?_) _
    obtain hc | hc := List.mem_append.mp hc
    · exact (l.chars c hc).1
    · exact l.ending.bytes_ne_zero c hc
  unfold loadLine
  simp only [hfirst, ok_bind, hhash, hcr, or_self, if_false, hstring]

/-- A line of two characters at least becomes the entry of its text. -/
theorem loadLine_text (hcode : l.isCode = true) (hfits : l.bytes.length ≤ 1023)
    (htwo : 2 ≤ l.bytes.length) {ce : CodeEntry} :
    loadLine u k l.bytes = .ok (some ce) ↔ codeEntryOf u k
      (l.text ++ List.replicate (l.ending.bytes.length + (1024 - l.bytes.length)) 0)
      l.bytes.length = .ok ce := by
  obtain ⟨b, rest, htext, -⟩ := l.head_of_isCode hcode
  have hne : l.text ≠ [] := by simp [htext]
  rw [l.loadLine_bytes hcode hfits, l.chomp_bytes hne htwo, ok_bind, bind_eq_ok]
  simp

/-- A line that becomes an entry has two characters at least. -/
theorem two_le_of_loadLine (hcode : l.isCode = true) (hfits : l.bytes.length ≤ 1023)
    {ce : CodeEntry} (h : loadLine u k l.bytes = .ok (some ce)) : 2 ≤ l.bytes.length := by
  rw [l.loadLine_bytes hcode hfits] at h
  obtain ⟨line, hline, -⟩ := bind_eq_ok.mp h
  by_contra hshort
  exact chomp_short (by omega) line hline

/-- **One line.** The loader makes the entry a line stands for exactly when the
line is readable. -/
theorem loadLine_iff (hcode : l.isCode = true) (hfits : l.bytes.length ≤ 1023) :
    (∃ ce, loadLine u k l.bytes = .ok (some ce) ∧ EntryFor k l ce) ↔ l.Readable := by
  have hlen : l.text.length ≤ l.bytes.length := by simp [bytes]
  have hiff := l.codeEntryOf_iff (u := u) (k := k)
    (m := l.ending.bytes.length + (1024 - l.bytes.length)) (by omega) hlen
  constructor
  · rintro ⟨ce, hce, hentry⟩
    have htwo := l.two_le_of_loadLine hcode hfits hce
    obtain ⟨hnumber, hfront, hfew⟩ :=
      hiff.mp ⟨ce, (l.loadLine_text hcode hfits htwo).mp hce, hentry⟩
    exact ⟨htwo, hnumber, hfront, hfew⟩
  · intro h
    obtain ⟨ce, hce, hentry⟩ := hiff.mpr ⟨h.number_fits, h.front_ne, h.few⟩
    exact ⟨ce, (l.loadLine_text hcode hfits h.two_le).mpr hce, hentry⟩

end ScriptLine

end TsmVm
