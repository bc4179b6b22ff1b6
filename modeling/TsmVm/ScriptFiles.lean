import TsmVm.Concurrent
import TsmVm.ScriptLines

/-!
# Script files and the tables they become

A script file is a list of lines, the last of which may lack its ending. The
loader makes of it the table of the entries its lines stand for if every line
fits into the buffer, blank lines are empty and end with CR LF, the lines that
stand for entries are readable, and there are 128 of these at most: the table
never grows in earnest, because `se_resize` moves its pointers with
`memcpy_int`.
-/

namespace TsmVm

/-- A text file of lines. -/
structure ScriptFile where
  /-- The lines. -/
  lines : List ScriptLine
  /-- Only the last one may lack its ending. -/
  ended : lines.Pairwise fun l _ => l.ending ≠ .eof
  /-- If it does, it is not empty. -/
  last_ne : ∀ l ∈ lines, l.ending = .eof → l.text ≠ []

namespace ScriptFile

/-- The contents of the file. -/
def bytes (file : ScriptFile) : List UInt8 := file.lines.flatMap ScriptLine.bytes

/-- The lines that stand for entries. -/
def code (file : ScriptFile) : List ScriptLine := file.lines.filter ScriptLine.isCode

end ScriptFile

/-- The loader makes the entries of the lines, in their order, and no others. -/
def LoadsLines (us : ℕ → Unspec) (path : List UInt8) (file : ScriptFile) : Prop :=
  ∃ se, scloaderLoad us (fun _ => some file.bytes) path = .ok (some se) ∧
    se.codeNum = file.code.length ∧
    ∀ (k : ℕ) (l : ScriptLine), file.code[k]? = some l →
      ∃ ce, se.ces[k]? = some (some ce) ∧ EntryFor k l ce

/-- A file the loader reads as it is meant. -/
structure ScriptFile.Loadable (file : ScriptFile) : Prop where
  /-- Every line fits into the buffer with its ending. -/
  fits : ∀ l ∈ file.lines, l.bytes.length ≤ 1023
  /-- Blank lines are empty and end with CR LF. -/
  blank : ∀ l ∈ file.lines, l.isBlank = true → l.text = [] ∧ l.ending = .crlf
  /-- The others are readable unless they are comments. -/
  readable : ∀ l ∈ file.code, l.Readable
  /-- There are not more than the table was allocated for. -/
  few : file.code.length ≤ 128

/-! ## Reading the lines -/

/-- Characters other than the line feed are read as they come. -/
theorem fgets_append {body : List UInt8} (hbody : ∀ b ∈ body, b ≠ 10) {n : ℕ}
    (hn : body.length ≤ n) (rest : List UInt8) :
    fgets n (body ++ rest) =
      (body ++ (fgets (n - body.length) rest).1, (fgets (n - body.length) rest).2) := by
  induction body generalizing n with
  | nil => rfl
  | cons b body ih =>
    obtain ⟨n, rfl⟩ : ∃ m, n = m + 1 := ⟨n - 1, by simp at hn; omega⟩
    have hn' : body.length ≤ n := by simpa using hn
    rw [List.cons_append, fgets, if_neg (hbody b List.mem_cons_self),
      ih (fun c hc => hbody c (List.mem_cons_of_mem b hc)) hn', List.length_cons,
      Nat.add_sub_add_right]
    rfl

namespace ScriptLine

variable {l : ScriptLine}

/-- What a line has before its line feed. -/
theorem text_ne_ten : ∀ b ∈ l.text, b ≠ 10 := fun b hb => (l.chars b hb).2.1

theorem text_cr_ne_ten : ∀ b ∈ l.text ++ [13], b ≠ 10 := by
  intro b hb
  obtain hb | hb := List.mem_append.mp hb
  · exact text_ne_ten b hb
  · obtain rfl : b = 13 := by simpa using hb
    decide

/-- A line that fits is read in one piece. -/
theorem fgets_bytes (hfits : l.bytes.length ≤ 1023) {rest : List UInt8}
    (heof : l.ending = .eof → rest = []) : fgets 1023 (l.bytes ++ rest) = (l.bytes, rest) := by
  have hlt := l.length_lt
  unfold bytes at hfits ⊢
  cases hend : l.ending with
  | lf =>
    have hroom : ∃ m, 1023 - l.text.length = m + 1 := ⟨1022 - l.text.length, by omega⟩
    obtain ⟨m, hm⟩ := hroom
    simp only [LineEnding.bytes, List.append_assoc, List.cons_append, List.nil_append]
    rw [fgets_append text_ne_ten (by omega), hm]
    rfl
  | crlf =>
    rw [hend] at hfits
    simp only [LineEnding.bytes, List.length_append, List.length_cons, List.length_nil] at hfits
    obtain ⟨m, hm⟩ : ∃ m, 1023 - (l.text ++ [13]).length = m + 1 := by
      refine ⟨1021 - l.text.length, ?_⟩
      rw [List.length_append, List.length_singleton]
      omega
    have hsplit : l.text ++ LineEnding.crlf.bytes = (l.text ++ [13]) ++ [10] := by
      simp [LineEnding.bytes]
    rw [hsplit, List.append_assoc, fgets_append text_cr_ne_ten (by simp; omega), hm]
    rfl
  | eof =>
    rw [heof hend]
    simp only [LineEnding.bytes, List.append_nil]
    have h := fgets_append (text_ne_ten (l := l)) (n := 1023) (by omega) []
    rw [List.append_nil] at h
    rw [h]
    cases 1023 - l.text.length with
    | zero => simp [fgets]
    | succ m => simp [fgets]

/-- A line that does not fit leaves its line feed behind. -/
theorem fgets_long (hlong : 1023 < l.bytes.length) (rest : List UInt8) :
    ∃ w, l.bytes = w ++ [10] ∧ w.length = 1023 ∧
      fgets 1023 (l.bytes ++ rest) = (w, 10 :: rest) := by
  have hlt := l.length_lt
  unfold bytes at hlong ⊢
  cases hend : l.ending with
  | lf | eof =>
    exfalso
    rw [hend] at hlong
    simp [LineEnding.bytes] at hlong
    omega
  | crlf =>
    rw [hend] at hlong
    simp only [LineEnding.bytes, List.length_append, List.length_cons, List.length_nil] at hlong
    have hlen : (l.text ++ [13]).length = 1023 := by
      simp
      omega
    have hsplit : l.text ++ LineEnding.crlf.bytes = (l.text ++ [13]) ++ [10] := by
      simp [LineEnding.bytes]
    refine ⟨l.text ++ [13], hsplit, hlen, ?_⟩
    rw [hsplit, List.append_assoc, fgets_append text_cr_ne_ten (by omega), hlen, Nat.sub_self]
    simp [fgets]

theorem bytes_ne_nil (h : l.ending = .eof → l.text ≠ []) : l.bytes ≠ [] := by
  unfold bytes
  cases hend : l.ending with
  | lf | crlf => simp [LineEnding.bytes]
  | eof => simpa [LineEnding.bytes] using h hend

end ScriptLine

section Reads

variable {lines : List ScriptLine}

/-- What follows a line without an ending. -/
theorem rest_eq_nil {l : ScriptLine}
    (hended : (l :: lines).Pairwise fun l _ => l.ending ≠ .eof) (heof : l.ending = .eof) :
    lines.flatMap ScriptLine.bytes = [] := by
  cases lines with
  | nil => rfl
  | cons l' lines =>
    have := (List.pairwise_cons.mp hended).1 l' List.mem_cons_self
    exact absurd heof this

/-- A file whose lines all fit is read line by line. -/
theorem fgetsAll_lines (hended : lines.Pairwise fun l _ => l.ending ≠ .eof)
    (hlast : ∀ l ∈ lines, l.ending = .eof → l.text ≠ [])
    (hfits : ∀ l ∈ lines, l.bytes.length ≤ 1023) {n : ℕ}
    (hn : (lines.flatMap ScriptLine.bytes).length ≤ n) :
    fgetsAll n (lines.flatMap ScriptLine.bytes) = lines.map ScriptLine.bytes := by
  induction lines generalizing n with
  | nil => cases n <;> rfl
  | cons l lines ih =>
    have hne := ScriptLine.bytes_ne_nil (hlast l List.mem_cons_self)
    have hpos := List.length_pos_of_ne_nil hne
    rw [List.flatMap_cons, List.length_append] at hn
    obtain ⟨n, rfl⟩ : ∃ m, n = m + 1 := ⟨n - 1, by omega⟩
    have hread := ScriptLine.fgets_bytes (hfits l List.mem_cons_self) (rest_eq_nil hended)
    rw [List.flatMap_cons, fgetsAll, if_neg (by simp [hne]), hread, List.map_cons]
    rw [ih (List.pairwise_cons.mp hended).2 (fun l' h => hlast l' (List.mem_cons_of_mem l h))
      (fun l' h => hfits l' (List.mem_cons_of_mem l h)) (by omega)]

/-- A line that does not fit makes a line of its own of its line feed. -/
theorem fgetsAll_long (hended : lines.Pairwise fun l _ => l.ending ≠ .eof)
    (hlast : ∀ l ∈ lines, l.ending = .eof → l.text ≠ [])
    (hlong : ∃ l ∈ lines, 1023 < l.bytes.length) {n : ℕ}
    (hn : (lines.flatMap ScriptLine.bytes).length ≤ n) :
    [10] ∈ fgetsAll n (lines.flatMap ScriptLine.bytes) := by
  induction lines generalizing n with
  | nil =>
    obtain ⟨l, hl, -⟩ := hlong
    cases hl
  | cons l lines ih =>
    have hne := ScriptLine.bytes_ne_nil (hlast l List.mem_cons_self)
    have hpos := List.length_pos_of_ne_nil hne
    rw [List.flatMap_cons, List.length_append] at hn
    rw [List.flatMap_cons]
    obtain hfits | hover := Nat.lt_or_ge 1023 l.bytes.length
    · obtain ⟨n, rfl⟩ : ∃ m, n = m + 2 := ⟨n - 2, by omega⟩
      obtain ⟨w, -, -, hread⟩ := ScriptLine.fgets_long hfits (lines.flatMap ScriptLine.bytes)
      rw [fgetsAll, if_neg (by simp [hne]), hread, fgetsAll, if_neg (by simp)]
      simp [fgets]
    · obtain ⟨n, rfl⟩ : ∃ m, n = m + 1 := ⟨n - 1, by omega⟩
      have hread := ScriptLine.fgets_bytes hover (rest_eq_nil hended)
      rw [fgetsAll, if_neg (by simp [hne]), hread]
      refine List.mem_cons_of_mem _ (ih (List.pairwise_cons.mp hended).2
        (fun l' h => hlast l' (List.mem_cons_of_mem l h)) ?_ (by omega))
      obtain ⟨l', hl', hlen⟩ := hlong
      obtain rfl | hmem := List.mem_cons.mp hl'
      · omega
      · exact ⟨l', hmem, hlen⟩

end Reads

/-! ## The table -/

/-- The entries the lines become, before they are stored. -/
def loadEntries (us : ℕ → Unspec) : ℕ → List (List UInt8) → Res (List CodeEntry)
  | _, [] => .ok []
  | k, read :: reads => do
    let ce ← loadLine (us k) k read
    match ce with
    | none => loadEntries us k reads
    | some ce => do
      let ces ← loadEntries us (k + 1) reads
      return ce :: ces

/-- The entries stored one after the other. -/
def storeEntries (entryAddr : CodeEntry → ℕ) : ScriptEntry → List CodeEntry → Res ScriptEntry
  | se, [] => .ok se
  | se, ce :: ces => do
    let se ← storeEntry entryAddr se ce
    storeEntries entryAddr se ces

/-- The address of an entry. -/
def entryAddrOf (us : ℕ → Unspec) (ce : CodeEntry) : ℕ := (us ce.addr.toNat).addr 0

/-- The loop makes the entries and stores them. -/
theorem scloaderLoop_eq_ok {us : ℕ → Unspec} {reads : List (List UInt8)} {k : ℕ}
    {se se' : ScriptEntry} : scloaderLoop us reads k se = .ok se' ↔
      ∃ ces, loadEntries us k reads = .ok ces ∧
        storeEntries (entryAddrOf us) se ces = .ok se' := by
  induction reads generalizing k se with
  | nil => simp [scloaderLoop, loadEntries, storeEntries]
  | cons read reads ih =>
    unfold scloaderLoop loadEntries
    cases hline : loadLine (us k) k read with
    | error e => simp
    | ok ce =>
      cases ce with
      | none => exact ih
      | some ce =>
        simp only [ok_bind]
        constructor
        · intro h
          obtain ⟨se₁, hstore, h⟩ := bind_eq_ok.mp h
          obtain ⟨ces, hces, hrest⟩ := ih.mp h
          refine ⟨ce :: ces, by simp [hces], ?_⟩
          exact bind_eq_ok.mpr ⟨se₁, hstore, hrest⟩
        · rintro ⟨ces, hces, hstore⟩
          obtain ⟨ces', hces', hcons⟩ := bind_eq_ok.mp hces
          obtain rfl : ce :: ces' = ces := by simpa using hcons
          obtain ⟨se₁, hse₁, hrest⟩ := bind_eq_ok.mp hstore
          exact bind_eq_ok.mpr ⟨se₁, hse₁, ih.mpr ⟨ces', hces', hrest⟩⟩

/-- The table while it still has its first slots. -/
structure TableAt (done : List CodeEntry) (se : ScriptEntry) : Prop where
  /-- The recorded size. -/
  size_eq : se.size = 128
  /-- The slots. -/
  length_eq : se.ces.length = 128
  /-- The number of entries. -/
  codeNum_eq : se.codeNum = done.length
  /-- The entries stored. -/
  slot : ∀ (k : ℕ) (ce : CodeEntry), done[k]? = some ce → se.ces[k]? = some (some ce)

theorem tableAt_seAlloc (name : List UInt8) : TableAt [] (seAlloc name) :=
  ⟨rfl, by simp [seAlloc, defaultScEntryNum], rfl, by simp⟩

/-- Below 128 entries there is a slot for one more. -/
theorem TableAt.store {done : List CodeEntry} {se : ScriptEntry} (h : TableAt done se)
    (hlen : done.length < 128) (entryAddr : CodeEntry → ℕ) (ce : CodeEntry) :
    ∃ se', storeEntry entryAddr se ce = .ok se' ∧ TableAt (done ++ [ce]) se' := by
  have hsize := h.size_eq
  have hslots := h.length_eq
  have hnum := h.codeNum_eq
  refine ⟨{ se with ces := se.ces.set done.length (some ce), codeNum := se.codeNum + 1 }, ?_,
    hsize, by simpa using hslots, ?_, ?_⟩
  · unfold storeEntry
    rw [if_neg (by omega), ok_bind, if_pos ⟨by omega, by omega⟩, hnum, Int.toNat_natCast]
    rfl
  · simp only [List.length_append, List.length_singleton]
    omega
  · intro k ce' hk
    obtain hlt | hge := Nat.lt_or_ge k done.length
    · rw [List.getElem?_append_left hlt] at hk
      rw [List.getElem?_set_ne (by omega)]
      exact h.slot k ce' hk
    · have hk' : k < (done ++ [ce]).length := (List.getElem?_eq_some_iff.mp hk).1
      simp only [List.length_append, List.length_singleton] at hk'
      obtain rfl : k = done.length := by omega
      obtain rfl : ce = ce' := by simpa using hk
      exact List.getElem?_set_self (by omega)

/-- Up to 128 entries are all stored. -/
theorem TableAt.storeAll {done ces : List CodeEntry} {se : ScriptEntry} (h : TableAt done se)
    (hlen : done.length + ces.length ≤ 128) (entryAddr : CodeEntry → ℕ) :
    ∃ se', storeEntries entryAddr se ces = .ok se' ∧ TableAt (done ++ ces) se' := by
  induction ces generalizing done se with
  | nil => exact ⟨se, rfl, by simpa using h⟩
  | cons ce ces ih =>
    rw [List.length_cons] at hlen
    obtain ⟨se₁, hstore, h₁⟩ := h.store (by omega) entryAddr ce
    obtain ⟨se', hrest, h'⟩ := ih h₁ (by rw [List.length_append, List.length_singleton]; omega)
    refine ⟨se', bind_eq_ok.mpr ⟨se₁, hstore, hrest⟩, ?_⟩
    rw [List.append_cons]
    exact h'

/-- The table once it has run over: slot 100 is `NULL`. -/
theorem seResize_slot {entryAddr : CodeEntry → ℕ} (haddr : ∀ ce, entryAddr ce ≠ 0)
    {se se' : ScriptEntry} (hsize : se.size = 128) (hnum : 0 ≤ se.codeNum ∧ se.codeNum < 256)
    (h : seResize entryAddr se = .ok se') :
    se'.size = 128 ∧ se'.codeNum = se.codeNum ∧ se'.ces.length = 256 ∧
      se'.ces[100]? = some none := by
  obtain ⟨mem, hcopy, h⟩ := bind_eq_ok.mp h
  have hslots : 2 * se.size.toNat = 256 := by rw [hsize]; rfl
  rw [hslots] at h hcopy
  obtain rfl := Except.ok.inj h
  have hdrop := (memcpyIntLoop_drop hcopy (k := 800) (by omega)).2
  have hslot : leValue ((mem.drop 800).take 8) = 0 := by
    rw [hdrop, List.drop_replicate, List.take_replicate]
    exact leValue_replicate_zero _
  refine ⟨hsize, rfl, by simp, ?_⟩
  rw [List.getElem?_map, List.getElem?_range (by decide)]
  simp only [Option.map_some, Option.some.injEq, Option.filter_eq_none_iff, decide_eq_true_eq]
  intro ce _ heq
  exact haddr ce (heq.symm.trans hslot)

/-- What every store keeps: once there are more than 128 entries, slot 100 is
`NULL`. -/
structure TableBound (se : ScriptEntry) : Prop where
  /-- The recorded size never changes. -/
  size_eq : se.size = 128
  /-- The number of entries is none less than zero. -/
  codeNum_nonneg : 0 ≤ se.codeNum
  /-- The entries in the middle are lost. -/
  slot_eq : 128 < se.codeNum → se.ces[100]? = some none

theorem TableBound.store {entryAddr : CodeEntry → ℕ} (haddr : ∀ ce, entryAddr ce ≠ 0)
    {se se' : ScriptEntry} {ce : CodeEntry} (h : TableBound se)
    (hstore : storeEntry entryAddr se ce = .ok se') :
    TableBound se' ∧ se'.codeNum = se.codeNum + 1 := by
  obtain ⟨hsize, hnonneg, hslot⟩ := h
  unfold storeEntry at hstore
  obtain hlt | hge := lt_or_ge se.codeNum 128
  · rw [if_neg (by omega), ok_bind] at hstore
    split at hstore
    · obtain rfl := Except.ok.inj hstore
      exact ⟨⟨hsize, by simp only; omega, fun hover => by simp only at hover; omega⟩, rfl⟩
    · cases hstore
  · rw [if_pos (by omega)] at hstore
    obtain ⟨se₁, hresize, hstore⟩ := bind_eq_ok.mp hstore
    split at hstore
    · rename_i hroom
      obtain rfl := Except.ok.inj hstore
      -- the slots are those of the new table, whatever the number of entries
      have hslots : se₁.ces.length = 256 ∧ se₁.codeNum = se.codeNum := by
        obtain ⟨mem, -, hnew⟩ := bind_eq_ok.mp hresize
        obtain rfl := Except.ok.inj hnew
        simp [hsize]
      obtain ⟨hsize₁, hnum₁, -, hslot₁⟩ := seResize_slot haddr hsize ⟨hnonneg, by omega⟩ hresize
      refine ⟨⟨hsize₁, by simp only; omega, fun _ => ?_⟩, by simp only; omega⟩
      rw [List.getElem?_set_ne (by omega)]
      exact hslot₁
    · cases hstore

theorem TableBound.storeAll {entryAddr : CodeEntry → ℕ} (haddr : ∀ ce, entryAddr ce ≠ 0)
    {ces : List CodeEntry} {se se' : ScriptEntry} (h : TableBound se)
    (hstore : storeEntries entryAddr se ces = .ok se') :
    TableBound se' ∧ se'.codeNum = se.codeNum + ces.length := by
  induction ces generalizing se with
  | nil =>
    obtain rfl := Except.ok.inj hstore
    exact ⟨h, by simp⟩
  | cons ce ces ih =>
    obtain ⟨se₁, hse₁, hrest⟩ := bind_eq_ok.mp hstore
    obtain ⟨h₁, hnum₁⟩ := h.store haddr hse₁
    obtain ⟨h', hnum'⟩ := ih h₁ hrest
    refine ⟨h', ?_⟩
    rw [List.length_cons]
    push_cast
    omega

theorem entryAddrOf_ne_zero (us : ℕ → Unspec) (ce : CodeEntry) : entryAddrOf us ce ≠ 0 :=
  (us ce.addr.toNat).addr_ne_zero 0

/-- What the table holds in the end. -/
theorem storeEntries_seAlloc {us : ℕ → Unspec} {name : List UInt8} {ces : List CodeEntry}
    {se : ScriptEntry} (h : storeEntries (entryAddrOf us) (seAlloc name) ces = .ok se) :
    se.codeNum = ces.length ∧ (128 < ces.length → se.ces[100]? = some none) ∧
      (ces.length ≤ 128 → TableAt ces se) := by
  have hbound : TableBound (seAlloc name) := ⟨rfl, le_refl _, fun hover => by cases hover⟩
  obtain ⟨hse, hnum⟩ := hbound.storeAll (entryAddrOf_ne_zero us) h
  have hzero : (seAlloc name).codeNum = 0 := rfl
  refine ⟨by omega, fun hover => hse.slot_eq (by omega), fun hfew => ?_⟩
  have hroom : ([] : List CodeEntry).length + ces.length ≤ 128 := by simpa using hfew
  obtain ⟨se', hse', htable⟩ := (tableAt_seAlloc name).storeAll hroom (entryAddrOf us)
  obtain rfl : se = se' := Except.ok.inj (h.symm.trans hse')
  simpa using htable

/-! ## Lines and entries -/

/-- The loader passes over the line. -/
def ScriptLine.isSkipped (l : ScriptLine) : Bool :=
  l.isComment || (l.text.isEmpty && l.ending == .crlf)

section Skipped

variable {l : ScriptLine} {u : Unspec} {k : ℕ}

/-- A line that stands for an entry is not passed over. -/
theorem isSkipped_of_isCode (hcode : l.isCode = true) : l.isSkipped = false := by
  obtain ⟨b, rest, htext, hhash, -⟩ := l.head_of_isCode hcode
  simp [ScriptLine.isSkipped, ScriptLine.isComment, htext, hhash]

/-- A blank line is no comment. -/
theorem isComment_of_isBlank (hblank : l.isBlank = true) : l.isComment = false := by
  cases htext : l.text with
  | nil => simp [ScriptLine.isComment, htext]
  | cons b rest =>
    unfold ScriptLine.isBlank at hblank
    rw [htext, List.all_cons, Bool.and_eq_true] at hblank
    have hb : b ≠ 35 := by
      rintro rfl
      cases hblank.1
    simp [ScriptLine.isComment, htext, hb]

/-- The first two characters that make the loader pass over a line. -/
theorem isSkipped_iff_head (hne : l.bytes ≠ []) : l.isSkipped = true ↔
    l.bytes.head? = some 35 ∨ l.bytes.head? = some 13 := by
  unfold ScriptLine.bytes at hne ⊢
  cases htext : l.text with
  | nil =>
    cases hend : l.ending with
    | lf | crlf => simp [ScriptLine.isSkipped, ScriptLine.isComment, htext, hend, LineEnding.bytes]
    | eof => simp [htext, hend, LineEnding.bytes] at hne
  | cons b rest =>
    have hb := (l.chars b (by simp [htext])).2.2
    simp [ScriptLine.isSkipped, ScriptLine.isComment, htext, hb]

/-- What the loader decides by. -/
theorem byteAt_head {read : List UInt8} {b : UInt8} (hb : read.head? = some b)
    (behind : List UInt8) : byteAt (read ++ behind) 0 = .ok b := by
  obtain ⟨rest, rfl⟩ : ∃ rest, read = b :: rest := by
    cases read with
    | nil => cases hb
    | cons c rest => exact ⟨rest, by simpa using hb⟩
  exact byteAt_natCast (i := 0) (by simp)

/-- The first character decides whether a line is looked at. -/
theorem loadLine_of_head {read : List UInt8} {b : UInt8} (hb : read.head? = some b) :
    loadLine u k read = if b = 35 ∨ b = 13 then .ok none else do
      let text ← cString (read ++ List.replicate (1024 - read.length) 0)
      let line ← chomp (read ++ List.replicate (1024 - read.length) 0) text.length
      let ce ← codeEntryOf u k line text.length
      return some ce := by
  unfold loadLine
  dsimp only
  rw [byteAt_head hb, ok_bind]
  rfl

/-- A line passed over becomes no entry. -/
theorem loadLine_of_isSkipped (hne : l.bytes ≠ []) (h : l.isSkipped = true) :
    loadLine u k l.bytes = .ok none := by
  obtain hhead | hhead := (isSkipped_iff_head hne).mp h
  all_goals
    rw [loadLine_of_head hhead]
    rfl

/-- Any other line becomes one, if the loader gets over it. -/
theorem loadLine_of_not_isSkipped (hne : l.bytes ≠ []) (h : l.isSkipped = false)
    {r : Option CodeEntry} (hok : loadLine u k l.bytes = .ok r) : ∃ ce, r = some ce := by
  obtain ⟨b, rest, hbytes⟩ := List.exists_cons_of_ne_nil hne
  have hhead : l.bytes.head? = some b := by rw [hbytes]; rfl
  have hb : ¬ (b = 35 ∨ b = 13) := by
    intro hb
    have hskip := (isSkipped_iff_head hne).mpr (by
      rcases hb with rfl | rfl
      · exact .inl hhead
      · exact .inr hhead)
    rw [h] at hskip
    cases hskip
  rw [loadLine_of_head hhead, if_neg hb] at hok
  obtain ⟨text, -, hok⟩ := bind_eq_ok.mp hok
  obtain ⟨line, -, hok⟩ := bind_eq_ok.mp hok
  obtain ⟨ce, -, hok⟩ := bind_eq_ok.mp hok
  exact ⟨ce, (Except.ok.inj hok).symm⟩

end Skipped

/-- A line feed alone stops the loader: it looks at the character before it. -/
theorem loadLine_lf (u : Unspec) (k : ℕ) (r : Option CodeEntry) :
    loadLine u k [10] ≠ .ok r := by
  intro h
  have hstring : cString ([10] ++ List.replicate (1024 - [(10 : UInt8)].length) 0) = .ok [10] :=
    cString_terminated (s := [10]) (by simp) (List.replicate 1022 0)
  rw [loadLine_of_head (b := 10) rfl, if_neg (by decide), hstring, ok_bind] at h
  obtain ⟨line, hline, -⟩ := bind_eq_ok.mp h
  exact chomp_short (by decide) line hline

/-- Entries that are, in order, those of some lines, from a position on. -/
inductive EntriesFor : ℕ → List ScriptLine → List CodeEntry → Prop
  | nil (k : ℕ) : EntriesFor k [] []
  | cons {k : ℕ} {l : ScriptLine} {ls : List ScriptLine} {ce : CodeEntry} {ces : List CodeEntry} :
      EntryFor k l ce → EntriesFor (k + 1) ls ces → EntriesFor k (l :: ls) (ce :: ces)

/-- Entry by entry. -/
theorem entriesFor_iff {k : ℕ} {ls : List ScriptLine} {ces : List CodeEntry} :
    EntriesFor k ls ces ↔ ces.length = ls.length ∧
      ∀ (j : ℕ) (l : ScriptLine), ls[j]? = some l →
        ∃ ce, ces[j]? = some ce ∧ EntryFor (k + j) l ce := by
  constructor
  · intro h
    induction h with
    | nil k => exact ⟨rfl, by simp⟩
    | cons hentry _ ih =>
      refine ⟨by simpa using ih.1, fun j l hl => ?_⟩
      cases j with
      | zero =>
        obtain rfl := Option.some.inj hl
        exact ⟨_, rfl, hentry⟩
      | succ j =>
        obtain ⟨ce, hce, hentry'⟩ := ih.2 j l hl
        rw [Nat.add_assoc, Nat.add_comm 1 j] at hentry'
        exact ⟨ce, hce, hentry'⟩
  · rintro ⟨hlen, h⟩
    induction ls generalizing k ces with
    | nil =>
      obtain rfl : ces = [] := List.length_eq_zero_iff.mp hlen
      exact .nil k
    | cons l ls ih =>
      cases ces with
      | nil => cases hlen
      | cons ce ces =>
        obtain ⟨ce', hce', hentry⟩ := h 0 l rfl
        obtain rfl := Option.some.inj hce'
        refine .cons hentry (ih (by simpa using hlen) fun j l' hl' => ?_)
        obtain ⟨ce', hce', hentry'⟩ := h (j + 1) l' hl'
        rw [Nat.add_comm j 1, ← Nat.add_assoc] at hentry'
        exact ⟨ce', hce', hentry'⟩

section Entries

variable {us : ℕ → Unspec} {lines : List ScriptLine} {k : ℕ}

/-- Readable lines become their entries. -/
theorem loadEntries_of_readable (hne : ∀ l ∈ lines, l.bytes ≠ [])
    (hfits : ∀ l ∈ lines, l.bytes.length ≤ 1023)
    (hskip : ∀ l ∈ lines, l.isCode = false → l.isSkipped = true)
    (hread : ∀ l ∈ lines, l.isCode = true → l.Readable) :
    ∃ ces, loadEntries us k (lines.map ScriptLine.bytes) = .ok ces ∧
      EntriesFor k (lines.filter ScriptLine.isCode) ces := by
  induction lines generalizing k with
  | nil => exact ⟨[], rfl, .nil k⟩
  | cons l lines ih =>
    have htail := fun (k : ℕ) => ih (k := k) (fun l' h => hne l' (List.mem_cons_of_mem l h))
      (fun l' h => hfits l' (List.mem_cons_of_mem l h))
      (fun l' h => hskip l' (List.mem_cons_of_mem l h))
      (fun l' h => hread l' (List.mem_cons_of_mem l h))
    rw [List.map_cons, loadEntries]
    cases hcode : l.isCode with
    | false =>
      obtain ⟨ces, hces, hentries⟩ := htail k
      have hnone := loadLine_of_isSkipped (u := us k) (k := k) (hne l List.mem_cons_self)
        (hskip l List.mem_cons_self hcode)
      refine ⟨ces, ?_, ?_⟩
      · rw [hnone, ok_bind]
        exact hces
      · rw [List.filter_cons_of_neg (by simp [hcode])]
        exact hentries
    | true =>
      obtain ⟨ces, hces, hentries⟩ := htail (k + 1)
      obtain ⟨ce, hce, hentry⟩ := (l.loadLine_iff (u := us k) (k := k) hcode
        (hfits l List.mem_cons_self)).mpr (hread l List.mem_cons_self hcode)
      refine ⟨ce :: ces, ?_, ?_⟩
      · rw [hce, ok_bind]
        simp only [hces, ok_bind, pure_eq_ok]
      · rw [List.filter_cons_of_pos hcode]
        exact .cons hentry hentries

/-- There are as many entries as lines that are not passed over. -/
theorem loadEntries_length (hne : ∀ l ∈ lines, l.bytes ≠ []) {ces : List CodeEntry}
    (h : loadEntries us k (lines.map ScriptLine.bytes) = .ok ces) :
    ces.length = (lines.filter fun l => !l.isSkipped).length := by
  induction lines generalizing k ces with
  | nil =>
    obtain rfl := Except.ok.inj h
    rfl
  | cons l lines ih =>
    have hne' := fun l' (hl' : l' ∈ lines) => hne l' (List.mem_cons_of_mem l hl')
    rw [List.map_cons, loadEntries] at h
    obtain ⟨r, hr, h⟩ := bind_eq_ok.mp h
    cases hskip : l.isSkipped with
    | true =>
      rw [loadLine_of_isSkipped (hne l List.mem_cons_self) hskip] at hr
      obtain rfl := Except.ok.inj hr
      rw [List.filter_cons_of_neg (by simp [hskip])]
      exact ih hne' h
    | false =>
      obtain ⟨ce, rfl⟩ := loadLine_of_not_isSkipped (hne l List.mem_cons_self) hskip hr
      obtain ⟨ces', hces', h⟩ := bind_eq_ok.mp h
      obtain rfl := Except.ok.inj h
      rw [List.filter_cons_of_pos (by simp [hskip]), List.length_cons, List.length_cons,
        ih hne' hces']

/-- Lines that become their entries are readable. -/
theorem readable_of_loadEntries (hne : ∀ l ∈ lines, l.bytes ≠ [])
    (hfits : ∀ l ∈ lines, l.bytes.length ≤ 1023)
    (hskip : ∀ l ∈ lines, l.isCode = false → l.isSkipped = true) {ces : List CodeEntry}
    (h : loadEntries us k (lines.map ScriptLine.bytes) = .ok ces)
    (hentries : EntriesFor k (lines.filter ScriptLine.isCode) ces) :
    ∀ l ∈ lines, l.isCode = true → l.Readable := by
  induction lines generalizing k ces with
  | nil => simp
  | cons l lines ih =>
    have htail : ∀ (k : ℕ) (ces : List CodeEntry),
        loadEntries us k (lines.map ScriptLine.bytes) = .ok ces →
        EntriesFor k (lines.filter ScriptLine.isCode) ces →
        ∀ l ∈ lines, l.isCode = true → l.Readable := fun k ces =>
      ih (fun l' h => hne l' (List.mem_cons_of_mem l h))
        (fun l' h => hfits l' (List.mem_cons_of_mem l h))
        (fun l' h => hskip l' (List.mem_cons_of_mem l h))
    rw [List.map_cons, loadEntries] at h
    obtain ⟨r, hr, h⟩ := bind_eq_ok.mp h
    cases hcode : l.isCode with
    | false =>
      rw [loadLine_of_isSkipped (hne l List.mem_cons_self) (hskip l List.mem_cons_self hcode)] at hr
      obtain rfl := Except.ok.inj hr
      rw [List.filter_cons_of_neg (by simp [hcode])] at hentries
      intro l' hl' hcode'
      obtain rfl | hmem := List.mem_cons.mp hl'
      · rw [hcode] at hcode'
        cases hcode'
      · exact htail k ces h hentries l' hmem hcode'
    | true =>
      obtain ⟨ce, rfl⟩ := loadLine_of_not_isSkipped (hne l List.mem_cons_self)
        (isSkipped_of_isCode hcode) hr
      obtain ⟨ces', hces', h⟩ := bind_eq_ok.mp h
      obtain rfl := Except.ok.inj h
      rw [List.filter_cons_of_pos hcode] at hentries
      obtain _ | ⟨hentry, hentries⟩ := hentries
      intro l' hl' hcode'
      obtain rfl | hmem := List.mem_cons.mp hl'
      · exact (l'.loadLine_iff hcode (hfits l' List.mem_cons_self)).mp ⟨ce, hr, hentry⟩
      · exact htail (k + 1) ces' hces' hentries l' hmem hcode'

end Entries

/-- Every line the loader gets over is one it can read. -/
theorem loadLine_of_loadEntries {us : ℕ → Unspec} {reads : List (List UInt8)} {k : ℕ}
    {ces : List CodeEntry} (h : loadEntries us k reads = .ok ces) {read : List UInt8}
    (hread : read ∈ reads) : ∃ k r, loadLine (us k) k read = .ok r := by
  induction reads generalizing k ces with
  | nil => cases hread
  | cons read' reads ih =>
    rw [loadEntries] at h
    obtain ⟨r, hr, h⟩ := bind_eq_ok.mp h
    obtain rfl | hmem := List.mem_cons.mp hread
    · exact ⟨k, r, hr⟩
    · cases r with
      | none => exact ih h hmem
      | some ce =>
        obtain ⟨ces', hces', -⟩ := bind_eq_ok.mp h
        exact ih hces' hmem

/-! ## Files -/

namespace ScriptFile

variable {file : ScriptFile} {us : ℕ → Unspec} {path : List UInt8}

theorem bytes_ne_nil (file : ScriptFile) : ∀ l ∈ file.lines, l.bytes ≠ [] := fun l hl =>
  ScriptLine.bytes_ne_nil (file.last_ne l hl)

/-- The name of the script finds room but for one length. -/
theorem getFilenameFromPath_eq_ok {size : ℕ} :
    (∃ name, getFilenameFromPath path size = .ok name) ↔ (fileNameOf path).length ≠ size := by
  unfold getFilenameFromPath
  constructor
  · rintro ⟨name, h⟩ heq
    rw [if_neg (by omega), if_pos heq] at h
    cases h
  · intro h
    split
    · exact ⟨_, rfl⟩
    · exact ⟨_, rfl⟩

/-- Lines that stand for no entry are passed over, where blank lines are as the
loader expects them. -/
theorem isSkipped_of_not_isCode
    (hblank : ∀ l ∈ file.lines, l.isBlank = true → l.text = [] ∧ l.ending = .crlf) :
    ∀ l ∈ file.lines, l.isCode = false → l.isSkipped = true := by
  intro l hl hcode
  unfold ScriptLine.isCode at hcode
  unfold ScriptLine.isSkipped
  cases hcomment : l.isComment with
  | true => rfl
  | false =>
    have hb : l.isBlank = true := by simpa [hcomment] using hcode
    obtain ⟨htext, hend⟩ := hblank l hl hb
    simp [htext, hend]

/-- A file that is as the loader expects it becomes the script it stands for. -/
theorem Loadable.loadsLines (h : file.Loadable) (us : ℕ → Unspec)
    (hname : (fileNameOf path).length ≠ 512) : LoadsLines us path file := by
  obtain ⟨name, hname⟩ := getFilenameFromPath_eq_ok.mpr hname
  obtain ⟨ces, hces, hentries⟩ : ∃ ces,
      loadEntries us 0 (file.lines.map ScriptLine.bytes) = .ok ces ∧ EntriesFor 0 file.code ces :=
    loadEntries_of_readable file.bytes_ne_nil h.fits (isSkipped_of_not_isCode h.blank)
      (fun l hl hcode => h.readable l (List.mem_filter.mpr ⟨hl, hcode⟩))
  obtain ⟨hlen, hentry⟩ := entriesFor_iff.mp hentries
  have hfew : ces.length ≤ 128 := by
    rw [hlen]
    exact h.few
  obtain ⟨se, hse, htable⟩ := (tableAt_seAlloc name).storeAll (by simpa using hfew) (entryAddrOf us)
  rw [List.nil_append] at htable
  refine ⟨se, ?_, ?_, ?_⟩
  · have hreads := fgetsAll_lines file.ended file.last_ne h.fits (le_refl _)
    have hloop := scloaderLoop_eq_ok.mpr ⟨ces, hces, hse⟩
    unfold scloaderLoad ScriptFile.bytes
    simp only [hname, hreads, hloop, ok_bind, pure_eq_ok]
  · rw [htable.codeNum_eq, hlen]
  · intro k l hl
    obtain ⟨ce, hce, hfor⟩ := hentry k l hl
    rw [Nat.zero_add] at hfor
    exact ⟨ce, htable.slot k ce hce, hfor⟩

/-- Where there are as many lines that are not passed over as lines that stand for
entries, the others are passed over. -/
theorem isSkipped_of_length
    (hlen : (file.lines.filter fun l => !l.isSkipped).length = file.code.length) :
    ∀ l ∈ file.lines, l.isCode = false → l.isSkipped = true := by
  have hsub : file.code.Sublist (file.lines.filter fun l => !l.isSkipped) := by
    apply List.monotone_filter_right
    intro l hcode
    rw [isSkipped_of_isCode hcode]
    rfl
  have hsame := hsub.eq_of_length hlen.symm
  intro l hl hcode
  by_contra hskip
  have hmem : l ∈ file.code := by
    rw [hsame]
    exact List.mem_filter.mpr ⟨hl, by simpa using hskip⟩
  rw [(List.mem_filter.mp hmem).2] at hcode
  cases hcode

/-- A file that becomes the script it stands for is as the loader expects it. -/
theorem loadable_of_loadsLines (h : LoadsLines us path file) :
    file.Loadable ∧ (fileNameOf path).length ≠ 512 := by
  obtain ⟨se, hload, hnum, hslots⟩ := h
  obtain ⟨name, hname, hload⟩ := bind_eq_ok.mp hload
  obtain ⟨se', hloop, hload⟩ := bind_eq_ok.mp hload
  obtain rfl : se' = se := by simpa using hload
  obtain ⟨ces, hces, hstore⟩ := scloaderLoop_eq_ok.mp hloop
  obtain ⟨hcount, hover, hfew⟩ := storeEntries_seAlloc hstore
  have hlen : ces.length = file.code.length := by omega
  -- a line that does not fit leaves a line feed alone
  have hfits : ∀ l ∈ file.lines, l.bytes.length ≤ 1023 := by
    by_contra hlong
    push Not at hlong
    obtain ⟨k, r, hline⟩ := loadLine_of_loadEntries hces
      (fgetsAll_long file.ended file.last_ne hlong (le_refl _))
    exact loadLine_lf _ _ _ hline
  have hreads := fgetsAll_lines file.ended file.last_ne hfits (le_refl _)
  unfold ScriptFile.bytes at hces
  rw [hreads] at hces
  -- the lines not passed over are counted by the entries, so they are the right ones
  have hskip : ∀ l ∈ file.lines, l.isCode = false → l.isSkipped = true := by
    apply isSkipped_of_length
    rw [← loadEntries_length file.bytes_ne_nil hces, hlen]
  -- past 128 entries slot 100 is empty
  have hsmall : ces.length ≤ 128 := by
    by_contra hlarge
    have hnone := hover (by omega)
    obtain ⟨ce, hce, -⟩ := hslots 100 _ (List.getElem?_eq_getElem (by omega))
    rw [hnone] at hce
    cases hce
  have htable := hfew hsmall
  have hentries : EntriesFor 0 file.code ces := by
    refine entriesFor_iff.mpr ⟨hlen, fun j l hl => ?_⟩
    obtain ⟨ce, hce, hentry⟩ := hslots j l hl
    have hj : j < ces.length := by
      have := (List.getElem?_eq_some_iff.mp hl).1
      omega
    have hslot := htable.slot j _ (List.getElem?_eq_getElem hj)
    rw [hce, Option.some.injEq, Option.some.injEq] at hslot
    rw [Nat.zero_add]
    exact ⟨_, List.getElem?_eq_getElem hj, hslot ▸ hentry⟩
  have hreadable := readable_of_loadEntries file.bytes_ne_nil hfits hskip hces hentries
  refine ⟨⟨hfits, ?_, ?_, by omega⟩, getFilenameFromPath_eq_ok.mp ⟨name, hname⟩⟩
  · intro l hl hblank
    have hcode : l.isCode = false := by simp [ScriptLine.isCode, hblank]
    have hskipped := hskip l hl hcode
    have hcomment := isComment_of_isBlank hblank
    simpa [ScriptLine.isSkipped, hcomment] using hskipped
  · intro l hl
    obtain ⟨hmem, hcode⟩ := List.mem_filter.mp hl
    exact hreadable l hmem hcode

end ScriptFile

/-- **Scripts.** A file becomes the script its lines stand for exactly when it is
as the loader expects it, and its name is not just one character too long. -/
theorem script_loads_iff (us : ℕ → Unspec) (path : List UInt8) (file : ScriptFile) :
    LoadsLines us path file ↔ file.Loadable ∧ (fileNameOf path).length ≠ 512 :=
  ⟨ScriptFile.loadable_of_loadsLines, fun h => h.1.loadsLines us h.2⟩

/-- A line of plain text. -/
def plainLine (text : String) (ending : LineEnding)
    (h : ∀ b ∈ literal text, b ≠ 0 ∧ b ≠ 10 ∧ b ≠ 13) (hlen : (literal text).length < 1023) :
    ScriptLine :=
  ⟨literal text, ending, h, hlen⟩

/-- Two entries with a blank line between them, all ended by LF. -/
def blankLineFile : ScriptFile :=
  { lines := [plainLine "10,a" .lf (by decide +kernel) (by decide +kernel),
              plainLine "" .lf (by decide +kernel) (by decide),
              plainLine "11,b" .lf (by decide +kernel) (by decide +kernel)],
    ended := by simp [plainLine], last_ne := by simp [plainLine] }

/-- The loader looks at the character before the blank line and stops. -/
theorem script_loading_fails : ¬ ∀ (us : ℕ → Unspec) (path : List UInt8) (file : ScriptFile),
    (fileNameOf path).length < 512 → LoadsLines us path file := by
  intro h
  have hload := h (fun _ => plainUnspec) (literal "fm.sc") blankLineFile (by decide +kernel)
  have hblank := (ScriptFile.loadable_of_loadsLines hload).1.blank
    (plainLine "" .lf (by decide +kernel) (by decide)) (by simp [blankLineFile]) rfl
  cases hblank.2

end TsmVm
