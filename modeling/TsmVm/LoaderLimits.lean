import TsmVm.ScriptFiles

/-!
# What the loader has room for

The table of a script and the array of a line's operands both grow when they are
full. The table is copied with `memcpy_int`, one byte for each entry, and does
not record its new size; the array grows once and then stays as it is. So a
script has room for 128 entries, and a line for ten operands.
-/

namespace TsmVm

/-! ## The table of entries -/

/-- A script that is read: every line is passed over or becomes an entry. -/
structure ReadScript where
  /-- What C leaves open for each entry. -/
  us : ℕ → Unspec
  /-- The name of the script. -/
  name : List UInt8
  /-- The lines. -/
  reads : List (List UInt8)
  /-- The entries they become. -/
  entries : List CodeEntry
  /-- They become these. -/
  entries_eq : loadEntries us 0 reads = .ok entries

/-- The table records as many slots as it has, and its first ones hold some
entries in order. -/
structure KeepsEntries (done : List CodeEntry) (se : ScriptEntry) : Prop where
  /-- The recorded size is the number of slots. -/
  size_eq : se.size = se.ces.length
  /-- The entries are counted. -/
  codeNum_eq : se.codeNum = done.length
  /-- Each is in its slot. -/
  slot : ∀ (k : ℕ) (ce : CodeEntry), done[k]? = some ce → se.ces[k]? = some (some ce)

/-- Wherever the loop has come to, it has stored nothing outside the table, and
the table keeps the entries so far. -/
def GrowthLosesNothing (s : ReadScript) : Prop :=
  ∀ m, ∃ done se, loadEntries s.us 0 (s.reads.take m) = .ok done ∧
    scloaderLoop s.us (s.reads.take m) 0 (seAlloc s.name) = .ok se ∧ KeepsEntries done se

/-- The lines up to some place become the entries up to some place. -/
theorem loadEntries_take {us : ℕ → Unspec} {reads : List (List UInt8)} {k : ℕ}
    {entries : List CodeEntry} (h : loadEntries us k reads = .ok entries) (m : ℕ) :
    ∃ done, loadEntries us k (reads.take m) = .ok done ∧ done.length ≤ entries.length := by
  induction reads generalizing k entries m with
  | nil => exact ⟨[], by rw [List.take_nil]; rfl, Nat.zero_le _⟩
  | cons read reads ih =>
    cases m with
    | zero => exact ⟨[], rfl, Nat.zero_le _⟩
    | succ m =>
      obtain ⟨r, hr, h⟩ := bind_eq_ok.mp h
      rw [List.take_succ_cons, loadEntries, hr, ok_bind]
      cases r with
      | none => exact ih h m
      | some ce =>
        obtain ⟨ces, hces, h⟩ := bind_eq_ok.mp h
        obtain rfl := Except.ok.inj h
        obtain ⟨done, hdone, hlen⟩ := ih hces m
        refine ⟨ce :: done, ?_, by simpa using hlen⟩
        dsimp only
        rw [hdone, ok_bind]
        rfl

/-- Within its first 128 slots the table keeps its entries. -/
theorem TableAt.keepsEntries {done : List CodeEntry} {se : ScriptEntry} (h : TableAt done se) :
    KeepsEntries done se := by
  refine ⟨?_, h.codeNum_eq, h.slot⟩
  rw [h.size_eq, h.length_eq]
  rfl

/-- More than 128 entries are not kept. -/
theorem few_of_growthLosesNothing {s : ReadScript} (h : GrowthLosesNothing s) :
    s.entries.length ≤ 128 := by
  obtain ⟨done, se, hdone, hloop, hkeeps⟩ := h s.reads.length
  rw [List.take_length] at hdone hloop
  obtain rfl : s.entries = done := Except.ok.inj (s.entries_eq.symm.trans hdone)
  obtain ⟨ces, hces, hstore⟩ := scloaderLoop_eq_ok.mp hloop
  obtain rfl : s.entries = ces := Except.ok.inj (s.entries_eq.symm.trans hces)
  by_contra hmany
  have hlost := (storeEntries_seAlloc hstore).2.1 (by omega)
  have hkept := hkeeps.slot 100 _ (List.getElem?_eq_getElem (by omega))
  rw [hlost] at hkept
  cases hkept

/-- **The table of a script** loses nothing as long as it does not have to grow. -/
theorem growthLosesNothing_iff (s : ReadScript) :
    GrowthLosesNothing s ↔ s.entries.length ≤ 128 := by
  refine ⟨few_of_growthLosesNothing, fun hfew m => ?_⟩
  obtain ⟨done, hdone, hlen⟩ := loadEntries_take s.entries_eq m
  have hroom : ([] : List CodeEntry).length + done.length ≤ 128 := by
    rw [List.length_nil]
    omega
  obtain ⟨se, hstore, htable⟩ :=
    (tableAt_seAlloc s.name).storeAll hroom (entryAddrOf s.us)
  rw [List.nil_append] at htable
  exact ⟨done, se, hdone, scloaderLoop_eq_ok.mpr ⟨done, hdone, hstore⟩, htable.keepsEntries⟩

/-- A line with a number and nothing else. -/
def bareLine : ScriptLine := plainLine "5" .lf (by decide +kernel) (by decide)

/-- 129 such lines. -/
theorem growth_fails : ¬ ∀ s : ReadScript, GrowthLosesNothing s := by
  intro h
  have hmem : ∀ l ∈ List.replicate 129 bareLine, l = bareLine := fun l hl =>
    List.eq_of_mem_replicate hl
  have hne : ∀ l ∈ List.replicate 129 bareLine, l.bytes ≠ [] := fun l hl => hmem l hl ▸ by decide
  have hfits : ∀ l ∈ List.replicate 129 bareLine, l.bytes.length ≤ 1023 := fun l hl =>
    hmem l hl ▸ by decide
  have hskip : ∀ l ∈ List.replicate 129 bareLine, l.isCode = false → l.isSkipped = true :=
    fun l hl => hmem l hl ▸ by decide
  have hread : ∀ l ∈ List.replicate 129 bareLine, l.isCode = true → l.Readable := fun l hl _ =>
    hmem l hl ▸ ⟨by decide, by decide, by decide, by decide⟩
  obtain ⟨entries, hload, hentries⟩ : ∃ ces, loadEntries (fun _ => plainUnspec) 0 _ = .ok ces ∧ _ :=
    loadEntries_of_readable hne hfits hskip hread
  have hlen := (entriesFor_iff.mp hentries).1
  have hcode : ((List.replicate 129 bareLine).filter ScriptLine.isCode).length = 129 := by
    rw [List.filter_replicate_of_pos rfl, List.length_replicate]
  have hfew := few_of_growthLosesNothing
    (h ⟨fun _ => plainUnspec, [], _, entries, hload⟩)
  dsimp only at hfew
  omega

/-! ## The operands of a line -/

/-- A line with operands that is read in one piece. -/
structure OperandLine extends ScriptLine where
  /-- It stands for an entry. -/
  code : toScriptLine.isCode = true
  /-- It has operands. -/
  comma : (44 : UInt8) ∈ text
  /-- It fits into the buffer of the loader. -/
  fits : toScriptLine.bytes.length ≤ 1023

/-- Its operands: the non-empty fields behind the first delimiter. -/
def OperandLine.texts (l : OperandLine) : List (List UInt8) :=
  Fields.fields isDelim (l.text.dropWhile (!isDelim ·))

theorem OperandLine.operands_eq (l : OperandLine) : l.operands = some l.texts := if_pos l.comma

/-- All operands are stored in order, within an array that is as large as it
says. -/
def OperandsFit (l : OperandLine) : Prop :=
  ∀ (u : Unspec) (k : ℕ), ∃ ce fba, loadLine u k l.bytes = .ok (some ce) ∧
    ce.parameters = some fba ∧ fba.Holds l.texts ∧ fba.cnt ≤ fba.size ∧
    fba.size = fba.array.length

/-- An array within its capacity. -/
theorem ParamsAt.cnt_le {done : List (List UInt8)} {fba : FmBytesArray} (h : ParamsAt done fba) :
    fba.cnt ≤ fba.size := by
  have hcnt := h.holds.cnt_eq
  obtain ⟨hsize, hfew⟩ | ⟨hsize, hfew⟩ := h.size_cases <;> omega

theorem OperandLine.text_length_le (l : OperandLine) : l.text.length ≤ l.bytes.length := by
  simp [ScriptLine.bytes]

/-- More than ten operands do not fit. -/
theorem few_of_operandsFit {l : OperandLine} (h : OperandsFit l) :
    l.front ≠ [] ∧ l.texts.length ≤ 10 := by
  obtain ⟨ce, fba, hload, hfba, hholds, -⟩ := h plainUnspec 0
  have htwo := l.two_le_of_loadLine l.code l.fits hload
  have hfits := l.fits
  rw [l.loadLine_text l.code l.fits htwo] at hload
  exact l.few_of_codeEntryOf l.comma (by omega) l.text_length_le l.operands_eq hload hfba
    hholds.cnt_eq

/-- The array of a line with ten operands at most, behind a number. -/
theorem OperandLine.loadLine_of_few (l : OperandLine) (hfront : l.front ≠ [])
    (hfew : l.texts.length ≤ 10) (u : Unspec) (k : ℕ) :
    ∃ ce fba, loadLine u k l.bytes = .ok (some ce) ∧ ce.parameters = some fba ∧
      ParamsAt l.texts fba := by
  have hfits := l.fits
  have htwo : 2 ≤ l.bytes.length := by
    obtain ⟨d, rest, -, htext, -⟩ := l.toScriptLine.operands_eq l.comma
    have hlen := congrArg List.length htext
    have hpos := List.length_pos_iff.mpr hfront
    have hle := l.text_length_le
    rw [List.length_append, List.length_cons] at hlen
    omega
  obtain ⟨fba, hentry, hparams⟩ := l.codeEntryOf_of_few (u := u) (k := k)
    (m := l.ending.bytes.length + (1024 - l.bytes.length)) l.comma (by omega) l.text_length_le
    hfront l.operands_eq hfew
  exact ⟨_, fba, (l.loadLine_text l.code l.fits htwo).mpr hentry, rfl, hparams⟩

/-- **The operands of a line** are all stored where there are ten at most, behind
a number. -/
theorem operandsFit_iff (l : OperandLine) :
    OperandsFit l ↔ l.front ≠ [] ∧ l.texts.length ≤ 10 := by
  refine ⟨few_of_operandsFit, ?_⟩
  rintro ⟨hfront, hfew⟩ u k
  obtain ⟨ce, fba, hload, hfba, hparams⟩ := l.loadLine_of_few hfront hfew u k
  exact ⟨ce, fba, hload, hfba, hparams.holds, hparams.cnt_le, hparams.size_eq⟩

/-- The third line of `fm1280.sc`, which has twelve operands. -/
def twelveOperands : OperandLine :=
  { toScriptLine := plainLine ("64,0182:pre0,0101:pre1,0181:pre2,000000000000000000000000:suf," ++
      "08000000000000000:suf1,0000000000000000:init_data") .crlf (by decide +kernel)
      (by decide +kernel),
    code := by decide +kernel, comma := by decide +kernel, fits := by decide +kernel }

/-- The eleventh operand is stored behind the array. -/
theorem operands_fail : ¬ ∀ l : OperandLine, OperandsFit l := by
  intro h
  have hfew := (few_of_operandsFit (h twelveOperands)).2
  revert hfew
  decide +kernel

end TsmVm
