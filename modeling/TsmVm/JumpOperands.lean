import TsmVm.Bytecode
import TsmVm.HexLiterals
import TsmVm.ScriptFiles

/-!
# The operands of the four tests

A line of a script gives a test of the response two operands: the bytes to look
for, in hexadecimal, and the address to jump to, in decimal. The loader stores
both as text in an array of five slots; the tests take an array of two slots and
no other. So they compare nothing.
-/

namespace TsmVm

/-- An array as the loader makes them. -/
structure FmBytesArray.FromLoader (fba : FmBytesArray) : Prop where
  /-- It has five slots, or ten. -/
  size_eq : fba.size = 5 ∨ fba.size = 10
  /-- It is a block of its own. -/
  addr_ne_zero : fba.addr ≠ 0

/-- An entry whose operands, if any, are in such an array. -/
def CodeEntry.FromLoader (ce : CodeEntry) : Prop :=
  ∀ fba, ce.parameters = some fba → fba.FromLoader

section Loader

variable {u : Unspec}

/-- A round of the inner loop keeps the array or doubles its size once. -/
theorem fmBytesArrayResize_fromLoader {addr : ℕ} (haddr : addr ≠ 0) {fba : FmBytesArray}
    (h : fba.FromLoader) : (fmBytesArrayResize addr fba (2 * defaultParamNum)).FromLoader := by
  unfold fmBytesArrayResize
  split
  · exact h
  · exact ⟨.inr rfl, haddr⟩

/-- Storing an operand leaves the array where it is, and its size. -/
theorem FmBytesArray.FromLoader.store {fba r : FmBytesArray} (hfba : fba.FromLoader) {i : ℤ}
    {p : Option FmBytes} (h : fba.store i p = .ok r) : r.FromLoader := by
  unfold FmBytesArray.store at h
  split at h
  · obtain rfl := Except.ok.inj h
    exact ⟨hfba.size_eq, hfba.addr_ne_zero⟩
  · cases h

/-- The inner loop, for any text. -/
theorem paramLoop_fromLoader {n i : ℕ} {text : List UInt8} {fba r : FmBytesArray}
    (hfba : fba.FromLoader) (h : paramLoop u n text i fba = .ok r) : r.FromLoader := by
  induction n generalizing text i fba with
  | zero =>
    unfold paramLoop at h
    split at h
    · cases h
    · exact Except.ok.inj h ▸ hfba
  | succ n ih =>
    unfold paramLoop at h
    split at h
    · exact Except.ok.inj h ▸ hfba
    · obtain ⟨copied, -, h⟩ := bind_eq_ok.mp h
      obtain ⟨stored, hstore, h⟩ := bind_eq_ok.mp h
      have hstored : stored.FromLoader := by
        split at hstore
        · exact (fmBytesArrayResize_fromLoader (u.addr_ne_zero 2) hfba).store hstore
        · exact hfba.store hstore
      have hcounted : ({ stored with cnt := i + 1 } : FmBytesArray).FromLoader :=
        ⟨hstored.size_eq, hstored.addr_ne_zero⟩
      exact ih hcounted h

/-- Whatever a line reads, its operands are in such an array. -/
theorem loadLine_fromLoader {k : ℕ} {read : List UInt8} {ce : CodeEntry}
    (h : loadLine u k read = .ok (some ce)) : ce.FromLoader := by
  intro fba hfba
  obtain hnone | ⟨rest, fba', -, hloop, hsome⟩ := loadLine_parameters h
  · rw [hnone] at hfba
    cases hfba
  · rw [hsome] at hfba
    obtain rfl := Option.some.inj hfba
    exact paramLoop_fromLoader ⟨.inl rfl, u.addr_ne_zero 1⟩ hloop

/-- The table holds nothing but entries that were stored. -/
theorem storeEntry_mem {entryAddr : CodeEntry → ℕ} {se se' : ScriptEntry} {ce ce' : CodeEntry}
    (h : storeEntry entryAddr se ce = .ok se') (hmem : some ce' ∈ se'.ces) :
    ce' = ce ∨ some ce' ∈ se.ces := by
  obtain ⟨se₁, hse₁, h⟩ := bind_eq_ok.mp h
  have hold : some ce' ∈ se₁.ces → some ce' ∈ se.ces := by
    intro hmem
    split at hse₁
    · obtain ⟨mem, -, hse₁⟩ := bind_eq_ok.mp hse₁
      obtain rfl := Except.ok.inj hse₁
      obtain ⟨i, -, hi⟩ := List.mem_map.mp hmem
      obtain ⟨hslot, -⟩ := Option.filter_eq_some_iff.mp hi
      rw [List.getD_eq_getElem?_getD] at hslot
      cases hget : se.ces[i]? with
      | none => simp [hget] at hslot
      | some slot =>
        rw [hget, Option.getD_some] at hslot
        exact hslot ▸ List.mem_of_getElem? hget
    · exact Except.ok.inj hse₁ ▸ hmem
  split at h
  · obtain rfl := Except.ok.inj h
    obtain hmem | heq := List.mem_or_eq_of_mem_set hmem
    · exact .inr (hold hmem)
    · exact .inl (Option.some.inj heq)
  · cases h

/-- **What the loader hands out.** The operands of every entry of every script
are in an array of five slots or of ten. -/
theorem scloaderLoad_fromLoader {us : ℕ → Unspec} {files : List UInt8 → Option (List UInt8)}
    {path : List UInt8} {se : ScriptEntry} (h : scloaderLoad us files path = .ok (some se))
    {ce : CodeEntry} (hmem : some ce ∈ se.ces) : ce.FromLoader := by
  have hloop : ∀ (reads : List (List UInt8)) (k : ℕ) (se₀ : ScriptEntry),
      (∀ ce, some ce ∈ se₀.ces → ce.FromLoader) → scloaderLoop us reads k se₀ = .ok se →
      ce.FromLoader := by
    intro reads
    induction reads with
    | nil =>
      intro k se₀ hse₀ h
      obtain rfl := Except.ok.inj h
      exact hse₀ ce hmem
    | cons read reads ih =>
      intro k se₀ hse₀ h
      obtain ⟨r, hr, h⟩ := bind_eq_ok.mp h
      cases r with
      | none => exact ih k se₀ hse₀ h
      | some ce₁ =>
        obtain ⟨se₁, hstore, h⟩ := bind_eq_ok.mp h
        refine ih (k + 1) se₁ (fun ce' hce' => ?_) h
        obtain rfl | hold := storeEntry_mem hstore hce'
        · exact loadLine_fromLoader hr
        · exact hse₀ ce' hold
  unfold scloaderLoad at h
  split at h
  · cases h
  · obtain ⟨name, -, h⟩ := bind_eq_ok.mp h
    obtain ⟨se', hse', h⟩ := bind_eq_ok.mp h
    obtain rfl : se' = se := by simpa using h
    refine hloop _ _ _ (fun ce' hce' => ?_) hse'
    have := List.eq_of_mem_replicate hce'
    cases this

end Loader

/-! ## The tests -/

/-- The four tests. -/
inductive JumpTest
  | tailJne | tailJe | headJne | headJe
  deriving DecidableEq, Repr

/-- The bytecode of a test. -/
def JumpTest.bytecode : JumpTest → Bytecode
  | .tailJne => .rspTestTailJne
  | .tailJe => .rspTestTailJe
  | .headJne => .rspTestHeadJne
  | .headJe => .rspTestHeadJe

/-- Whether a fragment is as a test looks for it. -/
def JumpTest.matchesFragment (test : JumpTest) (expected fragment : List UInt8) : Bool :=
  match test with
  | .tailJne | .tailJe => expected.isSuffixOf fragment
  | .headJne | .headJe => expected.isPrefixOf fragment

/-- A line of a script that calls one of the tests. -/
structure JumpLine extends ScriptLine where
  /-- The number of the test. -/
  code : List UInt8
  /-- The bytes to look for. -/
  hex : List UInt8
  /-- The address to jump to. -/
  target : List UInt8
  /-- The line is the three of them. -/
  text_eq : text = code ++ [44] ++ hex ++ [44] ++ target
  /-- The number is in decimal. -/
  code_digits : code ≠ [] ∧ ∀ b ∈ code, isDigit b = true
  /-- The bytes are in hexadecimal. -/
  hex_digits : hex.length % 2 = 0 ∧ ∀ b ∈ hex, isHexDigit b = true
  /-- The address is in decimal. -/
  target_digits : target ≠ [] ∧ ∀ b ∈ target, isDigit b = true

/-- The fragments of a response. -/
def FmBytesArray.fragments (fba : FmBytesArray) : List (List UInt8) :=
  (fba.array.take fba.cnt.toNat).map fun p => p.elim [] FmBytes.content

/-- The test compares every fragment with the bytes of the line, and the address
it jumps to, when the comparison comes out one way, is the one of the line. -/
def TestsAsWritten (test : JumpTest) (j : JumpLine) (u : Unspec) (ccb : Ccb)
    (rsp arg : FmBytesArray) : Prop :=
  ∃ jumpOn : Bool, test.bytecode.call u ccb (.obj rsp) arg =
    .ok (0, jumpTo ccb
      (if rsp.fragments.all (test.matchesFragment (hexBytes j.hex)) = jumpOn
        then some (decimalOf j.target) else none))

/-- The entry the loader makes of a line means what the line says. -/
def JumpLineWorks (us : ℕ → Unspec) (path : List UInt8) (file : ScriptFile) (k : ℕ)
    (test : JumpTest) (j : JumpLine) (u : Unspec) (ccb : Ccb) (rsp : FmBytesArray) : Prop :=
  ∃ se ce fba, scloaderLoad us (fun _ => some file.bytes) path = .ok (some se) ∧
    se.ces[k]? = some (some ce) ∧ ce.parameters = some fba ∧ TestsAsWritten test j u ccb rsp fba

/-- An array of another size than two is refused. -/
theorem call_of_size_ne {test : JumpTest} {u : Unspec} {ccb : Ccb} {rsp : Ptr FmBytesArray}
    {arg : FmBytesArray} (h : arg.size ≠ 2) :
    test.bytecode.call u ccb rsp arg = .ok (fmGenErrInvalidParm, ccb) := by
  cases test <;> exact if_pos h

/-- What the loader hands out is refused. -/
theorem not_testsAsWritten {test : JumpTest} {j : JumpLine} {u : Unspec} {ccb : Ccb}
    {rsp arg : FmBytesArray} (h : arg.FromLoader) : ¬ TestsAsWritten test j u ccb rsp arg := by
  rintro ⟨jumpOn, hcall⟩
  have hsize : arg.size ≠ 2 := by
    obtain hfive | hten := h.size_eq <;> omega
  rw [call_of_size_ne hsize] at hcall
  have hret := congrArg Prod.fst (Except.ok.inj hcall)
  simp [fmGenErrInvalidParm] at hret

theorem not_jumpLineWorks {us : ℕ → Unspec} {path : List UInt8} {file : ScriptFile} {k : ℕ}
    {test : JumpTest} {j : JumpLine} {u : Unspec} {ccb : Ccb} {rsp : FmBytesArray} :
    ¬ JumpLineWorks us path file k test j u ccb rsp := by
  rintro ⟨se, ce, fba, hload, hslot, hparams, htest⟩
  exact not_testsAsWritten (scloaderLoad_fromLoader hload (List.mem_of_getElem? hslot) fba hparams)
    htest

/-- **No test ever looks at its operands**: every entry of every script, that of a line
that calls one too, is refused for the capacity of its operand array, whatever the
response. -/
theorem jump_operands_never_tested (us : ℕ → Unspec) (path : List UInt8) (file : ScriptFile)
    (k : ℕ) (test : JumpTest) (j : JumpLine) (u : Unspec) (ccb : Ccb) (rsp : FmBytesArray) :
    ¬ JumpLineWorks us path file k test j u ccb rsp :=
  not_jumpLineWorks

/-- Line `32,9000,104`: jump to entry 104 unless every fragment ends with `90 00`. -/
def tailJneLine : JumpLine :=
  { toScriptLine := plainLine "32,9000,104" .crlf (by decide +kernel) (by decide +kernel),
    code := literal "32", hex := literal "9000", target := literal "104",
    text_eq := by decide +kernel, code_digits := by decide +kernel,
    hex_digits := by decide +kernel, target_digits := by decide +kernel }

/-- The file with this line only. -/
def tailJneFile : ScriptFile :=
  { lines := [tailJneLine.toScriptLine], ended := by simp, last_ne := by
      simp [tailJneLine, plainLine] }

theorem tailJneFile_loadable : tailJneFile.Loadable := by
  refine ⟨by decide, by decide, ?_, by decide⟩
  intro l hl
  obtain rfl : l = tailJneLine.toScriptLine := by
    simpa [ScriptFile.code, tailJneFile] using (List.mem_filter.mp hl).1
  exact ⟨by decide, by decide, by decide, by decide⟩

/-- A response of one fragment without data. -/
def emptyFragment : FmBytesArray :=
  { addr := 1, size := 16, cnt := 1, array := [some ⟨0, 0, 1, []⟩] }

theorem jump_operands_never_tested_tailJne :
    tailJneFile.code[0]? = some tailJneLine.toScriptLine ∧
    ¬ JumpLineWorks (fun _ => plainUnspec) [] tailJneFile 0 .tailJne tailJneLine plainUnspec
      (plainCcb 7 2) emptyFragment :=
  ⟨rfl, jump_operands_never_tested _ _ _ _ _ _ _ _ _⟩

/-- The first fragment does not end with `90 00`, and yet nothing happens. -/
theorem jump_operands_fail : ¬ ∀ (us : ℕ → Unspec) (path : List UInt8) (file : ScriptFile)
    (k : ℕ) (test : JumpTest) (j : JumpLine) (u : Unspec) (ccb : Ccb) (rsp : FmBytesArray),
    file.Loadable → file.code[k]? = some j.toScriptLine →
      JumpLineWorks us path file k test j u ccb rsp := by
  intro h
  exact not_jumpLineWorks (h (fun _ => plainUnspec) [] tailJneFile 0 .tailJne tailJneLine
    plainUnspec (plainCcb 7 2) emptyFragment tailJneFile_loadable rfl)

end TsmVm
