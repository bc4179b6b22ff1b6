import TsmVm.JumpOperands

/-!
# The four tests on responses

The tests compare an end of every fragment with the expected bytes. The names say
when they jump: `je` when all fragments agree, `jne` when not all of them do. Two
of them jump the other way round, the two that look at the tail leave a fragment
that is too short, and all of them ask for the capacity of the operand array
where they mean the number of operands.
-/

namespace TsmVm

/-- The response to a test: an array of fragments, the slots behind which are
`NULL`. -/
structure ResponseArray extends FmBytesArray where
  /-- The fragments. -/
  fragments : List HeapBytes
  /-- Slots not in use. -/
  spare : ℕ
  /-- Every fragment has its slot. -/
  array_eq : array = fragments.map (some ·.toFmBytes) ++ List.replicate spare none
  /-- The fragments are counted. -/
  cnt_eq : cnt = fragments.length

/-- Two operands, in an array of any capacity. -/
structure TestOperands extends FmBytesArray where
  /-- The bytes to look for. -/
  expected : HeapBytes
  /-- The address to jump to. -/
  target : HeapBytes
  /-- Slots not in use. -/
  spare : ℕ
  /-- They are in the first two slots. -/
  array_eq : array = [some expected.toFmBytes, some target.toFmBytes] ++
    List.replicate spare none
  /-- They are counted. -/
  cnt_eq : cnt = 2

/-- The fragments of a response, as bytes. -/
def ResponseArray.bytes (rsp : ResponseArray) : List (List UInt8) :=
  rsp.fragments.map fun f => f.buf

/-- The bytecode jumps when all fragments agree, not when one does not. -/
def JumpTest.jumpsOnEqual : JumpTest → Bool
  | .tailJe | .headJe => true
  | .tailJne | .headJne => false

/-- The bytecode looks at the last bytes of the fragments. -/
def JumpTest.looksAtTail : JumpTest → Bool
  | .tailJe | .tailJne => true
  | .headJe | .headJne => false

/-- Whether a test of a response is to jump. -/
def JumpTest.shouldJump (test : JumpTest) (expected : List UInt8)
    (fragments : List (List UInt8)) : Bool :=
  fragments.all (test.matchesFragment expected) == test.jumpsOnEqual

/-- The test branches as its name says, in every session, and changes nothing but
the program counter. -/
def BranchesAsNamed (test : JumpTest) (rsp : ResponseArray) (arg : TestOperands) : Prop :=
  ∀ (u : Unspec) (ccb : Ccb), ∃ (ret addr : ℤ),
    fmBytes2intBE (u.word 0) (some arg.target.toFmBytes) = .ok addr ∧
    test.bytecode.call u ccb (.obj rsp.toFmBytesArray) arg.toFmBytesArray =
      .ok (ret, jumpTo ccb
        (if test.shouldJump arg.expected.buf rsp.bytes then some addr else none))

/-- No fragment up to the first one with another tail is shorter than the
expected bytes. -/
def LongEnough (expected : List UInt8) : List (List UInt8) → Prop
  | [] => True
  | f :: fragments => expected.length ≤ f.length ∧ (expected <:+ f → LongEnough expected fragments)

instance (expected : List UInt8) : DecidablePred (LongEnough expected) := fun fragments => by
  induction fragments with
  | nil => exact .isTrue trivial
  | cons f fragments ih => exact inferInstanceAs (Decidable (_ ∧ (_ → _)))

/-! ## Reading the operands -/

theorem ResponseArray.at_fragment (rsp : ResponseArray) {i : ℕ} {f : HeapBytes}
    (h : rsp.fragments[i]? = some f) : rsp.at i = .ok (some f.toFmBytes) := by
  have hi : i < rsp.fragments.length := (List.getElem?_eq_some_iff.mp h).1
  unfold FmBytesArray.at
  rw [if_neg (by omega), Int.toNat_natCast, rsp.array_eq,
    List.getElem?_append_left (by rw [List.length_map]; exact hi), List.getElem?_map, h]
  rfl

theorem ResponseArray.at_first (rsp : ResponseArray) {f : HeapBytes} {fragments : List HeapBytes}
    (h : rsp.fragments = f :: fragments) : rsp.at 0 = .ok (some f.toFmBytes) := by
  have hget : rsp.fragments[0]? = some f := by rw [h, List.getElem?_cons_zero]
  exact rsp.at_fragment hget

theorem TestOperands.at_zero (arg : TestOperands) :
    arg.at 0 = .ok (some arg.expected.toFmBytes) := by
  simp [FmBytesArray.at, arg.array_eq]

theorem TestOperands.at_one (arg : TestOperands) : arg.at 1 = .ok (some arg.target.toFmBytes) := by
  simp [FmBytesArray.at, arg.array_eq]

/-! ## Comparing one fragment -/

/-- The comparison with the first bytes of a byte string. -/
theorem compare_head {f e : FmBytes} (hf : f.Valid) (he : e.Valid) :
    fmBytesCompare (some f) 0 (some e) 0 e.leng = .ok (e.content.isPrefixOf f.content) := by
  obtain ⟨hf₀, hf₁, hfaddr⟩ := hf
  obtain ⟨he₀, he₁, headdr⟩ := he
  have hflen : f.content.length = f.leng.toNat := by
    rw [FmBytes.content, List.length_take]
    omega
  have helen : e.content.length = e.leng.toNat := by
    rw [FmBytes.content, List.length_take]
    omega
  unfold fmBytesCompare
  dsimp only
  rw [if_neg (not_or.mpr ⟨hfaddr, headdr⟩)]
  by_cases hshort : f.leng < e.leng
  · have hfalse : e.content.isPrefixOf f.content = false := by
      rw [← Bool.not_eq_true, List.isPrefixOf_iff_prefix]
      intro h
      have := h.length_le
      omega
    rw [if_pos (by omega), hfalse]
  · have hleng : e.leng = (e.leng.toNat : ℕ) := by omega
    have hread : ∀ p : FmBytes, e.leng.toNat ≤ p.buf.length →
        memRead p.buf 0 e.leng = .ok (p.buf.take e.leng.toNat) := fun p hp => by
      rw [hleng, memRead_front hp, Int.toNat_natCast]
    have htake : f.buf.take e.leng.toNat = f.content.take e.content.length := by
      rw [helen, FmBytes.content, List.take_take]
      congr 1
      omega
    rw [if_neg (by omega), hread f (by omega), hread e (by omega), ok_bind, ok_bind, pure_eq_ok,
      htake]
    congr 1
    rw [Bool.eq_iff_iff, beq_iff_eq, List.isPrefixOf_iff_prefix, List.prefix_iff_eq_take, eq_comm]
    rfl

/-- The comparison with the last bytes of a fragment leaves a short one. -/
theorem compare_tail (f e : HeapBytes) :
    fmBytesCompare (some f.toFmBytes) (f.leng - e.leng) (some e.toFmBytes) 0 e.leng =
      if e.buf.length ≤ f.buf.length then .ok (e.buf.isSuffixOf f.buf)
      else .error .outOfBounds := by
  have hf := f.leng_eq
  have he := e.leng_eq
  unfold fmBytesCompare
  dsimp only
  rw [if_neg (not_or.mpr ⟨f.addr_ne_zero, e.addr_ne_zero⟩), if_neg (by omega)]
  by_cases hlong : e.buf.length ≤ f.buf.length
  · have hoffset : f.leng - e.leng = ((f.buf.length - e.buf.length : ℕ) : ℤ) := by omega
    have hrest : e.buf.length ≤ (f.buf.drop (f.buf.length - e.buf.length)).length := by
      rw [List.length_drop]
      omega
    rw [if_pos hlong, hoffset, he, memRead_natCast, if_pos hrest, ok_bind, memRead_front le_rfl,
      ok_bind, pure_eq_ok, List.take_length,
      List.take_of_length_le (by rw [List.length_drop]; omega)]
    congr 1
    rw [Bool.eq_iff_iff, beq_iff_eq, List.isSuffixOf_iff_suffix, List.suffix_iff_eq_drop, eq_comm]
  · have hread : memRead f.buf (f.leng - e.leng) e.leng = .error .outOfBounds := by
      unfold memRead
      rw [if_neg (by omega), if_neg (by omega)]
    rw [if_neg hlong, hread, error_bind]

/-! ## Comparing all of them -/

/-- The next fragment, and those behind it. -/
theorem ResponseArray.next_fragment (rsp : ResponseArray) {i : ℕ} {f : HeapBytes}
    {fragments : List HeapBytes} (h : rsp.fragments.drop i = f :: fragments) :
    rsp.at i = .ok (some f.toFmBytes) ∧ rsp.fragments.drop (i + 1) = fragments := by
  obtain ⟨hf, hrest⟩ := next_of_drop h
  exact ⟨rsp.at_fragment hf, hrest⟩

theorem _rspTestHeadLoop_eq (rsp : ResponseArray) (e : HeapBytes) {i : ℕ}
    {fragments : List HeapBytes} (h : rsp.fragments.drop i = fragments) :
    _rspTestHeadLoop rsp.toFmBytesArray (some e.toFmBytes) fragments.length i =
      .ok (fragments.all fun f => e.buf.isPrefixOf f.buf) := by
  induction fragments generalizing i with
  | nil => rfl
  | cons f fragments ih =>
    obtain ⟨hat, hrest⟩ := rsp.next_fragment h
    rw [List.length_cons, _rspTestHeadLoop, hat, ok_bind]
    change (fmBytesCompare _ _ _ _ e.leng >>= _) = _
    rw [compare_head f.valid e.valid, ok_bind, List.all_cons, f.content_eq, e.content_eq]
    cases e.buf.isPrefixOf f.buf with
    | false => simp
    | true => simpa using ih hrest

theorem _rspTestTailLoop_eq (rsp : ResponseArray) (e : HeapBytes) {i : ℕ}
    {fragments : List HeapBytes} (h : rsp.fragments.drop i = fragments) :
    _rspTestTailLoop rsp.toFmBytesArray (some e.toFmBytes) fragments.length i =
      if LongEnough e.buf (fragments.map fun f => f.buf) then
        .ok (fragments.all fun f => e.buf.isSuffixOf f.buf)
      else .error .outOfBounds := by
  induction fragments generalizing i with
  | nil => rfl
  | cons f fragments ih =>
    obtain ⟨hat, hrest⟩ := rsp.next_fragment h
    rw [List.length_cons, _rspTestTailLoop, hat, ok_bind]
    change (fmBytesCompare _ (f.leng - e.leng) _ _ e.leng >>= _) = _
    rw [compare_tail, List.map_cons]
    by_cases hlong : e.buf.length ≤ f.buf.length
    · rw [if_pos hlong, ok_bind, List.all_cons]
      by_cases hsuffix : e.buf <:+ f.buf
      · have htrue : e.buf.isSuffixOf f.buf = true := List.isSuffixOf_iff_suffix.mpr hsuffix
        have hiff : LongEnough e.buf (f.buf :: fragments.map fun f => f.buf) ↔
            LongEnough e.buf (fragments.map fun f => f.buf) :=
          ⟨fun h => h.2 hsuffix, fun h => ⟨hlong, fun _ => h⟩⟩
        simp only [htrue, Bool.true_and, hiff]
        simpa using ih hrest
      · have hfalse : e.buf.isSuffixOf f.buf = false := by
          rwa [← Bool.not_eq_true, List.isSuffixOf_iff_suffix]
        have hstop : LongEnough e.buf (f.buf :: fragments.map fun f => f.buf) :=
          ⟨hlong, fun h => absurd h hsuffix⟩
        rw [if_pos hstop, hfalse]
        rfl
    · have hstop : ¬ LongEnough e.buf (f.buf :: fragments.map fun f => f.buf) :=
        fun h => hlong h.1
      rw [if_neg hlong, if_neg hstop, error_bind]

/-- `_rsp_test_head` tells whether every fragment starts with the bytes. -/
theorem _rspTestHead_eq (rsp : ResponseArray) (e : HeapBytes) :
    _rspTestHead (.obj rsp.toFmBytesArray) (some e.toFmBytes) =
      .ok (rsp.bytes.all e.buf.isPrefixOf) := by
  have hcnt := rsp.cnt_eq
  unfold _rspTestHead ResponseArray.bytes
  rw [Ptr.deref, ok_bind, hcnt, Int.toNat_natCast,
    _rspTestHeadLoop_eq rsp e (List.drop_zero), List.all_map]
  rfl

/-- `_rsp_test_tail` tells whether every fragment ends with the bytes, unless it
leaves one of them. -/
theorem _rspTestTail_eq (rsp : ResponseArray) (e : HeapBytes) :
    _rspTestTail (.obj rsp.toFmBytesArray) (some e.toFmBytes) =
      if LongEnough e.buf rsp.bytes then .ok (rsp.bytes.all e.buf.isSuffixOf)
      else .error .outOfBounds := by
  have hcnt := rsp.cnt_eq
  unfold _rspTestTail ResponseArray.bytes
  rw [Ptr.deref, ok_bind, hcnt, Int.toNat_natCast,
    _rspTestTailLoop_eq rsp e (List.drop_zero), List.all_map]
  rfl

/-! ## The bytecodes -/

/-- The helper a test calls. -/
def JumpTest.helper : JumpTest → Ptr FmBytesArray → Option FmBytes → Res Bool
  | .tailJne | .tailJe => _rspTestTail
  | .headJne | .headJe => _rspTestHead

/-- The result of the helper on which a test jumps. -/
def JumpTest.jumpOn : JumpTest → Bool
  | .tailJe | .headJne => true
  | .tailJne | .headJe => false

theorem JumpTest.call_eq (test : JumpTest) :
    test.bytecode.call = rspTest test.helper test.jumpOn := by
  cases test <;> rfl

/-- What a test of two operands in an array of two slots comes to. -/
theorem call_of_size_two (test : JumpTest) (rsp : ResponseArray) (arg : TestOperands)
    (hsize : arg.size = 2) (u : Unspec) (ccb : Ccb) {addr : ℤ}
    (haddr : fmBytes2intBE (u.word 0) (some arg.target.toFmBytes) = .ok addr) :
    test.bytecode.call u ccb (.obj rsp.toFmBytesArray) arg.toFmBytesArray =
      if test.looksAtTail → LongEnough arg.expected.buf rsp.bytes then
        .ok (0, jumpTo ccb (if rsp.bytes.all (test.matchesFragment arg.expected.buf) = test.jumpOn
          then some addr else none))
      else .error .outOfBounds := by
  rw [test.call_eq, rspTest, if_neg (not_not.mpr hsize)]
  unfold rspTestTarget
  rw [arg.at_zero, ok_bind, arg.at_one, ok_bind, haddr, ok_bind]
  cases test with
  | headJe | headJne =>
    simp only [JumpTest.helper, _rspTestHead_eq, JumpTest.looksAtTail]
    rfl
  | tailJe | tailJne =>
    simp only [JumpTest.helper, _rspTestTail_eq, JumpTest.looksAtTail]
    by_cases hlong : LongEnough arg.expected.buf rsp.bytes
    · simp only [if_pos hlong, forall_const]
      rfl
    · simp only [if_neg hlong, forall_const]
      rfl

/-- A session whose program counter is behind an address. -/
def beyond (addr : ℤ) : Ccb := ccbSetPC (plainCcb 7 2) (addr + 1)

theorem beyond_pc (addr : ℤ) : (beyond addr).pc ≠ addr := by
  unfold beyond ccbSetPC
  dsimp only
  omega

/-- Where the program counter is not at the target a jump shows. -/
theorem jumpTo_shows {ccb : Ccb} {addr : ℤ} (hpc : ccb.pc ≠ addr) {p q : Prop} [Decidable p]
    [Decidable q] (h : jumpTo ccb (if p then some addr else none) =
      jumpTo ccb (if q then some addr else none)) : p ↔ q := by
  have hpcs := congrArg Ccb.pc h
  by_cases hp : p
  · by_cases hq : q
    · exact iff_of_true hp hq
    · rw [if_pos hp, if_neg hq] at hpcs
      exact absurd hpcs.symm hpc
  · by_cases hq : q
    · rw [if_neg hp, if_pos hq] at hpcs
      exact absurd hpcs hpc
    · exact iff_of_false hp hq

/-- The tests of the tail jump on the result their names ask for, the tests of
the head on the other one. -/
theorem JumpTest.jumpOn_iff (test : JumpTest) (result : Bool) :
    (result = test.jumpOn ↔ (result == test.jumpsOnEqual) = true) ↔ test.looksAtTail = true := by
  cases test <;> cases result <;> decide

/-- A session in which a jump shows. -/
theorem BranchesAsNamed.run {test : JumpTest} {rsp : ResponseArray} {arg : TestOperands}
    (h : BranchesAsNamed test rsp arg) : ∃ (ret addr : ℤ),
    fmBytes2intBE (plainUnspec.word 0) (some arg.target.toFmBytes) = .ok addr ∧
    test.bytecode.call plainUnspec (beyond addr) (.obj rsp.toFmBytesArray) arg.toFmBytesArray =
      .ok (ret, jumpTo (beyond addr)
        (if test.shouldJump arg.expected.buf rsp.bytes then some addr else none)) := by
  obtain ⟨addr, haddr⟩ := arg.target.int_ok (plainUnspec.word 0)
  obtain ⟨ret, addr', haddr', hcall⟩ := h plainUnspec (beyond addr)
  obtain rfl : addr = addr' := Except.ok.inj (haddr.symm.trans haddr')
  exact ⟨ret, addr, haddr, hcall⟩

/-- **The four tests.** With two slots for two operands a test branches as named
when it is one of those that look at the tail and leaves no fragment. With more
slots it never jumps, which is right as long as it is not to. -/
theorem branchesAsNamed_iff (test : JumpTest) (rsp : ResponseArray) (arg : TestOperands) :
    BranchesAsNamed test rsp arg ↔
      if arg.size = 2 then test.looksAtTail ∧ LongEnough arg.expected.buf rsp.bytes
      else test.shouldJump arg.expected.buf rsp.bytes = false := by
  by_cases hsize : arg.size = 2
  · rw [if_pos hsize]
    constructor
    · intro h
      obtain ⟨ret, addr, haddr, hcall⟩ := h.run
      rw [call_of_size_two test rsp arg hsize plainUnspec _ haddr] at hcall
      by_cases hlong : test.looksAtTail → LongEnough arg.expected.buf rsp.bytes
      · rw [if_pos hlong] at hcall
        have hccb := congrArg Prod.snd (Except.ok.inj hcall)
        have htail := (test.jumpOn_iff _).mp (jumpTo_shows (beyond_pc addr) hccb)
        exact ⟨htail, hlong htail⟩
      · rw [if_neg hlong] at hcall
        cases hcall
    · rintro ⟨htail, hlong⟩ u ccb
      obtain ⟨addr, haddr⟩ := arg.target.int_ok (u.word 0)
      refine ⟨0, addr, haddr, ?_⟩
      have hjump := (test.jumpOn_iff (rsp.bytes.all (test.matchesFragment arg.expected.buf))).mpr
        htail
      rw [call_of_size_two test rsp arg hsize u ccb haddr, if_pos fun _ => hlong]
      unfold JumpTest.shouldJump
      simp only [hjump]
  · rw [if_neg hsize]
    constructor
    · intro h
      obtain ⟨ret, addr, haddr, hcall⟩ := h.run
      rw [call_of_size_ne hsize] at hcall
      have hccb := congrArg Prod.snd (Except.ok.inj hcall)
      have hiff := jumpTo_shows (p := False) (beyond_pc addr) hccb
      simpa using hiff
    · intro hno u ccb
      obtain ⟨addr, haddr⟩ := arg.target.int_ok (u.word 0)
      refine ⟨fmGenErrInvalidParm, addr, haddr, ?_⟩
      rw [call_of_size_ne hsize, hno]
      rfl

/-- The response `90 00`. -/
def goodStatus : ResponseArray :=
  have f : HeapBytes := ⟨⟨2, 2, 1, [0x90, 0x00]⟩, rfl, by decide⟩
  { addr := 2, size := 16, cnt := 1, array := some f.toFmBytes :: List.replicate 15 none,
    fragments := [f], spare := 15, array_eq := rfl, cnt_eq := rfl }

/-- The address of entry 4, as an operand. -/
def entryFour : HeapBytes := ⟨⟨1, 1, 4, [0x04]⟩, rfl, by decide⟩

/-- Two operands as the loader stores them, in the first two of five slots. -/
def loadedOperands (expected target : HeapBytes) : TestOperands :=
  { addr := 5, size := 5, cnt := 2,
    array := [some expected.toFmBytes, some target.toFmBytes, none, none, none],
    expected := expected, target := target, spare := 3, array_eq := rfl, cnt_eq := rfl }

/-- The operands `90 00` and `04`. -/
def goodStatusOperands : TestOperands :=
  loadedOperands ⟨⟨2, 2, 3, [0x90, 0x00]⟩, rfl, by decide⟩ entryFour

/-- The response ends with `90 00`, and yet nothing jumps to entry 4. -/
theorem branches_fail : ¬ ∀ (test : JumpTest) (rsp : ResponseArray) (arg : TestOperands),
    BranchesAsNamed test rsp arg := by
  intro h
  obtain ⟨ret, addr, haddr, hcall⟩ :=
    h .tailJe goodStatus goodStatusOperands plainUnspec (plainCcb 7 2)
  obtain rfl : 4 = addr := Except.ok.inj haddr
  have hpc := congrArg (fun r => r.2.pc) (Except.ok.inj hcall)
  have hjump : JumpTest.tailJe.shouldJump goodStatusOperands.expected.buf goodStatus.bytes := rfl
  rw [if_pos hjump] at hpc
  cases hpc

end TsmVm
