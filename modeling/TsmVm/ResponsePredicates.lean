import TsmVm.ResponseTests
import TsmVm.Substrings

/-!
# Questions to the first fragment and to the environment

`rsp_is_scp02_ok` compares two variables up to the length of one of them. Three
more bytecodes ask the first fragment of a response: whether an AID occurs in it,
whether the data of a personalized application are zero, and whether the card is
active. They walk over the fragment without asking how long it is.
-/

namespace TsmVm

/-- One operand, the address to jump to. -/
structure JumpOperand extends FmBytesArray where
  /-- The address. -/
  target : HeapBytes
  /-- Slots not in use. -/
  spare : ℕ
  /-- It is in the first slot. -/
  array_eq : array = some target.toFmBytes :: List.replicate spare none

theorem JumpOperand.at_zero (arg : JumpOperand) : arg.at 0 = .ok (some arg.target.toFmBytes) := by
  simp [FmBytesArray.at, arg.array_eq]

/-! ## The cryptograms -/

/-- An environment whose values are byte strings. -/
structure ValidBre where
  /-- The table. -/
  bre : Bre
  /-- Whatever it holds besides `NULL` is a byte string. -/
  valid : ∀ e ∈ bre, ∀ p, e.value = some p → p.Valid

/-- The value of a variable. -/
def ValidBre.value (env : ValidBre) (name : String) : Option FmBytes :=
  env.bre.lookup (literal name)

theorem ValidBre.value_valid (env : ValidBre) {name : String} {p : FmBytes}
    (h : env.value name = some p) : p.Valid := by
  unfold ValidBre.value Bre.lookup at h
  obtain ⟨e, he, hp⟩ := Option.bind_eq_some_iff.mp h
  exact env.valid e (List.mem_of_find?_eq_some he) p hp

/-- The two cryptograms are bound to the same bytes, of which there are some. -/
def ValidBre.cryptogramsAgree (env : ValidBre) : Bool :=
  match env.value "card cryptogram", env.value "calc cryptogram" with
  | some card, some calculated => card.content == calculated.content && calculated.content != []
  | _, _ => false

/-- The card passes when the cryptograms agree, and only then. -/
def ChecksCryptograms (env : ValidBre) (arg : JumpOperand) : Prop :=
  ∀ (u : Unspec) (ccb : Ccb) (rsp : Ptr FmBytesArray), ccb.bre = env.bre → ∃ addr,
    fmBytes2intBE (u.word 0) (some arg.target.toFmBytes) = .ok addr ∧
    rspIsScp02Ok u ccb rsp arg.toFmBytesArray =
      .ok (0, jumpTo ccb (if env.cryptogramsAgree = false then some addr else none))

/-- Reading a variable. -/
theorem ValidBre.get (env : ValidBre) {ccb : Ccb} (hbre : ccb.bre = env.bre) {name : String}
    (hname : ∀ b ∈ literal name, b ≠ 0) :
    dataGetByLiteral ccb name =
      if env.bre.sound then .ok (env.value name) else .error .wildAccess := by
  unfold dataGetByLiteral dataGetByName
  rw [cString_terminated hname, ok_bind, zcHashtableGet, hbre]
  rfl

/-- What `rsp_is_scp02_ok` computes in a table that can be read. -/
theorem rspIsScp02OkTarget_eq (env : ValidBre) (arg : JumpOperand) {u : Unspec} {ccb : Ccb}
    (hbre : ccb.bre = env.bre) (hsound : env.bre.sound = true) {addr : ℤ}
    (haddr : fmBytes2intBE (u.word 0) (some arg.target.toFmBytes) = .ok addr) :
    rspIsScp02OkTarget u ccb arg.toFmBytesArray =
      match env.value "calc cryptogram" with
      | none => .error .nullDeref
      | some calculated => .ok (if (env.value "card cryptogram").any
          (fun card => calculated.content.isPrefixOf card.content) = false then some addr
        else none) := by
  unfold rspIsScp02OkTarget
  rw [arg.at_zero, ok_bind, env.get hbre (by simp [literal]), env.get hbre (by simp [literal]),
    if_pos hsound, if_pos hsound, ok_bind, ok_bind, haddr, ok_bind]
  cases hcalc : env.value "calc cryptogram" with
  | none => rfl
  | some calculated =>
    cases hcard : env.value "card cryptogram" with
    | none => rfl
    | some card =>
      change (fmBytesCompare (some card) 0 (some calculated) 0 calculated.leng >>= _) = _
      rw [compare_head (env.value_valid hcard) (env.value_valid hcalc), ok_bind]
      cases hstarts : calculated.content.isPrefixOf card.content <;> simp [hstarts]

/-- Where the calculated cryptogram is bound, the comparison is that of the whole
cryptograms exactly when no other one than the card's, or an empty one, starts it. -/
theorem ValidBre.comparison_eq_iff (env : ValidBre) {calculated : FmBytes}
    (hcalc : env.value "calc cryptogram" = some calculated) :
    (env.value "card cryptogram").any (fun card => calculated.content.isPrefixOf card.content) =
        env.cryptogramsAgree ↔
      ∀ card, env.value "card cryptogram" = some card → calculated.content <+: card.content →
        card.content = calculated.content ∧ calculated.content ≠ [] := by
  unfold ValidBre.cryptogramsAgree
  rw [hcalc]
  cases hcard : env.value "card cryptogram" with
  | none => simp
  | some card =>
    simp only [Option.any_some, Option.some.injEq, forall_eq']
    by_cases hstarts : calculated.content <+: card.content
    · have htrue := List.isPrefixOf_iff_prefix.mpr hstarts
      simp [htrue, hstarts]
    · have hfalse : calculated.content.isPrefixOf card.content = false := by
        rwa [← Bool.not_eq_true, List.isPrefixOf_iff_prefix]
      have hne : card.content ≠ calculated.content := fun h => hstarts (h ▸ List.prefix_rfl)
      simp [hfalse, hstarts, hne]

/-- **The check of the cryptograms.** It is right where the calculated one is
bound, and no other, shorter or empty one than the card's starts it. -/
theorem checksCryptograms_iff (env : ValidBre) (arg : JumpOperand) :
    ChecksCryptograms env arg ↔ env.bre.sound = true ∧
      ∃ calculated, env.value "calc cryptogram" = some calculated ∧
        ∀ card, env.value "card cryptogram" = some card →
          calculated.content <+: card.content →
            card.content = calculated.content ∧ calculated.content ≠ [] := by
  constructor
  · intro h
    obtain ⟨addr, haddr⟩ := arg.target.int_ok 0
    obtain ⟨addr', haddr', hrun⟩ :=
      h plainUnspec { beyond addr with bre := env.bre } .null rfl
    obtain rfl : addr = addr' := Except.ok.inj (haddr.symm.trans haddr')
    unfold rspIsScp02Ok at hrun
    have hsound : env.bre.sound = true := by
      by_contra hwild
      unfold rspIsScp02OkTarget at hrun
      rw [arg.at_zero, ok_bind, env.get rfl (by simp [literal]), if_neg hwild] at hrun
      cases hrun
    rw [rspIsScp02OkTarget_eq env arg rfl hsound haddr] at hrun
    cases hcalc : env.value "calc cryptogram" with
    | none =>
      rw [hcalc] at hrun
      cases hrun
    | some calculated =>
      rw [hcalc] at hrun
      have hccb := congrArg Prod.snd (Except.ok.inj hrun)
      have hpc : ({ beyond addr with bre := env.bre } : Ccb).pc ≠ addr := beyond_pc addr
      have hiff := jumpTo_shows hpc hccb
      refine ⟨hsound, calculated, rfl, (env.comparison_eq_iff hcalc).mp ?_⟩
      simpa only [← Bool.not_eq_true, not_iff_not, ← Bool.eq_iff_iff] using hiff
  · rintro ⟨hsound, calculated, hcalc, hgood⟩ u ccb rsp hbre
    obtain ⟨addr, haddr⟩ := arg.target.int_ok (u.word 0)
    refine ⟨addr, haddr, ?_⟩
    unfold rspIsScp02Ok
    rw [rspIsScp02OkTarget_eq env arg hbre hsound haddr, hcalc]
    dsimp only
    rw [(env.comparison_eq_iff hcalc).mpr hgood]
    rfl

/-- A card's cryptogram of one byte, and a calculated one that was left empty. -/
def emptyCalculated : ValidBre :=
  { bre := [⟨⟨literal "card cryptogram", none⟩, some ⟨1, 1, 1, [0x2A]⟩, false⟩,
      ⟨⟨literal "calc cryptogram", none⟩, some ⟨1, 0, 2, [0]⟩, false⟩],
    valid := by
      intro e he p hp
      simp only [List.mem_cons, List.not_mem_nil, or_false] at he
      rcases he with rfl | rfl
      · obtain rfl := Option.some.inj hp
        exact ⟨by decide, by decide, by decide⟩
      · obtain rfl := Option.some.inj hp
        exact ⟨by decide, by decide, by decide⟩ }

/-- A jump to entry 4. -/
def toEntryFour : JumpOperand :=
  { addr := 5, size := 5, cnt := 1, array := some entryFour.toFmBytes :: List.replicate 4 none,
    target := entryFour, spare := 4, array_eq := rfl }

/-- The card passes although no cryptogram was calculated. -/
theorem checksCryptograms_fail : ¬ ∀ (env : ValidBre) (arg : JumpOperand),
    ChecksCryptograms env arg := by
  intro h
  obtain ⟨addr, haddr, hrun⟩ := h emptyCalculated toEntryFour plainUnspec
    { plainCcb 7 2 with bre := emptyCalculated.bre } .null rfl
  obtain rfl : 4 = addr := Except.ok.inj haddr
  have hpc := congrArg (fun r => r.2.pc) (Except.ok.inj hrun)
  revert hpc
  decide +kernel

/-! ## The first fragment -/

/-- The number of bytes in front of the data of a response: a tag, a length of
one byte or of three, and another tag, its length and a number. -/
def headerLength (bytes : List UInt8) : ℕ := if bytes[1]? = some 0xFF then 7 else 5

/-- The response does not hold its header and a status word. -/
def TooShort (bytes : List UInt8) : Prop := bytes.length < headerLength bytes + 2

instance : DecidablePred TooShort := fun bytes =>
  inferInstanceAs (Decidable (bytes.length < headerLength bytes + 2))

/-- The three bytecodes stay inside the first fragment: none of them faults, and
a fragment that is too short is not taken for the data of an application. -/
structure StaysInside (rsp : ResponseArray) (aid : TestOperands) (arg : JumpOperand) : Prop where
  /-- The search for the AID. -/
  app_exsit : ∀ u ccb, ∃ r,
    rspIsAppExsitJe u ccb (.obj rsp.toFmBytesArray) aid.toFmBytesArray = .ok r
  /-- The look at the data. -/
  personalized : ∀ u ccb, ∃ r,
    rspIsPersonalizedJe u ccb (.obj rsp.toFmBytesArray) arg.toFmBytesArray = .ok r
  /-- The search for the answer of an inactive card. -/
  card_active : ∀ u ccb, ∃ r,
    rspIsCardActiveJe u ccb (.obj rsp.toFmBytesArray) arg.toFmBytesArray = .ok r
  /-- There are no data in a short fragment. -/
  too_short : ∀ first, rsp.bytes[0]? = some first → TooShort first → ∀ u ccb,
    rspIsPersonalizedJe u ccb (.obj rsp.toFmBytesArray) arg.toFmBytesArray = .ok (0, ccb)

/-- A text in which a pattern is found, or missed, without a look behind it. -/
def Searches (sub str : List UInt8) : Prop := sub <:+: str ∨ ¬ EndsInside sub str

/-- Without a fragment there is nothing to ask. -/
theorem ResponseArray.at_zero_empty {rsp : ResponseArray} (h : rsp.fragments = []) :
    rsp.at 0 = .error .outOfBounds ∨ rsp.at 0 = .ok none := by
  have harray := rsp.array_eq
  unfold FmBytesArray.at
  rw [if_neg (by omega), harray, h]
  cases rsp.spare with
  | zero => exact .inl rfl
  | succ n => exact .inr rfl

/-- A region of the memory can be tested for zeros. -/
theorem isAllZeroLoop_ok {mem : List UInt8} {n i : ℕ} (h : i + n ≤ mem.length) :
    ∃ zero, isAllZeroLoop mem n i = .ok zero := by
  induction n generalizing i with
  | zero => exact ⟨true, rfl⟩
  | succ n ih =>
    obtain ⟨b, hb⟩ : ∃ b, byteAt mem i = .ok b := exists_byteAt (by omega)
    rw [isAllZeroLoop, hb, ok_bind]
    split
    · exact ⟨false, rfl⟩
    · have hrest : i + 1 + n ≤ mem.length := by omega
      exact ih hrest

section Predicates

variable {rsp : ResponseArray} {u : Unspec} {addr : ℤ}

/-- What `rsp_is_personalized_je` computes on a first fragment. -/
theorem rspIsPersonalizedJeTarget_eq {f : HeapBytes} {fragments : List HeapBytes}
    (hrsp : rsp.fragments = f :: fragments) (arg : JumpOperand)
    (haddr : fmBytes2intBE (u.word 0) (some arg.target.toFmBytes) = .ok addr) :
    if f.buf.length < 2 then
      rspIsPersonalizedJeTarget u (.obj rsp.toFmBytesArray) arg.toFmBytesArray =
        .error .outOfBounds
    else ∃ zero, rspIsPersonalizedJeTarget u (.obj rsp.toFmBytesArray) arg.toFmBytesArray =
        .ok (if zero = true then some addr else none) ∧ (TooShort f.buf → zero = true) := by
  have hat : rsp.at 0 = .ok (some f.toFmBytes) := rsp.at_first hrsp
  have hleng := f.leng_eq
  have hstart : rspIsPersonalizedJeTarget u (.obj rsp.toFmBytesArray) arg.toFmBytesArray = do
      let lead ← byteAt f.buf (1 : ℕ)
      let p : ℤ := (if lead = 0xFF then 4 else 2) + 3
      let zero ← isAllZero f.buf p (f.leng - p - 2)
      return if zero then some addr else none := by
    unfold rspIsPersonalizedJeTarget
    rw [arg.at_zero, ok_bind, Ptr.deref, ok_bind, hat, ok_bind, haddr, ok_bind]
    rfl
  rw [hstart]
  split
  · rw [byteAt_end (by omega), error_bind]
  · have hget : f.buf[1]? = some f.buf[1] := List.getElem?_eq_getElem (by omega)
    rw [byteAt_natCast hget, ok_bind]
    -- the pointer stands behind the header
    have hp : (if f.buf[1] = 0xFF then 4 else 2 : ℤ) + 3 = (headerLength f.buf : ℕ) := by
      unfold headerLength
      rw [hget]
      by_cases hff : f.buf[1] = 0xFF <;> simp [hff]
    dsimp only
    rw [hp]
    unfold isAllZero
    by_cases hshort : TooShort f.buf
    · have hnone : (f.leng - (headerLength f.buf : ℕ) - 2).toNat = 0 := by
        unfold TooShort at hshort
        omega
      rw [hnone]
      exact ⟨true, rfl, fun _ => rfl⟩
    · unfold TooShort at hshort
      have hinside : headerLength f.buf + (f.leng - (headerLength f.buf : ℕ) - 2).toNat ≤
          f.buf.length := by omega
      obtain ⟨zero, hzero⟩ := isAllZeroLoop_ok hinside
      exact ⟨zero, by rw [hzero, ok_bind]; rfl, fun h => absurd h hshort⟩

/-- `rsp_is_app_exsit_je` is a search of the first fragment. -/
theorem rspIsAppExsitJe_ok_iff {f : HeapBytes} {fragments : List HeapBytes}
    (hrsp : rsp.fragments = f :: fragments) (aid : TestOperands) (ccb : Ccb) :
    (∃ r, rspIsAppExsitJe u ccb (.obj rsp.toFmBytesArray) aid.toFmBytesArray = .ok r) ↔
      f.buf = [] ∨ aid.expected.buf ≠ [] ∧ Searches aid.expected.buf f.buf := by
  obtain ⟨addr, haddr⟩ := aid.target.int_ok (u.word 0)
  have hat : rsp.at 0 = .ok (some f.toFmBytes) := rsp.at_first hrsp
  have htarget : rspIsAppExsitJeTarget u (.obj rsp.toFmBytesArray) aid.toFmBytesArray = do
      let found ← fmStrstr f.buf f.leng aid.expected.buf aid.expected.leng
      return if found.isSome then some addr else none := by
    unfold rspIsAppExsitJeTarget
    rw [aid.at_zero, ok_bind, aid.at_one, ok_bind, Ptr.deref, ok_bind, hat, ok_bind]
    change (fmBytes2intBE _ _ >>= _) = _
    rw [haddr]
    rfl
  unfold rspIsAppExsitJe Searches
  rw [htarget, f.leng_eq, aid.expected.leng_eq, ← fmStrstr_ok_iff]
  cases fmStrstr f.buf f.buf.length aid.expected.buf aid.expected.buf.length <;> simp

/-- `rsp_is_card_active_je` is a search of the first fragment. -/
theorem rspIsCardActiveJe_ok_iff {f : HeapBytes} {fragments : List HeapBytes}
    (hrsp : rsp.fragments = f :: fragments) (arg : JumpOperand) (ccb : Ccb) :
    (∃ r, rspIsCardActiveJe u ccb (.obj rsp.toFmBytesArray) arg.toFmBytesArray = .ok r) ↔
      f.buf = [] ∨ Searches [0x66, 0x10] f.buf := by
  obtain ⟨addr, haddr⟩ := arg.target.int_ok (u.word 0)
  have hat : rsp.at 0 = .ok (some f.toFmBytes) := rsp.at_first hrsp
  have htarget : rspIsCardActiveJeTarget u (.obj rsp.toFmBytesArray) arg.toFmBytesArray = do
      let found ← fmStrstr f.buf f.leng [0x66, 0x10] 2
      return if found.isNone then some addr else none := by
    unfold rspIsCardActiveJeTarget
    rw [arg.at_zero, ok_bind, Ptr.deref, ok_bind, hat, ok_bind, haddr]
    rfl
  have hsearch := fmStrstr_ok_iff f.buf [0x66, 0x10]
  unfold rspIsCardActiveJe Searches
  rw [htarget, f.leng_eq]
  simp only [ne_eq, reduceCtorEq, not_false_eq_true, true_and] at hsearch
  rw [← hsearch]
  change _ ↔ ∃ r, fmStrstr f.buf f.buf.length [0x66, 0x10] 2 = .ok r
  cases fmStrstr f.buf f.buf.length [0x66, 0x10] 2 <;> simp

/-- Without a fragment they do not. -/
theorem not_staysInside_of_nil (hrsp : rsp.fragments = []) (aid : TestOperands)
    (arg : JumpOperand) : ¬ StaysInside rsp aid arg := by
  intro h
  obtain ⟨addr, haddr⟩ := arg.target.int_ok (plainUnspec.word 0)
  obtain ⟨r, hr⟩ := h.card_active plainUnspec (plainCcb 7 2)
  unfold rspIsCardActiveJe rspIsCardActiveJeTarget at hr
  rw [arg.at_zero, ok_bind, Ptr.deref, ok_bind] at hr
  rcases ResponseArray.at_zero_empty hrsp with hat | hat
  · rw [hat] at hr
    cases hr
  · rw [hat, ok_bind, haddr, ok_bind] at hr
    cases hr

/-- A fragment that is too short is left, or taken for data. -/
theorem StaysInside.not_tooShort {f : HeapBytes} {fragments : List HeapBytes} {aid : TestOperands}
    {arg : JumpOperand} (h : StaysInside rsp aid arg) (hrsp : rsp.fragments = f :: fragments) :
    ¬ TooShort f.buf := by
  intro hshort
  have hfirst : rsp.bytes[0]? = some f.buf := by
    rw [ResponseArray.bytes, hrsp, List.map_cons, List.getElem?_cons_zero]
  obtain ⟨addr, haddr⟩ := arg.target.int_ok (plainUnspec.word 0)
  have hrun := h.too_short f.buf hfirst hshort plainUnspec (beyond addr)
  have htarget := rspIsPersonalizedJeTarget_eq hrsp arg haddr
  unfold rspIsPersonalizedJe at hrun
  split at htarget
  · rw [htarget] at hrun
    cases hrun
  · obtain ⟨zero, hok, hzero⟩ := htarget
    rw [hok, hzero hshort] at hrun
    have hpc := congrArg (fun r => r.2.pc) (Except.ok.inj hrun)
    exact beyond_pc addr hpc.symm

/-- A fragment that is long enough can be asked for its data. -/
theorem rspIsPersonalizedJe_ok {f : HeapBytes} {fragments : List HeapBytes}
    (hrsp : rsp.fragments = f :: fragments) (htwo : 2 ≤ f.buf.length) (arg : JumpOperand)
    (ccb : Ccb) :
    ∃ r, rspIsPersonalizedJe u ccb (.obj rsp.toFmBytesArray) arg.toFmBytesArray = .ok r := by
  obtain ⟨addr, haddr⟩ := arg.target.int_ok (u.word 0)
  have htarget := rspIsPersonalizedJeTarget_eq hrsp arg haddr
  rw [if_neg (Nat.not_lt.mpr htwo)] at htarget
  obtain ⟨zero, hok, -⟩ := htarget
  unfold rspIsPersonalizedJe
  rw [hok]
  exact ⟨_, rfl⟩

end Predicates

/-- **The predicates stay inside the first fragment** if there is one that holds
its header and a status word, an AID to look for, and the fragment breaks off
neither inside the AID nor inside the answer of an inactive card. -/
theorem staysInside_iff (rsp : ResponseArray) (aid : TestOperands) (arg : JumpOperand) :
    StaysInside rsp aid arg ↔ ∃ first rest, rsp.bytes = first :: rest ∧ ¬ TooShort first ∧
      aid.expected.buf ≠ [] ∧ Searches aid.expected.buf first ∧ Searches [0x66, 0x10] first := by
  cases hrsp : rsp.fragments with
  | nil =>
    have hbytes : rsp.bytes = [] := by rw [ResponseArray.bytes, hrsp, List.map_nil]
    exact iff_of_false (not_staysInside_of_nil hrsp aid arg) (by simp [hbytes])
  | cons f fragments =>
    have hbytes : rsp.bytes = f.buf :: fragments.map fun f => f.buf := by
      rw [ResponseArray.bytes, hrsp, List.map_cons]
    have htwo : ¬ TooShort f.buf → 2 ≤ f.buf.length := by
      unfold TooShort
      omega
    constructor
    · intro h
      have hheader := h.not_tooShort hrsp
      have hne : f.buf ≠ [] := by
        apply List.length_pos_iff.mp
        exact Nat.zero_lt_of_lt (htwo hheader)
      have haid := (rspIsAppExsitJe_ok_iff hrsp aid (plainCcb 7 2)).mp
        (h.app_exsit plainUnspec (plainCcb 7 2))
      have hcard := (rspIsCardActiveJe_ok_iff hrsp arg (plainCcb 7 2)).mp
        (h.card_active plainUnspec (plainCcb 7 2))
      obtain ⟨haidNe, haid⟩ := haid.resolve_left hne
      exact ⟨f.buf, _, hbytes, hheader, haidNe, haid, hcard.resolve_left hne⟩
    · rintro ⟨first, rest, heq, hheader, haidNe, haid, hcard⟩
      obtain ⟨rfl, -⟩ : f.buf = first ∧ _ = rest := List.cons.inj (hbytes.symm.trans heq)
      refine ⟨fun u ccb => ?_, fun u ccb => ?_, fun u ccb => ?_, ?_⟩
      · exact (rspIsAppExsitJe_ok_iff hrsp aid ccb).mpr (.inr ⟨haidNe, haid⟩)
      · exact rspIsPersonalizedJe_ok hrsp (htwo hheader) arg ccb
      · exact (rspIsCardActiveJe_ok_iff hrsp arg ccb).mpr (.inr hcard)
      · intro first hget hshort
        rw [hbytes, List.getElem?_cons_zero] at hget
        obtain rfl : f.buf = first := Option.some.inj hget
        exact absurd hshort hheader

/-- The AID `A0`, and a jump to entry 4. -/
def someAid : TestOperands := loadedOperands ⟨⟨1, 1, 6, [0xA0]⟩, rfl, by decide⟩ entryFour

/-- A status word without data is taken for the data of an application. -/
theorem staysInside_fail : ¬ ∀ (rsp : ResponseArray) (aid : TestOperands) (arg : JumpOperand),
    StaysInside rsp aid arg := by
  intro h
  have hrun := (h goodStatus someAid toEntryFour).too_short [0x90, 0x00] rfl (by decide)
    plainUnspec (plainCcb 7 2)
  have hpc := congrArg (fun r => r.2.pc) (Except.ok.inj hrun)
  cases hpc

end TsmVm
