import TsmVm.Router

/-!
# Reading a frame, read by read (`router_do_read`)

What `read` returns is taken as it comes: some bytes, the end of the stream or an
error, in any order. The reads of the header fields cannot succeed, as the kernel is
given a byte value for an address; so `clear_buffer` is called, and goes on until a
read returns zero. An error is not zero.
-/

namespace TsmVm

/-- What a `read` on a socket that does not block meets. -/
inductive ReadAnswer
  /-- Bytes are there, at least one. -/
  | bytes (b : UInt8) (bs : List UInt8)
  /-- The end of the stream. -/
  | eof
  /-- Nothing there yet, or a failure. -/
  | error

/-- What `read` into a buffer of `n` bytes returns and stores. -/
def ReadAnswer.read (n : ℕ) : ReadAnswer → ℤ × List UInt8
  | .bytes b bs => (((b :: bs).take n).length, (b :: bs).take n)
  | .eof => (0, [])
  | .error => (-1, [])

/-- What it returns with a byte value in place of the buffer: the kernel answers
`EFAULT` where it has bytes to store. -/
def ReadAnswer.readByteAddress (_addr : UInt8) : ReadAnswer → ℤ
  | .bytes _ _ => -1
  | .eof => 0
  | .error => -1

/-- `clear_buffer` from the `k`-th read on: the number of the next read. The first
argument bounds the rounds. -/
def clearBufferReads (answers : ℕ → ReadAnswer) : ℕ → ℕ → Res ℕ
  | 0, _ => .error .hang
  | n + 1, k =>
    if ((answers k).read 100).1 ≠ 0 then clearBufferReads answers n (k + 1) else .ok (k + 1)

/-- The first loop of `router_do_read` from field `i`, with `n` fields to go and the
`k`-th read next; no fields stand for the early `NULL`. -/
def routerFieldReads (u : Unspec) (answers : ℕ → ReadAnswer) (rounds : ℕ) :
    ℕ → ℕ → ℕ → Res (Option (List ℤ) × ℕ)
  | 0, _, k => .ok (some [], k)
  | n + 1, i, k =>
    if (answers k).readByteAddress (u.stack i) ≠ 4 then do
      let k ← clearBufferReads answers rounds (k + 1)
      return (none, k)
    else do
      let field ← atoi ([u.stack 0, u.stack 1, u.stack 2, u.stack 3] ++ u.behind 0)
      let rest ← routerFieldReads u answers rounds n (i + 1) (k + 1)
      return (rest.1.map (field :: ·), rest.2)

/-- The second loop, with the bytes received so far. What a read returns is added to
the pointer and taken off what is left, errors too. -/
def routerPayloadReads (answers : ℕ → ReadAnswer) :
    ℕ → ℕ → Skb → ℤ → ℤ → List UInt8 → Res (Skb × ℕ × List UInt8)
  | 0, k, skb, _, left, received =>
    if 0 < left then .error .hang else .ok (skb, k, received)
  | n + 1, k, skb, pos, left, received =>
    if 0 < left then do
      let got := (answers k).read left.toNat
      let buff ← memWrite skb.buff skb.buff.length pos got.2
      routerPayloadReads answers n (k + 1) { skb with buff := buff } (pos + got.1)
        (left - got.1) (received ++ got.2)
    else .ok (skb, k, received)

/-- What `router_do_read` returns, with the payload bytes received and the number of
the next read. -/
structure FrameRead where
  skb : Option Skb
  received : List UInt8
  reads : ℕ

/-- `router_do_read`, with the results of its reads. The second argument bounds the
rounds of its loops. -/
def routerFrameReads (u : Unspec) (rounds : ℕ) (answers : ℕ → ReadAnswer) (len : ℤ) :
    Res FrameRead := do
  let fields ← routerFieldReads u answers rounds 2 0 0
  match fields.1 with
  | none => return { skb := none, received := [], reads := fields.2 }
  | some field => do
    let put ← skbPut (allocSkb (u.skb 0) (u32 len)) (u32 len)
    let skb := { put.2 with
      msgType := field.getD 0 0, session := field.getD 1 0, reason := pkgReasonNormal,
      isNew := true }
    let got ← routerPayloadReads answers rounds fields.2 skb put.1 (len - 12) []
    return { skb := some got.1, received := got.2.2, reads := got.2.1 }

/-- The stream returns no bytes any more. -/
def EventuallyQuiet (answers : ℕ → ReadAnswer) : Prop :=
  ∃ n, ∀ k, n ≤ k → ((answers k).read 1).1 ≤ 0

/-- Reading a frame ends on a stream that becomes quiet, stays within the buffer, and gives
a package only of a payload that was received as a whole. -/
structure ReadsFrame (u : Unspec) (answers : ℕ → ReadAnswer) (len : ℤ) : Prop where
  /-- The call returns after some reads. -/
  returns : EventuallyQuiet answers → ∃ rounds r, routerFrameReads u rounds answers len = .ok r
  /-- It stores nothing outside the buffer. -/
  within : ∀ rounds, routerFrameReads u rounds answers len ≠ .error .outOfBounds
  /-- A package has all its bytes. -/
  complete : ∀ rounds r, routerFrameReads u rounds answers len = .ok r → r.skb ≠ none →
    len - 12 ≤ r.received.length

/-- A read returns zero only at the end of the stream. -/
theorem ReadAnswer.read_eq_zero_iff {a : ReadAnswer} {n : ℕ} (hn : 0 < n) :
    (a.read n).1 = 0 ↔ a = .eof := by
  cases a with
  | bytes b bs =>
    obtain ⟨n, rfl⟩ : ∃ m, n = m + 1 := ⟨n - 1, by omega⟩
    simp only [ReadAnswer.read, List.take_succ_cons, List.length_cons, reduceCtorEq, iff_false]
    omega
  | eof => simp [ReadAnswer.read]
  | error => simp [ReadAnswer.read]

/-- `clear_buffer` returns just where it meets the end of the stream. -/
theorem clearBufferReads_returns_iff {answers : ℕ → ReadAnswer} {k : ℕ} :
    (∃ rounds k', clearBufferReads answers rounds k = .ok k') ↔ ∃ j, k ≤ j ∧ answers j = .eof := by
  constructor
  · rintro ⟨rounds, k', h⟩
    induction rounds generalizing k with
    | zero => cases h
    | succ rounds ih =>
      rw [clearBufferReads] at h
      split at h
      · obtain ⟨j, hj, heof⟩ := ih h
        exact ⟨j, by omega, heof⟩
      · rename_i hzero
        have heof := (ReadAnswer.read_eq_zero_iff (by decide)).mp (not_not.mp hzero)
        exact ⟨k, le_refl k, heof⟩
  · rintro ⟨j, hj, heof⟩
    obtain ⟨d, rfl⟩ := Nat.exists_eq_add_of_le hj
    induction d generalizing k with
    | zero =>
      refine ⟨1, k + 1, ?_⟩
      have hzero : ((answers k).read 100).1 = 0 :=
        (ReadAnswer.read_eq_zero_iff (by decide)).mpr heof
      rw [clearBufferReads, if_neg (by simpa using hzero)]
    | succ d ih =>
      by_cases hk : answers k = .eof
      · refine ⟨1, k + 1, ?_⟩
        have hzero : ((answers k).read 100).1 = 0 :=
          (ReadAnswer.read_eq_zero_iff (by decide)).mpr hk
        rw [clearBufferReads, if_neg (by simpa using hzero)]
      · obtain ⟨rounds, k', h⟩ := ih (k := k + 1) (by omega)
          (by rw [show k + 1 + d = k + (d + 1) by omega]; exact heof)
        refine ⟨rounds + 1, k', ?_⟩
        have hnonzero : ((answers k).read 100).1 ≠ 0 := fun hzero =>
          hk ((ReadAnswer.read_eq_zero_iff (by decide)).mp hzero)
        rw [clearBufferReads, if_pos hnonzero, h]

/-- `clear_buffer` stops for no other reason than that it goes on for ever. -/
theorem clearBufferReads_error {answers : ℕ → ReadAnswer} {rounds k : ℕ} {stop : Stop}
    (h : clearBufferReads answers rounds k = .error stop) : stop = .hang := by
  induction rounds generalizing k with
  | zero => exact (Except.error.inj h).symm
  | succ rounds ih =>
    rw [clearBufferReads] at h
    split at h
    · exact ih h
    · cases h

/-- The first header field already fails. -/
theorem routerFrameReads_eq (u : Unspec) (rounds : ℕ) (answers : ℕ → ReadAnswer) (len : ℤ) :
    routerFrameReads u rounds answers len = (do
      let k ← clearBufferReads answers rounds 1
      return { skb := none, received := [], reads := k }) := by
  have hfails : (answers 0).readByteAddress (u.stack 0) ≠ 4 := by
    cases answers 0 <;> simp [ReadAnswer.readByteAddress]
  unfold routerFrameReads
  rw [routerFieldReads, if_pos hfails]
  cases clearBufferReads answers rounds (0 + 1) <;> rfl

/-- So there is no package. -/
theorem routerFrameReads_eq_ok {u : Unspec} {rounds : ℕ} {answers : ℕ → ReadAnswer} {len : ℤ}
    {r : FrameRead} (h : routerFrameReads u rounds answers len = .ok r) :
    clearBufferReads answers rounds 1 = .ok r.reads ∧ r.skb = none := by
  rw [routerFrameReads_eq] at h
  obtain ⟨k, hclear, h⟩ := bind_eq_ok.mp h
  obtain rfl := Except.ok.inj h
  exact ⟨hclear, rfl⟩

/-- Nothing is stored outside the buffer: the loop over the payload is not reached. -/
theorem routerFrameReads_within (u : Unspec) (rounds : ℕ) (answers : ℕ → ReadAnswer) (len : ℤ) :
    routerFrameReads u rounds answers len ≠ .error .outOfBounds := by
  intro hout
  rw [routerFrameReads_eq] at hout
  cases hclear : clearBufferReads answers rounds 1 with
  | error stop =>
    rw [hclear, clearBufferReads_error hclear] at hout
    cases hout
  | ok k =>
    rw [hclear] at hout
    cases hout

/-- **Reading a frame.** Whatever the length and the results, the reading is as it should
be exactly where, if the stream becomes quiet, a read after the first one returns zero. -/
theorem reads_frame_iff (u : Unspec) (answers : ℕ → ReadAnswer) (len : ℤ) :
    ReadsFrame u answers len ↔ (EventuallyQuiet answers → ∃ k, 1 ≤ k ∧ answers k = .eof) := by
  rw [← clearBufferReads_returns_iff]
  constructor
  · intro h hquiet
    obtain ⟨rounds, r, hr⟩ := h.returns hquiet
    exact ⟨rounds, r.reads, (routerFrameReads_eq_ok hr).1⟩
  · intro h
    constructor
    · intro hquiet
      obtain ⟨rounds, k, hclear⟩ := h hquiet
      refine ⟨rounds, { skb := none, received := [], reads := k }, ?_⟩
      rw [routerFrameReads_eq, hclear]
      rfl
    · exact fun rounds => routerFrameReads_within u rounds answers len
    · intro rounds r hr hsome
      exact absurd (routerFrameReads_eq_ok hr).2 hsome

/-- A header field arrives, and then nothing. -/
def fieldThenNothing (k : ℕ) : ReadAnswer := if k = 0 then .bytes 0 [0, 0, 1] else .error

/-- The reads fail for ever, and the call goes on for ever. -/
theorem frame_reading_hangs : ¬ ∀ (u : Unspec) (answers : ℕ → ReadAnswer) (len : ℤ),
    ReadsFrame u answers len := by
  intro h
  have herror : ∀ k, 1 ≤ k → fieldThenNothing k = .error := fun k hk => if_neg (by omega)
  have hquiet : EventuallyQuiet fieldThenNothing := by
    refine ⟨1, fun k hk => ?_⟩
    rw [herror k hk]
    decide
  obtain ⟨rounds, r, hr⟩ := (h plainUnspec fieldThenNothing 20).returns hquiet
  obtain ⟨j, hj, heof⟩ := clearBufferReads_returns_iff.mp
    ⟨rounds, r.reads, (routerFrameReads_eq_ok hr).1⟩
  rw [herror j hj] at heof
  cases heof

end TsmVm
