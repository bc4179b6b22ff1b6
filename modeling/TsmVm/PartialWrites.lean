import TsmVm.Sending

/-!
# Partial writes of `router_send`

A frame may take several writes. Here the loop is followed write by write, with both
of its counters: which bytes every request names, and which of them are accepted. What
`write` answers is left open; it accepts at most what it is asked for.
-/

namespace TsmVm

/-- A call of `write(fd,buf+pos,rest)`, and what it answers. -/
structure WriteCall where
  /-- Where the bytes start that are asked for. -/
  pos : ℤ
  /-- How many there are. -/
  rest : ℤ
  /-- The answer. -/
  answer : WriteAnswer

/-- The loop of `router_send`: the writes it makes, and what is returned if it ends
before the answers do. -/
def routerSendCalls : List WriteAnswer → ℤ → ℤ → List WriteCall × Option ℤ
  | answers, rest, pos =>
    if 0 < rest then
      match answers with
      | [] => ([], none)
      | a :: answers =>
        if 0 < a.ret then
          let calls := routerSendCalls answers (rest - a.ret) (pos + a.ret)
          (⟨pos, rest, a⟩ :: calls.1, calls.2)
        else if a.errno ≠ 0 then ([⟨pos, rest, a⟩], some pos)
        else
          let calls := routerSendCalls answers rest pos
          (⟨pos, rest, a⟩ :: calls.1, calls.2)
    else ([], some pos)

/-- `router_send`, write by write. -/
def routerSendWrites (fd len : ℤ) (answers : List WriteAnswer) : List WriteCall × Option ℤ :=
  if fd < 0 then ([], some (-1)) else routerSendCalls answers len 0

/-- The indices of the bytes a write accepts. -/
def WriteCall.accepted (c : WriteCall) : List ℕ := List.range' c.pos.toNat c.answer.ret.toNat

/-- A call of `router_send` on a descriptor, with the answers of `write`. -/
structure Transmission where
  /-- The descriptor. -/
  fd : ℕ
  /-- The memory of the buffer. -/
  buf : List UInt8
  /-- The number of bytes to be sent. -/
  len : ℕ
  /-- The buffer holds them. -/
  len_le : len ≤ buf.length
  /-- What `write` answers, one call after the other. -/
  answers : List WriteAnswer
  /-- It accepts no more than it is asked for. -/
  within : ∀ c ∈ (routerSendWrites fd len answers).1, c.answer.ret ≤ c.rest

namespace Transmission

/-- The writes that are made. -/
def calls (t : Transmission) : List WriteCall := (routerSendWrites t.fd t.len t.answers).1

/-- What is returned, if anything is. -/
def returned (t : Transmission) : Option ℤ := (routerSendWrites t.fd t.len t.answers).2

/-- The bytes accepted by all the writes, one after the other. -/
def sent (t : Transmission) : List UInt8 :=
  t.calls.flatMap fun c => (t.buf.drop c.pos.toNat).take c.answer.ret.toNat

end Transmission

variable {answers : List WriteAnswer} {rest pos p : ℤ}

/-- Every request asks for all the bytes that are left. -/
theorem routerSendCalls_request {c : WriteCall} (hc : c ∈ (routerSendCalls answers rest pos).1) :
    pos ≤ c.pos ∧ 0 < c.rest ∧ c.pos + c.rest = pos + rest := by
  induction answers generalizing rest pos with
  | nil =>
    rw [routerSendCalls] at hc
    split at hc <;> cases hc
  | cons a answers ih =>
    rw [routerSendCalls] at hc
    split at hc
    · split at hc
      · obtain rfl | hc := List.mem_cons.mp hc
        · exact ⟨le_rfl, ‹_›, rfl⟩
        · obtain ⟨hpos, hrest, hsum⟩ := ih hc
          exact ⟨by omega, hrest, by omega⟩
      · split at hc
        · obtain rfl := List.mem_singleton.mp hc
          exact ⟨le_rfl, ‹_›, rfl⟩
        · obtain rfl | hc := List.mem_cons.mp hc
          · exact ⟨le_rfl, ‹_›, rfl⟩
          · exact ih hc
    · cases hc

/-- The accepted bytes are those from `pos` on up to what is returned, one after the
other, and the loop ends in front of the last one only where a write refuses. -/
theorem routerSendCalls_accepted (hpos : 0 ≤ pos) (hrest : 0 ≤ rest)
    (hwithin : ∀ c ∈ (routerSendCalls answers rest pos).1, c.answer.ret ≤ c.rest)
    (h : (routerSendCalls answers rest pos).2 = some p) :
    pos ≤ p ∧ p ≤ pos + rest ∧
      (routerSendCalls answers rest pos).1.flatMap WriteCall.accepted =
        List.range' pos.toNat (p - pos).toNat ∧
      (p < pos + rest → ∃ c ∈ (routerSendCalls answers rest pos).1, c.answer.refuses = true) := by
  induction answers generalizing rest pos with
  | nil =>
    rw [routerSendCalls] at h ⊢
    split at h
    · cases h
    · obtain rfl := Option.some.inj h
      rw [if_neg ‹_›, sub_self]
      exact ⟨le_rfl, by omega, rfl, fun hlt => by omega⟩
  | cons a answers ih =>
    rw [routerSendCalls] at h hwithin ⊢
    split at h
    · rename_i hleft
      rw [if_pos hleft] at hwithin ⊢
      split at h
      · rename_i hret
        rw [if_pos hret] at hwithin ⊢
        obtain ⟨hfirst, hothers⟩ := List.forall_mem_cons.mp hwithin
        obtain ⟨hlow, hhigh, hrange, hrefuse⟩ := ih (by omega) (by dsimp only at hfirst; omega)
          hothers h
        refine ⟨by omega, by omega, ?_, fun hlt => ?_⟩
        · -- the accepted bytes of this write, and those of the others behind them
          have hsplit : (p - pos).toNat = a.ret.toNat + (p - (pos + a.ret)).toNat := by omega
          have hnext : (pos + a.ret).toNat = pos.toNat + a.ret.toNat := by omega
          rw [List.flatMap_cons, hrange, hsplit, hnext]
          exact (List.range'_append_1 ..)
        · obtain ⟨c, hc, hrefuses⟩ := hrefuse (by omega)
          exact ⟨c, List.mem_cons_of_mem _ hc, hrefuses⟩
      · rename_i hret
        rw [if_neg hret] at hwithin ⊢
        have hzero : a.ret.toNat = 0 := by omega
        split at h
        · rename_i herrno
          obtain rfl := Option.some.inj h
          rw [if_pos herrno, sub_self]
          refine ⟨le_rfl, by omega, ?_, fun _ => ⟨_, List.mem_singleton_self _, ?_⟩⟩
          · simp [WriteCall.accepted, hzero]
          · simp [WriteAnswer.refuses, herrno, not_lt.mp hret]
        · rename_i herrno
          rw [if_neg herrno] at hwithin ⊢
          obtain ⟨-, hothers⟩ := List.forall_mem_cons.mp hwithin
          obtain ⟨hlow, hhigh, hrange, hrefuse⟩ := ih hpos hrest hothers h
          refine ⟨hlow, hhigh, ?_, fun hlt => ?_⟩
          · rw [List.flatMap_cons, hrange]
            simp [WriteCall.accepted, hzero]
          · obtain ⟨c, hc, hrefuses⟩ := hrefuse hlt
            exact ⟨c, List.mem_cons_of_mem _ hc, hrefuses⟩
    · obtain rfl := Option.some.inj h
      rw [if_neg ‹_›, sub_self]
      exact ⟨le_rfl, by omega, rfl, fun hlt => by omega⟩

/-- Where `write` accepts no more than it is asked for, the loop returns what the loop
that only counts the bytes does. -/
theorem routerSendCalls_returned {rest : ℕ}
    (hwithin : ∀ c ∈ (routerSendCalls answers rest pos).1, c.answer.ret ≤ c.rest) :
    (routerSendCalls answers rest pos).2 =
      if (routerSendLoop answers rest).2 then some (pos + (routerSendLoop answers rest).1)
      else none := by
  induction answers generalizing rest pos with
  | nil =>
    cases rest with
    | zero => simp [routerSendCalls, routerSendLoop]
    | succ rest => simp [routerSendCalls, routerSendLoop]
  | cons a answers ih =>
    cases rest with
    | zero => simp [routerSendCalls, routerSendLoop]
    | succ rest =>
      have hleft : (0 : ℤ) < (rest + 1 : ℕ) := by omega
      rw [routerSendCalls, if_pos hleft] at hwithin ⊢
      rw [routerSendLoop]
      by_cases hret : 0 < a.ret
      · rw [if_pos hret] at hwithin ⊢
        rw [if_pos hret]
        obtain ⟨hfirst, hothers⟩ := List.forall_mem_cons.mp hwithin
        dsimp only at hfirst hothers ⊢
        have hmin : min a.ret.toNat (rest + 1) = a.ret.toNat := by omega
        have hnext : ((rest + 1 : ℕ) : ℤ) - a.ret = (rest + 1 - a.ret.toNat : ℕ) := by omega
        rw [hnext] at hothers ⊢
        rw [ih hothers, hmin]
        congr 2
        push_cast
        omega
      · rw [if_neg hret] at hwithin ⊢
        rw [if_neg hret]
        by_cases herrno : a.errno = 0
        · rw [if_neg (not_not.mpr herrno)] at hwithin ⊢
          rw [if_neg (not_not.mpr herrno)]
          exact ih (List.forall_mem_cons.mp hwithin).2
        · rw [if_pos herrno, if_pos herrno]
          simp

namespace Transmission

variable {t : Transmission}

theorem routerSendWrites_eq (t : Transmission) :
    routerSendWrites t.fd t.len t.answers = routerSendCalls t.answers t.len 0 :=
  if_neg (by omega)

/-- What is returned is what the writer of the router goes by. -/
theorem returned_eq (t : Transmission) :
    t.returned = if (routerSend t.fd (t.buf.take t.len) t.answers).2 then
      some ((routerSend t.fd (t.buf.take t.len) t.answers).1 : ℤ) else none := by
  have hwithin := t.within
  rw [routerSendWrites_eq] at hwithin
  have hlen : (t.buf.take t.len).length = t.len := List.length_take_of_le t.len_le
  have hfd : ¬ (t.fd : ℤ) < 0 := by omega
  rw [returned, routerSendWrites_eq, routerSend, if_neg hfd, hlen,
    routerSendCalls_returned hwithin, zero_add]

end Transmission

/-- A part of a list, element by element. -/
theorem take_drop_eq_filterMap (buf : List UInt8) (i n : ℕ) :
    (buf.drop i).take n = (List.range' i n).filterMap (buf[·]?) := by
  induction n generalizing i with
  | zero => simp
  | succ n ih =>
    rw [List.range'_succ, List.filterMap_cons]
    cases hb : buf[i]? with
    | none =>
      have hend := List.getElem?_eq_none_iff.mp hb
      rw [← ih, List.drop_of_length_le hend, List.drop_of_length_le (by omega), List.take_nil,
        List.take_nil]
    | some b =>
      obtain ⟨hlt, rfl⟩ := List.getElem?_eq_some_iff.mp hb
      rw [← ih, List.drop_eq_getElem_cons hlt, List.take_succ_cons]

/-- **Partial writes.** Every request lies within the buffer. Whenever the loop ends, the
bytes accepted are the first ones of the buffer, as many as are returned, each of them
once and in order; and there are fewer than were to be sent only where some write
returned nothing and left an error. -/
theorem routerSend_resumes (t : Transmission) :
    (∀ c ∈ t.calls, 0 ≤ c.pos ∧ 0 < c.rest ∧ c.pos + c.rest ≤ t.len) ∧
    ∀ p, t.returned = some p →
      0 ≤ p ∧ p ≤ t.len ∧ t.calls.flatMap WriteCall.accepted = List.range p.toNat ∧
        t.sent = t.buf.take p.toNat ∧
        (p < t.len → ∃ c ∈ t.calls, c.answer.ret ≤ 0 ∧ c.answer.errno ≠ 0) := by
  have hwithin := t.within
  rw [t.routerSendWrites_eq] at hwithin
  constructor
  · intro c hc
    rw [Transmission.calls, t.routerSendWrites_eq] at hc
    obtain ⟨hpos, hrest, hsum⟩ := routerSendCalls_request hc
    exact ⟨hpos, hrest, by omega⟩
  · intro p hp
    rw [Transmission.returned, t.routerSendWrites_eq] at hp
    obtain ⟨hlow, hhigh, hrange, hrefuse⟩ :=
      routerSendCalls_accepted le_rfl (Int.natCast_nonneg t.len) hwithin hp
    have hindices : t.calls.flatMap WriteCall.accepted = List.range p.toNat := by
      rw [Transmission.calls, t.routerSendWrites_eq, hrange, sub_zero, List.range_eq_range']
      rfl
    refine ⟨hlow, by omega, hindices, ?_, fun hlt => ?_⟩
    · have hbytes := take_drop_eq_filterMap t.buf 0 p.toNat
      rw [List.drop_zero] at hbytes
      rw [hbytes, ← List.range_eq_range', ← hindices, List.filterMap_flatMap, Transmission.sent]
      simp only [take_drop_eq_filterMap]
      rfl
    · obtain ⟨c, hc, hrefuses⟩ := hrefuse (by omega)
      refine ⟨c, ?_, by simpa [WriteAnswer.refuses] using hrefuses⟩
      rwa [Transmission.calls, t.routerSendWrites_eq]

/-- Five bytes in four writes: one accepts two of them, one none, one is interrupted without
an error, and the last accepts the rest. -/
def fourWrites : Transmission where
  fd := 3
  buf := [1, 2, 3, 4, 5]
  len := 5
  len_le := le_rfl
  answers := [⟨2, 0⟩, ⟨0, 0⟩, ⟨-1, 0⟩, ⟨3, 0⟩]
  within := by decide

/-- All of them are sent. -/
theorem routerSend_resumes_fourWrites :
    fourWrites.returned = some 5 ∧ fourWrites.sent = [1, 2, 3, 4, 5] :=
  ⟨rfl, ((routerSend_resumes fourWrites).2 5 rfl).2.2.2.1⟩

end TsmVm
