import TsmVm.FmSkbuff
import TsmVm.Lib.Lts

/-!
# The data area of a buffer (`fm_skbuff.c`)

A buffer is a deque of bytes in a block of fixed size: bytes are put behind and pushed in
front of the payload while there is room, pulled off its front and trimmed off its end. This
is so after any calls of the five functions, in any order, and the two that look for room
stop exactly where there is none.
-/

namespace TsmVm

/-- `skb_trim`. A buffer without a block is left as it is. -/
def skbTrim (s : Skb) (n : ℕ) : Skb :=
  if n < s.len then
    if s.buff.length ≠ 0 then { s with len := n, tail := s.data + n } else s
  else s

/-- A call, with the bytes that are then copied to where it points. -/
inductive AreaCall
  | reserve (n : ℕ)
  | put (bs : List UInt8)
  | push (bs : List UInt8)
  | pull (n : ℕ)
  | trim (n : ℕ)

/-- What a call returns, as an offset, and the buffer. -/
def AreaCall.run : AreaCall → Skb → Res (Option ℕ × Skb)
  | .reserve n, s => .ok (none, skbReserve s n)
  | .put bs, s => do
    let (p, s) ← skbPut s bs.length
    return (some p, s.poke p bs)
  | .push bs, s => do
    let (p, s) ← skbPush s bs.length
    return (some p, s.poke p bs)
  | .pull n, s => .ok (skbPull s n)
  | .trim n, s => .ok (none, skbTrim s n)

/-- A deque of bytes and the room on both of its sides. -/
structure Area where
  front : ℕ
  body : List UInt8
  back : ℕ

/-- What the calls mean for the deque. Room is reserved in an empty one. -/
inductive AreaStep : Area → AreaCall × Option ℕ → Area → Prop
  | reserve {a : Area} {n : ℕ} (hempty : a.body = []) (hroom : n ≤ a.back) :
      AreaStep a (.reserve n, none) { a with front := a.front + n, back := a.back - n }
  | put {a : Area} {bs : List UInt8} (hroom : bs.length ≤ a.back) :
      AreaStep a (.put bs, some (a.front + a.body.length))
        { a with body := a.body ++ bs, back := a.back - bs.length }
  | push {a : Area} {bs : List UInt8} (hroom : bs.length ≤ a.front) :
      AreaStep a (.push bs, some (a.front - bs.length))
        { a with front := a.front - bs.length, body := bs ++ a.body }
  | pull {a : Area} {n : ℕ} (hlen : n ≤ a.body.length) :
      AreaStep a (.pull n, some (a.front + n))
        { a with front := a.front + n, body := a.body.drop n }
  | pullNull {a : Area} {n : ℕ} (hlen : a.body.length < n) : AreaStep a (.pull n, none) a
  | trim {a : Area} {n : ℕ} (hlen : n < a.body.length) :
      AreaStep a (.trim n, none)
        { a with body := a.body.take n, back := a.back + (a.body.length - n) }
  | trimNothing {a : Area} {n : ℕ} (hlen : a.body.length ≤ n) : AreaStep a (.trim n, none) a

/-- Deques under calls, from an empty one with room behind. -/
def areas (size : ℕ) : Lts.System Area (AreaCall × Option ℕ) where
  init a := a = ⟨0, [], size⟩
  step := AreaStep

/-- Buffers under calls, from a new one. Room is reserved in an empty buffer, and inside
the block. -/
def skbAreas (junk : Skb) (size : ℕ) : Lts.System Skb (AreaCall × Option ℕ) where
  init s := s = allocSkb junk size
  step s l t := (∀ n, l.1 = .reserve n → s.len = 0 ∧ s.tail + n ≤ s.buff.length) ∧
    l.1.run s = .ok (l.2, t)

/-- The buffer is the deque in a block that is not empty. -/
structure Skb.Holds (s : Skb) (a : Area) : Prop where
  layout : ∃ head room, s.Layout head a.body room ∧ head.length = a.front ∧ room.length = a.back
  buff_ne : s.buff ≠ []

namespace Skb.Holds

variable {s : Skb} {a : Area}

/-- The block is the room and the payload. -/
theorem total (h : s.Holds a) : a.front + a.body.length + a.back = s.buff.length := by
  obtain ⟨head, room, hl, hhead, hroom⟩ := h.layout
  rw [hl.buff_eq, List.length_append, List.length_append, hhead, hroom]

/-- Room behind an empty deque becomes room in front of it. -/
theorem reserve (h : s.Holds a) (hempty : a.body = []) {n : ℕ} (hroom : n ≤ a.back) :
    (skbReserve s n).Holds { a with front := a.front + n, back := a.back - n } := by
  obtain ⟨head, room, hl, hhead, hback⟩ := h.layout
  obtain ⟨front, back, rfl, hfront⟩ : ∃ front back, room = front ++ back ∧ front.length = n :=
    ⟨room.take n, room.drop n, (List.take_append_drop n room).symm, by
      rw [List.length_take]; omega⟩
  rw [hempty] at hl
  rw [List.length_append] at hback
  refine ⟨⟨head ++ front, back, ?_, ?_, ?_⟩, h.buff_ne⟩
  · rw [hempty, ← hfront]
    exact hl.reserve
  · rw [List.length_append, hhead, hfront]
  · dsimp only
    omega

/-- Bytes are put behind the payload where there is room. -/
theorem put (h : s.Holds a) {bs : List UInt8} (hroom : bs.length ≤ a.back) :
    ∃ t, (AreaCall.put bs).run s = .ok (some (a.front + a.body.length), t) ∧
      t.Holds { a with body := a.body ++ bs, back := a.back - bs.length } := by
  obtain ⟨head, room, hl, hhead, hback⟩ := h.layout
  obtain ⟨old, rest, rfl, hold⟩ : ∃ old rest, room = old ++ rest ∧ old.length = bs.length :=
    ⟨room.take bs.length, room.drop bs.length, (List.take_append_drop _ room).symm, by
      rw [List.length_take]; omega⟩
  rw [List.length_append] at hback
  obtain ⟨t, hput, ht, heq⟩ := hl.put hold h.buff_ne
  obtain ⟨⟨p, t'⟩, hskb, hpoke⟩ := bind_eq_ok.mp hput
  obtain ⟨rfl, -, -⟩ := skbPut_eq_ok hskb
  have hlen : t.buff.length = s.buff.length := by
    obtain rfl := Except.ok.inj hpoke
    exact skbPut_poke_length hskb rfl
  refine ⟨t, ?_, ⟨head, rest, ht, hhead, ?_⟩, ?_⟩
  · obtain rfl := Except.ok.inj hpoke
    rw [AreaCall.run, hskb, ok_bind, hl.tail_eq, hhead]
    rfl
  · dsimp only
    omega
  · rw [← List.length_pos_iff, hlen, List.length_pos_iff]
    exact h.buff_ne

/-- Where there is none the buffer panics. -/
theorem put_panics (h : s.Holds a) {bs : List UInt8} (hroom : a.back < bs.length) :
    (AreaCall.put bs).run s = .error .skbOverPanic := by
  have htotal := h.total
  obtain ⟨head, room, hl, hhead, hback⟩ := h.layout
  have htail := hl.tail_eq
  have hpos : s.buff.length ≠ 0 := by simpa using h.buff_ne
  have hover : s.buff.length < s.tail + bs.length := by omega
  rw [AreaCall.run, skbPut, if_neg hpos, if_pos hover]
  rfl

/-- Bytes are pushed in front of the payload where there is room. -/
theorem push (h : s.Holds a) {bs : List UInt8} (hroom : bs.length ≤ a.front) :
    ∃ t, (AreaCall.push bs).run s = .ok (some (a.front - bs.length), t) ∧
      t.Holds { a with front := a.front - bs.length, body := bs ++ a.body } := by
  have htotal := h.total
  obtain ⟨head, room, hl, hhead, hback⟩ := h.layout
  obtain ⟨rest, old, rfl, hold⟩ : ∃ rest old, head = rest ++ old ∧ old.length = bs.length :=
    ⟨head.take (head.length - bs.length), head.drop (head.length - bs.length),
      (List.take_append_drop _ head).symm, by rw [List.length_drop]; omega⟩
  have hdata := hl.data_eq
  rw [List.length_append] at hhead hdata
  obtain ⟨t, hpush, ht, heq⟩ := hl.push bs hold
  have hfit : ¬ s.data < bs.length := by omega
  have hskb : skbPush s bs.length =
      .ok (s.data - bs.length, { s with data := s.data - bs.length, len := s.len + bs.length }) :=
    if_neg hfit
  rw [skbPushBytes, hskb, ok_bind] at hpush
  obtain rfl := Except.ok.inj hpush
  refine ⟨_, ?_, ⟨rest, room, ht, ?_, hback⟩, ?_⟩
  · rw [AreaCall.run, hskb, ok_bind, hdata, hhead]
    rfl
  · dsimp only
    omega
  · have hne : s.buff.length ≠ 0 := by simpa using h.buff_ne
    rw [ht.buff_eq, ← List.length_pos_iff]
    simp only [List.length_append]
    omega

/-- Where there is none the buffer panics. -/
theorem push_panics (h : s.Holds a) {bs : List UInt8} (hroom : a.front < bs.length) :
    (AreaCall.push bs).run s = .error .skbUnderPanic := by
  obtain ⟨head, room, hl, hhead, hback⟩ := h.layout
  have hunder : s.data < bs.length := by
    rw [hl.data_eq, hhead]
    exact hroom
  rw [AreaCall.run, skbPush, if_pos hunder]
  rfl

/-- A pull takes bytes off the front. -/
theorem pull (h : s.Holds a) {n : ℕ} (hn : n ≤ a.body.length) :
    ∃ t, skbPull s n = (some (a.front + n), t) ∧
      t.Holds { a with front := a.front + n, body := a.body.drop n } := by
  obtain ⟨head, room, hl, hhead, hback⟩ := h.layout
  have hfront : (a.body.take n).length = n := by
    rw [List.length_take]
    omega
  rw [← List.take_append_drop n a.body] at hl
  obtain ⟨t, hpull, ht⟩ := hl.pull (a.body.take n)
  rw [hfront] at hpull
  have hdata : t.data = a.front + n := by
    rw [ht.data_eq, List.length_append, hhead, hfront]
  have hsame : t.buff = s.buff := by
    rw [ht.buff_eq, hl.buff_eq, List.append_assoc head]
  refine ⟨t, by rw [hpull, hdata], ⟨head ++ a.body.take n, room, ht, ?_, hback⟩, ?_⟩
  · rw [List.length_append, hhead, hfront]
  · rw [hsame]
    exact h.buff_ne

/-- Of more than there is it takes nothing. -/
theorem pull_null (h : s.Holds a) {n : ℕ} (hn : a.body.length < n) : skbPull s n = (none, s) := by
  obtain ⟨head, room, hl, -, -⟩ := h.layout
  exact hl.pull_none hn

/-- A trim takes what is too long off the end. -/
theorem trim (h : s.Holds a) {n : ℕ} (hn : n < a.body.length) :
    (skbTrim s n).Holds
      { a with body := a.body.take n, back := a.back + (a.body.length - n) } := by
  obtain ⟨head, room, hl, hhead, hback⟩ := h.layout
  have hlen : n < s.len := by rw [hl.len_eq]; exact hn
  have hpos : s.buff.length ≠ 0 := by simpa using h.buff_ne
  have htrim : skbTrim s n = { s with len := n, tail := s.data + n } := by
    rw [skbTrim, if_pos hlen, if_pos hpos]
  have htake : (a.body.take n).length = n := by
    rw [List.length_take]
    omega
  rw [htrim]
  refine ⟨⟨head, a.body.drop n ++ room, ⟨?_, hl.data_eq, ?_, ?_⟩, hhead, ?_⟩, h.buff_ne⟩
  · dsimp only
    rw [hl.buff_eq, List.append_assoc head (a.body.take n), ← List.append_assoc (a.body.take n),
      List.take_append_drop, ← List.append_assoc]
  · rw [htake, ← hl.data_eq]
  · exact htake.symm
  · rw [List.length_append, List.length_drop, hback, add_comm]

/-- A payload that is short enough stays. -/
theorem trim_nothing (h : s.Holds a) {n : ℕ} (hn : a.body.length ≤ n) : skbTrim s n = s := by
  obtain ⟨head, room, hl, -, -⟩ := h.layout
  refine if_neg ?_
  rw [hl.len_eq]
  exact Nat.not_lt.mpr hn

/-- A call that returns is a step of the deque. -/
theorem step (h : s.Holds a) {c : AreaCall} {r : Option ℕ} {t : Skb}
    (hreserve : ∀ n, c = .reserve n → s.len = 0 ∧ s.tail + n ≤ s.buff.length)
    (hrun : c.run s = .ok (r, t)) : ∃ a', AreaStep a (c, r) a' ∧ t.Holds a' := by
  cases c with
  | reserve n =>
    obtain ⟨rfl, rfl⟩ : none = r ∧ skbReserve s n = t := by simpa [AreaCall.run] using hrun
    obtain ⟨hlen, hfit⟩ := hreserve n rfl
    have htotal := h.total
    obtain ⟨head, room, hl, hhead, -⟩ := h.layout
    have hempty : a.body = [] := List.eq_nil_of_length_eq_zero (hl.len_eq ▸ hlen)
    have htail := hl.tail_eq
    have hroom : n ≤ a.back := by omega
    exact ⟨_, .reserve hempty hroom, h.reserve hempty hroom⟩
  | put bs =>
    obtain hroom | hroom := Nat.lt_or_ge a.back bs.length
    · rw [h.put_panics hroom] at hrun
      cases hrun
    · obtain ⟨t', hput, ht⟩ := h.put hroom
      obtain ⟨rfl, rfl⟩ : some (a.front + a.body.length) = r ∧ t' = t := by
        simpa [hput] using hrun
      exact ⟨_, .put hroom, ht⟩
  | push bs =>
    obtain hroom | hroom := Nat.lt_or_ge a.front bs.length
    · rw [h.push_panics hroom] at hrun
      cases hrun
    · obtain ⟨t', hpush, ht⟩ := h.push hroom
      obtain ⟨rfl, rfl⟩ : some (a.front - bs.length) = r ∧ t' = t := by
        simpa [hpush] using hrun
      exact ⟨_, .push hroom, ht⟩
  | pull n =>
    obtain hn | hn := Nat.lt_or_ge a.body.length n
    · obtain ⟨rfl, rfl⟩ : none = r ∧ s = t := by simpa [AreaCall.run, h.pull_null hn] using hrun
      exact ⟨a, .pullNull hn, h⟩
    · obtain ⟨t', hpull, ht⟩ := h.pull hn
      obtain ⟨rfl, rfl⟩ : some (a.front + n) = r ∧ t' = t := by
        simpa [AreaCall.run, hpull] using hrun
      exact ⟨_, .pull hn, ht⟩
  | trim n =>
    obtain ⟨rfl, rfl⟩ : none = r ∧ skbTrim s n = t := by simpa [AreaCall.run] using hrun
    obtain hn | hn := Nat.lt_or_ge n a.body.length
    · exact ⟨_, .trim hn, h.trim hn⟩
    · rw [h.trim_nothing hn]
      exact ⟨a, .trimNothing hn, h⟩

/-- The calls that do not return are those that find no room. -/
theorem run_eq_error_iff (h : s.Holds a) (c : AreaCall) (e : Stop) :
    c.run s = .error e ↔
      (∃ bs, c = .put bs ∧ a.back < bs.length ∧ e = .skbOverPanic) ∨
        ∃ bs, c = .push bs ∧ a.front < bs.length ∧ e = .skbUnderPanic := by
  cases c with
  | put bs =>
    obtain hroom | hroom := Nat.lt_or_ge a.back bs.length
    · simp [h.put_panics hroom, hroom, eq_comm]
    · obtain ⟨t, hput, -⟩ := h.put hroom
      simp [hput, Nat.not_lt.mpr hroom]
  | push bs =>
    obtain hroom | hroom := Nat.lt_or_ge a.front bs.length
    · simp [h.push_panics hroom, hroom, eq_comm]
    · obtain ⟨t, hpush, -⟩ := h.push hroom
      simp [hpush, Nat.not_lt.mpr hroom]
  | _ => simp [AreaCall.run]

end Skb.Holds

/-- A new buffer is an empty deque. -/
theorem allocSkb_holds (junk : Skb) {size : ℕ} (hsize : 0 < size) :
    (allocSkb junk size).Holds ⟨0, [], size⟩ where
  layout := ⟨[], List.replicate size 0, .alloc junk size, rfl, List.length_replicate⟩
  buff_ne := by
    rw [← List.length_pos_iff, allocSkb, List.length_replicate]
    exact hsize

/-- The calls move room, and neither make nor lose any. -/
theorem AreaStep.total {a a' : Area} {l : AreaCall × Option ℕ} (h : AreaStep a l a') :
    a'.front + a'.body.length + a'.back = a.front + a.body.length + a.back := by
  cases h with
  | reserve hempty hroom =>
    rw [hempty]
    dsimp only
    omega
  | put hroom =>
    simp only [List.length_append]
    omega
  | push hroom =>
    simp only [List.length_append]
    omega
  | pull hlen =>
    simp only [List.length_drop]
    omega
  | trim hlen =>
    simp only [List.length_take]
    omega
  | _ => rfl

/-- **The data area.** After any calls on a new buffer, in any order, the payload is what the
deque of bytes holds after the same calls with the same answers; the cursors stand at its
ends, inside the block, and the room on both sides is what the payload leaves of it. The block
is smaller than two gigabytes, so they are numbers an `int` holds, as which `skb_reserve` and
`skb_trim` take them. A next call fails to return exactly where it puts more behind, or pushes
more in front, than there is room for. -/
theorem skb_area_refines {junk : Skb} {size : ℕ} (hsize : 0 < size) (hint : size < 2147483648)
    {ls : List (AreaCall × Option ℕ)} {s : Skb}
    (h : Lts.Run (skbAreas junk size) (allocSkb junk size) ls s) :
    ∃ a, Lts.Run (areas size) ⟨0, [], size⟩ ls a ∧ s.payload = a.body ∧ s.len = a.body.length ∧
      s.data = a.front ∧ s.tail = a.front + a.body.length ∧
      a.front + a.body.length + a.back = size ∧ s.buff.length = size ∧ s.tail < 2147483648 ∧
      ∀ (c : AreaCall) (e : Stop), c.run s = .error e ↔
        (∃ bs, c = .put bs ∧ a.back < bs.length ∧ e = .skbOverPanic) ∨
          ∃ bs, c = .push bs ∧ a.front < bs.length ∧ e = .skbUnderPanic := by
  have hsteps : ∀ {s : Skb} {a : Area} {l : AreaCall × Option ℕ} {t : Skb}, s.Holds a →
      (skbAreas junk size).step s l t →
        ∃ k a', l = k ∧ (areas size).step a k a' ∧ t.Holds a' := by
    intro s a l t hs hstep
    obtain ⟨a', hstep', ht⟩ := hs.step hstep.1 hstep.2
    exact ⟨l, a', rfl, hstep', ht⟩
  obtain ⟨ks, a, hks, hrun, ha⟩ := h.simulated hsteps (allocSkb_holds junk hsize)
  obtain rfl : ls = ks := by simpa [List.forall₂_eq_eq_eq] using hks
  have htotal : a.front + a.body.length + a.back = size :=
    hrun.invariant (P := fun a : Area => a.front + a.body.length + a.back = size) (by simp)
      fun hP hstep => (AreaStep.total hstep).trans hP
  obtain ⟨head, room, hl, hhead, -⟩ := ha.layout
  have htail : s.tail = a.front + a.body.length := hhead ▸ hl.tail_eq
  exact ⟨a, hrun, hl.payload_eq, hl.len_eq, hl.data_eq.trans hhead, htail, htotal,
    ha.total.symm.trans htotal, by omega, ha.run_eq_error_iff⟩

/-- What the fields of a new buffer hold before they are assigned. -/
def unsetSkb : Skb :=
  { index := 0, isNew := false, session := 0, msgType := 0, reason := 0, agent := .null,
    buff := [], data := 0, tail := 0, len := 0 }

/-- A step that reserves nothing. -/
theorem skbAreas_step {junk s t : Skb} {size : ℕ} {c : AreaCall} {r : Option ℕ}
    (hc : ∀ n, c ≠ .reserve n) (hrun : c.run s = .ok (r, t)) :
    (skbAreas junk size).step s (c, r) t :=
  ⟨fun n hn => absurd hn (hc n), hrun⟩

/-- Three bytes in a block of four, with a byte pushed in front of them. -/
theorem run_four : ∃ s : Skb, s.payload = [8] ∧
    Lts.Run (skbAreas unsetSkb 4) (allocSkb unsetSkb 4)
      [(.reserve 1, none), (.put [7, 8, 9], some 1), (.push [6], some 0), (.pull 2, some 2),
        (.trim 1, none)] s := by
  have hreserve : (skbAreas unsetSkb 4).step (allocSkb unsetSkb 4) (.reserve 1, none)
      (skbReserve (allocSkb unsetSkb 4) 1) := by
    refine ⟨fun n hn => ?_, rfl⟩
    obtain rfl : 1 = n := by simpa using hn
    decide
  have hrun := (((((Lts.Run.single hreserve).snoc
    (skbAreas_step (c := .put [7, 8, 9]) (by simp) rfl)).snoc
    (skbAreas_step (c := .push [6]) (by simp) rfl)).snoc
    (skbAreas_step (c := .pull 2) (by simp) rfl)).snoc
    (skbAreas_step (c := .trim 1) (by simp) rfl))
  exact ⟨_, rfl, hrun⟩

/-- The deque behind it, and the calls it has no room for. -/
theorem skb_area_refines_four : ∃ s : Skb, s.payload = [8] ∧ ∃ a : Area, s.payload = a.body ∧
    ∀ (c : AreaCall) (e : Stop), c.run s = .error e ↔
      (∃ bs, c = .put bs ∧ a.back < bs.length ∧ e = .skbOverPanic) ∨
        ∃ bs, c = .push bs ∧ a.front < bs.length ∧ e = .skbUnderPanic := by
  obtain ⟨s, hs, hrun⟩ := run_four
  obtain ⟨a, -, hbody, -, -, -, -, -, -, hiff⟩ := skb_area_refines (by decide) (by decide) hrun
  exact ⟨s, hs, a, hbody, hiff⟩

end TsmVm
