import TsmVm.FmBytes

/-!
# Socket buffers (`fm_skbuff.c`)

A buffer keeps its payload between two cursors, `data` and `tail`, inside a
block of fixed size; headers are pushed in front of the payload and pulled off
it by moving `data`. The cursors are offsets from `head`. Apart from the
operations this module states what they do to a buffer split into headroom,
payload and tailroom.
-/

namespace TsmVm

/-- `struct sk_buff`. -/
structure Skb where
  /-- The number `alloc_skb` draws from `glb_skb_index`. -/
  index : ℕ
  /-- Set by the router, cleared at the first dispatch. -/
  isNew : Bool
  /-- Session the package belongs to. -/
  session : ℤ
  /-- Kind of message. -/
  msgType : ℤ
  /-- Why the package is on its queue. -/
  reason : ℤ
  /-- Name of the agent the package goes to. -/
  agent : Ptr FmBytes
  /-- The block from `head` to `end`; its length is `data_len`. -/
  buff : List UInt8
  /-- Offset of the payload. -/
  data : ℕ
  /-- Offset behind the payload. -/
  tail : ℕ
  /-- Length of the payload. -/
  len : ℕ
  deriving DecidableEq, Repr

/-- `PKG_REASON_NORMAL`. -/
def pkgReasonNormal : ℤ := 0

/-- `PKG_REASON_BOOTSTRAP`. -/
def pkgReasonBootstrap : ℤ := 1

/-- The bytes from `data` for `len`. -/
def Skb.payload (s : Skb) : List UInt8 := (s.buff.drop s.data).take s.len

/-- `alloc_skb`. The structure comes from `malloc` and only its first word is
zeroed, so the fields that are not assigned keep what `junk` holds. -/
def allocSkb (junk : Skb) (size : ℕ) : Skb :=
  { junk with buff := List.replicate size 0, data := 0, tail := 0, len := 0 }

/-- `skb_put`: the offset of the new bytes and the buffer. -/
def skbPut (s : Skb) (n : ℕ) : Res (ℕ × Skb) :=
  if s.buff.length = 0 then .error .skbAssert
  else if s.buff.length < s.tail + n then .error .skbOverPanic
  else .ok (s.tail, { s with tail := s.tail + n, len := s.len + n })

/-- `skb_push`: the offset of the new bytes and the buffer. -/
def skbPush (s : Skb) (n : ℕ) : Res (ℕ × Skb) :=
  if s.data < n then .error .skbUnderPanic
  else .ok (s.data - n, { s with data := s.data - n, len := s.len + n })

/-- `skb_pull`: the new `data` pointer, or `NULL` and no change. -/
def skbPull (s : Skb) (n : ℕ) : Option ℕ × Skb :=
  if s.len < n then (none, s)
  else (some (s.data + n), { s with data := s.data + n, len := s.len - n })

/-- `skb_reserve`. -/
def skbReserve (s : Skb) (n : ℕ) : Skb := { s with data := s.data + n, tail := s.tail + n }

/-- Reading the byte at offset `p`. -/
def Skb.byte (s : Skb) (p : ℕ) : Res UInt8 := byteAt s.buff p

/-- Storing bytes at offset `p`. -/
def Skb.poke (s : Skb) (p : ℕ) (bs : List UInt8) : Skb :=
  { s with buff := s.buff.take p ++ bs ++ s.buff.drop (p + bs.length) }

/-- `memcpy(skb_put(s, len), bs, len)`, and `*(skb_put(s,1)) = b` for one byte. -/
def skbPutBytes (s : Skb) (bs : List UInt8) : Res Skb := do
  let (p, s) ← skbPut s bs.length
  return s.poke p bs

/-- `memcpy(skb_push(s, len), bs, len)`, and `*(skb_push(s,1)) = b` for one byte. -/
def skbPushBytes (s : Skb) (bs : List UInt8) : Res Skb := do
  let (p, s) ← skbPush s bs.length
  return s.poke p bs

/-- Bytes stored inside the block leave its size as it is. -/
theorem Skb.poke_length (s : Skb) {p : ℕ} {bs : List UInt8} (h : p + bs.length ≤ s.buff.length) :
    (s.poke p bs).buff.length = s.buff.length := by
  simp only [Skb.poke, List.length_append, List.length_take, List.length_drop]
  omega

/-- What `skb_put` leaves behind when it returns. -/
theorem skbPut_eq_ok {s t : Skb} {n p : ℕ} (h : skbPut s n = .ok (p, t)) :
    p = s.tail ∧ t = { s with tail := s.tail + n, len := s.len + n } ∧
      s.tail + n ≤ s.buff.length := by
  unfold skbPut at h
  split at h
  · cases h
  · split at h
    · cases h
    · rename_i hfit
      obtain ⟨rfl, rfl⟩ : s.tail = p ∧ _ = t := by simpa using h
      exact ⟨rfl, rfl, by omega⟩

/-- The bytes put there leave the block as large as it is. -/
theorem skbPut_poke_length {s t : Skb} {n p : ℕ} {bs : List UInt8}
    (h : skbPut s n = .ok (p, t)) (hbs : bs.length = n) :
    (t.poke p bs).buff.length = s.buff.length := by
  obtain ⟨rfl, rfl, hfit⟩ := skbPut_eq_ok h
  exact Skb.poke_length _ (by simp only; omega)

/-- Appending bytes makes the payload longer by as many. -/
theorem skbPutBytes_len {s t : Skb} {bs : List UInt8} (h : skbPutBytes s bs = .ok t) :
    t.len = s.len + bs.length := by
  obtain ⟨⟨p, s'⟩, hput, h⟩ := bind_eq_ok.mp h
  obtain ⟨-, rfl, -⟩ := skbPut_eq_ok hput
  obtain rfl := Except.ok.inj h
  rfl

/-- A pull takes what it is asked for, or nothing. -/
theorem le_skbPull_len (s : Skb) (n : ℕ) : s.len ≤ (skbPull s n).2.len + n := by
  unfold skbPull
  split
  · exact Nat.le_add_right _ _
  · dsimp only
    omega

/-- `kfree_skb`; `fmBytes_free` is called on every agent pointer but `NULL`. -/
def kfreeSkb (s : Skb) : Res Unit :=
  match s.agent with
  | .wild => .error .wildAccess
  | _ => .ok ()

/-- `skb_queue_purge`: every buffer of the queue is freed. -/
def skbQueuePurge : List Skb → Res (List Skb)
  | [] => .ok []
  | s :: q => do
    kfreeSkb s
    skbQueuePurge q

/-- A purged queue is empty. -/
theorem skbQueuePurge_eq_nil {q q' : List Skb} (h : skbQueuePurge q = Except.ok q') : q' = [] := by
  induction q with
  | nil => simpa [skbQueuePurge] using h.symm
  | cons s q ih =>
    obtain ⟨_, _, hq⟩ := bind_eq_ok.mp h
    exact ih hq

/-- The layout of a buffer: headroom, payload and tailroom, in the order they
lie in the block, with the cursors at the borders. -/
structure Skb.Layout (s : Skb) (head body room : List UInt8) : Prop where
  /-- The block is the three parts. -/
  buff_eq : s.buff = head ++ body ++ room
  /-- The payload starts behind the headroom. -/
  data_eq : s.data = head.length
  /-- The payload ends where the tailroom starts. -/
  tail_eq : s.tail = head.length + body.length
  /-- The recorded length is that of the payload. -/
  len_eq : s.len = body.length

namespace Skb.Layout

variable {s : Skb} {head body room : List UInt8}

/-- The payload of a laid out buffer. -/
theorem payload_eq (h : s.Layout head body room) : s.payload = body := by
  unfold Skb.payload
  rw [h.buff_eq, h.data_eq, h.len_eq, List.append_assoc, List.drop_left, List.take_left]

/-- A freshly allocated buffer is all tailroom. -/
theorem alloc (junk : Skb) (size : ℕ) :
    (allocSkb junk size).Layout [] [] (List.replicate size 0) := by
  constructor <;> simp [allocSkb]

/-- Reserving room in an empty buffer turns tailroom into headroom. -/
theorem reserve {front : List UInt8} (h : s.Layout head [] (front ++ room)) :
    (skbReserve s front.length).Layout (head ++ front) [] room := by
  constructor
  · simp [skbReserve, h.buff_eq]
  · simp [skbReserve, h.data_eq]
  · have := h.tail_eq
    simp only [skbReserve, List.length_append, List.length_nil] at this ⊢
    omega
  · simpa [skbReserve] using h.len_eq

/-- Appending bytes for which there is tailroom. -/
theorem put {old bs : List UInt8} (h : s.Layout head body (old ++ room))
    (hlen : old.length = bs.length) (hne : s.buff ≠ []) :
    ∃ t, skbPutBytes s bs = Except.ok t ∧ t.Layout head (body ++ bs) room ∧
      t = { s with buff := head ++ (body ++ bs) ++ room, tail := s.tail + bs.length,
                   len := s.len + bs.length } := by
  have hsize : s.buff.length = head.length + body.length + (bs.length + room.length) := by
    rw [h.buff_eq]
    simp only [List.length_append]
    omega
  have hfit : ¬ s.buff.length < s.tail + bs.length := by
    have := h.tail_eq
    omega
  have hpos : s.buff.length ≠ 0 := by simpa using hne
  have hpoke : s.buff.take s.tail ++ bs ++ s.buff.drop (s.tail + bs.length) =
      head ++ (body ++ bs) ++ room := by
    have htail : s.tail = (head ++ body).length := by simpa using h.tail_eq
    rw [h.buff_eq, htail, ← hlen, ← List.append_assoc (head ++ body) old room,
      ← List.length_append, List.drop_left, List.append_assoc (head ++ body) old room,
      List.take_left]
    simp
  refine ⟨_, ?_, ?_, rfl⟩
  · simp only [skbPutBytes, skbPut, if_neg hpos, if_neg hfit, ok_bind, pure_eq_ok, Skb.poke, hpoke]
  · constructor
    · rfl
    · exact h.data_eq
    · simp only [List.length_append]
      have := h.tail_eq
      omega
    · simp only [List.length_append]
      have := h.len_eq
      omega

/-- Putting a header in front of the payload, where there is headroom. -/
theorem push {old : List UInt8} (h : s.Layout (head ++ old) body room) (bs : List UInt8)
    (hlen : old.length = bs.length) :
    ∃ t, skbPushBytes s bs = Except.ok t ∧ t.Layout head (bs ++ body) room ∧
      t = { s with buff := head ++ (bs ++ body) ++ room, data := s.data - bs.length,
                   len := s.len + bs.length } := by
  have hdata : s.data = head.length + bs.length := by simpa [hlen] using h.data_eq
  have hfit : ¬ s.data < bs.length := by omega
  have hstart : s.data - bs.length = head.length := by omega
  have hpoke : s.buff.take head.length ++ bs ++ s.buff.drop (head.length + bs.length) =
      head ++ (bs ++ body) ++ room := by
    rw [h.buff_eq, ← hlen, ← List.length_append]
    simp only [List.append_assoc, List.take_left]
    rw [← List.append_assoc head old, List.drop_left]
  refine ⟨_, ?_, ?_, rfl⟩
  · simp only [skbPushBytes, skbPush, if_neg hfit, ok_bind, pure_eq_ok, Skb.poke, hstart, hpoke]
  · constructor
    · rfl
    · exact hstart
    · have := h.tail_eq
      simp only [List.length_append] at this ⊢
      omega
    · have := h.len_eq
      simp only [List.length_append]
      omega

/-- Pulling bytes off the front of the payload returns the pointer to what is
left. -/
theorem pull (front : List UInt8) (h : s.Layout head (front ++ body) room) :
    ∃ t, skbPull s front.length = (some t.data, t) ∧ t.Layout (head ++ front) body room := by
  have hlen : s.len = front.length + body.length := by simpa using h.len_eq
  have hfit : ¬ s.len < front.length := by omega
  refine ⟨{ s with data := s.data + front.length, len := s.len - front.length }, ?_, ?_⟩
  · simp only [skbPull, if_neg hfit]
  · constructor
    · simp [h.buff_eq]
    · simp [h.data_eq]
    · have := h.tail_eq
      simp only [List.length_append] at this ⊢
      omega
    · simp only
      omega

/-- A pull of more than the payload does nothing. -/
theorem pull_none {n : ℕ} (h : s.Layout head body room) (hn : body.length < n) :
    skbPull s n = (none, s) := by
  have : s.len < n := by rw [h.len_eq]; exact hn
  simp only [skbPull, if_pos this]

/-- The byte behind `i` bytes of payload is read from payload or tailroom. -/
theorem byte_eq {i : ℕ} {b : UInt8} (h : s.Layout head body room)
    (hb : (body ++ room)[i]? = some b) : s.byte (s.data + i) = Except.ok b := by
  have hget : s.buff[s.data + i]? = some b := by
    rw [h.buff_eq, h.data_eq, List.append_assoc, List.getElem?_append_right (by omega),
      Nat.add_sub_cancel_left]
    exact hb
  exact byteAt_natCast hget

/-- Behind a payload that ends the block no byte is read. -/
theorem byte_end (h : s.Layout head [] []) : s.byte s.data = .error .outOfBounds := by
  apply byteAt_end
  rw [h.buff_eq, h.data_eq]
  simp

end Skb.Layout

end TsmVm
