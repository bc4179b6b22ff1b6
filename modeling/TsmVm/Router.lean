import TsmVm.Concurrent

/-!
# Frames on a socket (`tsm_router.c`)

The writer puts the length, the message type and the session in front of the
payload, in big-endian bytes. The reader takes the length from its own buffer,
as a decimal number, and asks the kernel to store the other two fields at
addresses that are the values of uninitialised bytes. Nothing is mapped there,
so no package ever comes out of the reader.
-/

namespace TsmVm

/-- A connection whose remaining bytes have all arrived. -/
structure Socket where
  /-- The bytes not read yet. -/
  stream : List UInt8
  /-- The peer has closed the connection behind them. -/
  closed : Bool
  deriving DecidableEq, Repr

/-- `read` into a buffer of `n` bytes; without data it waits for the peer. -/
def Socket.read (sock : Socket) (n : ℕ) : Res (List UInt8 × Socket) :=
  if sock.stream = [] then
    if sock.closed then .ok ([], sock) else .error .hang
  else .ok (sock.stream.take n, { sock with stream := sock.stream.drop n })

/-- `read` with a byte value in place of the buffer: no process has the first page
mapped, so the kernel answers `EFAULT` and keeps the data. -/
def Socket.readByteAddress (sock : Socket) (_addr : UInt8) : Res ℤ :=
  if sock.stream = [] then
    if sock.closed then .ok 0 else .error .hang
  else .ok (-1)

/-- The loop of `clear_buffer`; the first argument bounds the rounds, each of
which reads at least one byte. -/
def clearBufferLoop : ℕ → Socket → Res Socket
  | 0, _ => .error .hang
  | n + 1, sock => do
    let got ← sock.read 100
    if got.1 = [] then return got.2 else clearBufferLoop n got.2

/-- `clear_buffer`. -/
def clearBuffer (sock : Socket) : Res Socket := clearBufferLoop (sock.stream.length + 1) sock

/-- The first loop of `router_do_read` from field `i`, with `n` fields to go; no
result stands for the early `NULL`. The buffer is never written. -/
def routerReadFields (u : Unspec) : ℕ → ℕ → Socket → Res (Option (List ℤ) × Socket)
  | 0, _, sock => .ok (some [], sock)
  | n + 1, i, sock => do
    let nread ← sock.readByteAddress (u.stack i)
    if nread ≠ 4 then
      let sock ← clearBuffer sock
      return (none, sock)
    else
      let field ← atoi ([u.stack 0, u.stack 1, u.stack 2, u.stack 3] ++ u.behind 0)
      let rest ← routerReadFields u n (i + 1) sock
      return (rest.1.map (field :: ·), rest.2)

/-- The second loop of `router_do_read`; the first argument bounds the rounds. -/
def routerReadPayload : ℕ → Socket → Skb → ℕ → ℤ → Res (Skb × Socket)
  | 0, sock, skb, _, left => if 0 < left then .error .hang else .ok (skb, sock)
  | n + 1, sock, skb, pos, left =>
    if 0 < left then do
      let got ← sock.read left.toNat
      routerReadPayload n got.2 (skb.poke pos got.1) (pos + got.1.length) (left - got.1.length)
    else .ok (skb, sock)

/-- `router_do_read`. -/
def routerDoRead (u : Unspec) (sock : Socket) (len : ℤ) : Res (Option Skb × Socket) := do
  let fields ← routerReadFields u 2 0 sock
  match fields.1 with
  | none => return (none, fields.2)
  | some field => do
    let put ← skbPut (allocSkb (u.skb 0) (u32 len)) (u32 len)
    let skb := { put.2 with
      msgType := field.getD 0 0, session := field.getD 1 0, reason := pkgReasonNormal,
      isNew := true }
    let got ← routerReadPayload (len - 12).toNat fields.2 skb put.1 (len - 12)
    return (some got.1, got.2)

/-- The part of `router_aggregate_work` that reads a message from a connection. -/
def routerAggregateRead (u : Unspec) (sock : Socket) : Res (Option Skb × Socket) := do
  let lenBuf ← sock.read 4
  if lenBuf.1 = [] then return (none, lenBuf.2)
  else
    let len ← atoi (lenBuf.1 ++ u.behind 1)
    routerDoRead u lenBuf.2 len

/-- `(skb->msg_type>>24) == MSG_CTRL`. -/
def takenForControl (skb : Skb) : Bool := skb.msgType / 16777216 == msgCtrl

/-- The part of `router_disaggregate_work` that packs the header. -/
def routerDisaggregatePack (skb : Skb) : Res Skb := do
  let skb ← skbPushBytes skb (int2byteBE skb.session)
  let skb ← skbPushBytes skb (int2byteBE skb.msgType)
  skbPushBytes skb (int2byteBE skb.len)

/-- Reading the header fields never succeeds. -/
theorem routerReadFields_eq_ok {u : Unspec} {n i : ℕ} {sock : Socket}
    {r : Option (List ℤ) × Socket} (h : routerReadFields u (n + 1) i sock = .ok r) :
    r.1 = none := by
  obtain ⟨nread, hread, h⟩ := bind_eq_ok.mp h
  have hne : nread ≠ 4 := by
    unfold Socket.readByteAddress at hread
    split at hread
    · split at hread
      · obtain rfl := Except.ok.inj hread
        decide
      · cases hread
    · obtain rfl := Except.ok.inj hread
      decide
  rw [if_pos hne] at h
  obtain ⟨sock', -, h⟩ := bind_eq_ok.mp h
  obtain rfl : (none, sock') = r := by simpa using h
  rfl

/-- So `router_do_read` returns `NULL`, if it returns. -/
theorem routerDoRead_eq_ok {u : Unspec} {sock : Socket} {len : ℤ} {r : Option Skb × Socket}
    (h : routerDoRead u sock len = .ok r) : r.1 = none := by
  obtain ⟨fields, hfields, h⟩ := bind_eq_ok.mp h
  rw [routerReadFields_eq_ok hfields] at h
  obtain rfl : (none, fields.2) = r := by simpa using h
  rfl

/-- No message comes out of the reader, whatever arrives. -/
theorem routerAggregateRead_eq_ok {u : Unspec} {sock : Socket} {r : Option Skb × Socket}
    (h : routerAggregateRead u sock = .ok r) : r.1 = none := by
  obtain ⟨lenBuf, -, h⟩ := bind_eq_ok.mp h
  split at h
  · obtain rfl : (none, lenBuf.2) = r := by simpa using h
    rfl
  · obtain ⟨len, -, h⟩ := bind_eq_ok.mp h
    exact routerDoRead_eq_ok h

/-- The frame of a package, received in full, gives the package back. -/
def RoundTrips (u : Unspec) (skb : Skb) (rest : List UInt8) (closed : Bool) : Prop :=
  ∃ frame received sock, routerDisaggregatePack skb = .ok frame ∧
    routerAggregateRead u ⟨frame.payload ++ rest, closed⟩ = .ok (some received, sock) ∧
    received.session = skb.session ∧ received.msgType = skb.msgType ∧
    received.payload = skb.payload ∧ sock.stream = rest ∧
    (takenForControl received = true ↔ skb.msgType = msgCtrl)

/-- **No frame makes the round trip**, whatever it carries. -/
theorem framing_never_round_trips (u : Unspec) (skb : Skb) (rest : List UInt8) (closed : Bool) :
    ¬ RoundTrips u skb rest closed := by
  rintro ⟨frame, received, sock, -, hread, -⟩
  have hnone := routerAggregateRead_eq_ok hread
  cases hnone

/-- A reply of one byte for session 7, with room for the header. -/
def oneByteReply : Skb :=
  { newPackage 1 7 (List.replicate 12 0 ++ [0x2A]) with data := 12, len := 1 }

theorem oneByteReply_layout : oneByteReply.Layout ([] ++ List.replicate 12 0) [0x2A] [] := by
  constructor <;> rfl

/-- Its frame is dropped by the reader. -/
theorem framing_fails : ¬ ∀ (u : Unspec) (skb : Skb) (front old body room rest : List UInt8)
    (closed : Bool), skb.Layout (front ++ old) body room → old.length = 12 →
      RoundTrips u skb rest closed := by
  intro h
  obtain ⟨frame, received, sock, -, hread, -⟩ :=
    h plainUnspec oneByteReply _ _ _ _ [] true oneByteReply_layout rfl
  have hnone := routerAggregateRead_eq_ok hread
  cases hnone

end TsmVm
