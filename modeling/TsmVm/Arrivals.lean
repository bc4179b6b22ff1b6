import TsmVm.Router
import Mathlib.Data.List.Nodup
import Mathlib.Data.List.Perm.Subperm

/-!
# The events of the reader (`router_aggregate_work`)

Sockets report an event once for everything that has arrived since the last one.
The reader takes one message for each event. A read into what is meant to be a
buffer fails, the connection is then read until the peer closes it, and what was
read is dropped. So where anything has arrived on a socket when its event is
handled, it is lost; the arrivals, the closing of a connection and the reads of
the reader may come in any order.
-/

namespace TsmVm

/-- A message on its way to the router. -/
structure Frame where
  /-- Kind of message. -/
  msgType : ℤ
  /-- Session. -/
  session : ℤ
  /-- What it carries. -/
  payload : List UInt8
  deriving DecidableEq

/-- The bytes of a message, as the writer frames them. -/
def Frame.bytes (f : Frame) : List UInt8 :=
  int2byteBE (f.payload.length + 8 : ℕ) ++ int2byteBE f.msgType ++ int2byteBE f.session ++ f.payload

/-- `read` on a socket that does not block: the return value, the bytes, and the
socket afterwards. -/
def Socket.readNow (sock : Socket) (n : ℕ) : ℤ × List UInt8 × Socket :=
  if sock.stream = [] then (if sock.closed then 0 else -1, [], sock)
  else ((sock.stream.take n).length, sock.stream.take n,
    { sock with stream := sock.stream.drop n })

/-- The same with a byte value in place of the buffer: the kernel answers `EFAULT`
and keeps the data. -/
def Socket.readNowByteAddress (sock : Socket) (_addr : UInt8) : ℤ :=
  if sock.stream = [] then (if sock.closed then 0 else -1) else -1

/-- A connection that is registered with `EPOLLIN|EPOLLET`. -/
structure Conn where
  /-- The bytes that have arrived, and whether the peer has closed. -/
  sock : Socket
  /-- An event is to be reported. -/
  edge : Bool
  /-- The messages that have arrived, oldest first. -/
  arrived : List Frame
  /-- Those that had arrived when an event was handled last. -/
  due : List Frame
  /-- Those that have been read and processed. -/
  processed : List Frame

/-- Messages arrive, all in one event. -/
def Conn.arrive (c : Conn) (frames : List Frame) : Conn :=
  { c with
    sock := { c.sock with stream := c.sock.stream ++ frames.flatMap Frame.bytes },
    edge := true, arrived := c.arrived ++ frames }

/-- The peer closes the connection. -/
def Conn.close (c : Conn) : Conn := { c with sock := { c.sock with closed := true }, edge := true }

/-- Where the reader stands, with the sockets whose events are left. -/
inductive AggPc
  /-- Before `monitor_wait_event`. -/
  | wait
  /-- Before the next event. -/
  | events (fds : List ℕ)
  /-- Before the length is read. -/
  | length (fd : ℕ) (fds : List ℕ)
  /-- In the first loop of `router_do_read`, with the fields read so far. -/
  | fields (fd : ℕ) (fds : List ℕ) (len : ℤ) (field : List ℤ)
  /-- In the second loop of `router_do_read`. -/
  | payload (fd : ℕ) (fds : List ℕ) (skb : Skb) (pos left : ℤ)
  /-- Before the message is processed. -/
  | process (fd : ℕ) (fds : List ℕ) (skb : Skb)
  /-- In `clear_buffer`. -/
  | clear (fd : ℕ) (fds : List ℕ)

/-- The reader and the connections, by socket. -/
structure AggState where
  /-- The connections. -/
  conns : ℕ → Conn
  /-- The place in the code. -/
  pc : AggPc

/-- What happens to a connection, or in the reader. -/
inductive AggAct
  | arrive (fd : ℕ) (frames : List Frame)
  | close (fd : ℕ)
  | wait (fds : List ℕ)
  | handle (fd : ℕ)
  | read (fd : ℕ)
  | process (fd : ℕ)
  | again

/-- The steps of the connections and of the reader. -/
inductive AggStep : AggState → AggAct → AggState → Prop
  | arrive {conns : ℕ → Conn} {pc : AggPc} {fd : ℕ} {frames : List Frame} (hne : frames ≠ [])
      (hopen : (conns fd).sock.closed = false) :
      AggStep ⟨conns, pc⟩ (.arrive fd frames)
        ⟨Function.update conns fd ((conns fd).arrive frames), pc⟩
  | close {conns : ℕ → Conn} {pc : AggPc} {fd : ℕ} :
      AggStep ⟨conns, pc⟩ (.close fd) ⟨Function.update conns fd (conns fd).close, pc⟩
  | wait {conns : ℕ → Conn} {fds : List ℕ} (hne : fds ≠ []) (hnodup : fds.Nodup)
      (hedge : ∀ fd ∈ fds, (conns fd).edge = true) :
      AggStep ⟨conns, .wait⟩ (.wait fds)
        ⟨fun fd => if fd ∈ fds then { conns fd with edge := false } else conns fd, .events fds⟩
  | again {conns : ℕ → Conn} : AggStep ⟨conns, .events []⟩ .again ⟨conns, .wait⟩
  | handle {conns : ℕ → Conn} {fd : ℕ} {fds : List ℕ} :
      AggStep ⟨conns, .events (fd :: fds)⟩ (.handle fd)
        ⟨Function.update conns fd { conns fd with due := (conns fd).arrived }, .length fd fds⟩
  -- an error and the end of the stream lead to the next event
  | lengthFailed {conns : ℕ → Conn} {fd : ℕ} {fds : List ℕ}
      (hread : ((conns fd).sock.readNow 4).1 ≤ 0) :
      AggStep ⟨conns, .length fd fds⟩ (.read fd) ⟨conns, .events fds⟩
  | length {conns : ℕ → Conn} {fd : ℕ} {fds : List ℕ} {u : Unspec} {len : ℤ}
      (hread : 0 < ((conns fd).sock.readNow 4).1)
      (hlen : atoi (((conns fd).sock.readNow 4).2.1 ++ u.behind 1) = .ok len) :
      AggStep ⟨conns, .length fd fds⟩ (.read fd)
        ⟨Function.update conns fd { conns fd with sock := ((conns fd).sock.readNow 4).2.2 },
          .fields fd fds len []⟩
  | fieldFailed {conns : ℕ → Conn} {fd : ℕ} {fds : List ℕ} {u : Unspec} {len : ℤ} {field : List ℤ}
      (hfield : field.length < 2)
      (hread : (conns fd).sock.readNowByteAddress (u.stack field.length) ≠ 4) :
      AggStep ⟨conns, .fields fd fds len field⟩ (.read fd) ⟨conns, .clear fd fds⟩
  | field {conns : ℕ → Conn} {fd : ℕ} {fds : List ℕ} {u : Unspec} {len v : ℤ} {field : List ℤ}
      (hfield : field.length < 2)
      (hread : (conns fd).sock.readNowByteAddress (u.stack field.length) = 4)
      (hv : atoi ([u.stack 0, u.stack 1, u.stack 2, u.stack 3] ++ u.behind 0) = .ok v) :
      AggStep ⟨conns, .fields fd fds len field⟩ (.read fd)
        ⟨conns, .fields fd fds len (field ++ [v])⟩
  | alloc {conns : ℕ → Conn} {fd : ℕ} {fds : List ℕ} {u : Unspec} {len msgType session : ℤ}
      {put : ℕ × Skb} (hput : skbPut (allocSkb (u.skb 0) (u32 len)) (u32 len) = .ok put) :
      AggStep ⟨conns, .fields fd fds len [msgType, session]⟩ (.read fd)
        ⟨conns, .payload fd fds { put.2 with
          msgType := msgType, session := session, reason := pkgReasonNormal, isNew := true }
          put.1 (len - 12)⟩
  -- an error makes the pointer go back by one byte
  | payload {conns : ℕ → Conn} {fd : ℕ} {fds : List ℕ} {skb : Skb} {pos left : ℤ}
      (hleft : 0 < left) :
      AggStep ⟨conns, .payload fd fds skb pos left⟩ (.read fd)
        ⟨Function.update conns fd
            { conns fd with sock := ((conns fd).sock.readNow left.toNat).2.2 },
          .payload fd fds (skb.poke pos.toNat ((conns fd).sock.readNow left.toNat).2.1)
            (pos + ((conns fd).sock.readNow left.toNat).1)
            (left - ((conns fd).sock.readNow left.toNat).1)⟩
  | payloadDone {conns : ℕ → Conn} {fd : ℕ} {fds : List ℕ} {skb : Skb} {pos left : ℤ}
      (hleft : left ≤ 0) :
      AggStep ⟨conns, .payload fd fds skb pos left⟩ (.read fd) ⟨conns, .process fd fds skb⟩
  | process {conns : ℕ → Conn} {fd : ℕ} {fds : List ℕ} {skb : Skb} :
      AggStep ⟨conns, .process fd fds skb⟩ (.process fd)
        ⟨Function.update conns fd { conns fd with
            processed := (conns fd).processed ++ [⟨skb.msgType, skb.session, skb.payload⟩] },
          .events fds⟩
  | clear {conns : ℕ → Conn} {fd : ℕ} {fds : List ℕ}
      (hread : ((conns fd).sock.readNow 100).1 ≠ 0) :
      AggStep ⟨conns, .clear fd fds⟩ (.read fd)
        ⟨Function.update conns fd { conns fd with sock := ((conns fd).sock.readNow 100).2.2 },
          .clear fd fds⟩
  | cleared {conns : ℕ → Conn} {fd : ℕ} {fds : List ℕ}
      (hread : ((conns fd).sock.readNow 100).1 = 0) :
      AggStep ⟨conns, .clear fd fds⟩ (.read fd) ⟨conns, .events fds⟩

/-- A connection on which nothing has happened. -/
def Conn.idle : Conn := ⟨⟨[], false⟩, false, [], [], []⟩

/-- The reader with its connections; at the start nothing has happened. -/
def aggSystem : Lts.System AggState AggAct where
  init s := s = ⟨fun _ => .idle, .wait⟩
  step := AggStep

/-- What had arrived on a socket before its event was handled has been read and
processed. -/
def FramesProcessed (s : AggState) : Prop :=
  ∀ fd, (s.conns fd).due.Subperm (s.conns fd).processed

/-- Nothing had arrived on any socket when its event was handled last. -/
def NothingDue (s : AggState) : Prop := ∀ fd, (s.conns fd).due = []

/-- An event is handled only where no message has arrived. -/
def HandlesNothing (s : AggState) : AggAct → Prop
  | .handle fd => (s.conns fd).arrived = []
  | _ => True

/-- The reader has got past the fields of a message. -/
def AggPc.PastFields : AggPc → Prop
  | .fields _ _ _ field => field ≠ []
  | .payload _ _ _ _ _ | .process _ _ _ => True
  | _ => False

/-- Nothing is ever read as it should be. -/
structure NothingRead (s : AggState) : Prop where
  /-- No message has been processed. -/
  processed : ∀ fd, (s.conns fd).processed = []
  /-- None is about to be. -/
  pc : ¬ s.pc.PastFields

/-- A read to an address below 256 never returns four bytes. -/
theorem readNowByteAddress_ne_four (sock : Socket) (addr : UInt8) :
    sock.readNowByteAddress addr ≠ 4 := by
  unfold Socket.readNowByteAddress
  split
  · split <;> decide
  · decide

/-- What holds of the connection that changes and of the others holds of all. -/
theorem forall_conn_update {conns : ℕ → Conn} {P : Conn → Prop} (h : ∀ fd, P (conns fd)) {fd : ℕ}
    {c : Conn} (hc : P c) : ∀ fd', P (Function.update conns fd c fd') :=
  (Function.forall_update_iff conns fun _ c => P c).mpr ⟨hc, fun fd' _ => h fd'⟩

/-- Every step keeps it so. -/
theorem NothingRead.step {s s' : AggState} {a : AggAct} (hinv : NothingRead s)
    (h : AggStep s a s') : NothingRead s' := by
  cases h with
  | @arrive conns pc fd frames | @close conns pc fd =>
    exact ⟨forall_conn_update (P := fun c => c.processed = []) hinv.processed (hinv.processed fd),
      hinv.pc⟩
  | @wait conns fds hne hnodup hedge =>
    refine ⟨fun fd => ?_, id⟩
    dsimp only
    split
    · exact hinv.processed fd
    · exact hinv.processed fd
  | @handle conns fd | @length conns fd | @clear conns fd =>
    refine ⟨forall_conn_update (P := fun c => c.processed = []) hinv.processed (hinv.processed fd),
      ?_⟩
    simp [AggPc.PastFields]
  | again | lengthFailed | fieldFailed | cleared => exact ⟨hinv.processed, id⟩
  | field hfield hread => exact absurd hread (readNowByteAddress_ne_four _ _)
  | alloc => exact absurd (List.cons_ne_nil _ _) hinv.pc
  | payload | payloadDone | process => exact absurd trivial hinv.pc

/-- In every run. -/
theorem nothingRead_of_reachable {s : AggState} (h : Lts.Reachable aggSystem s) :
    NothingRead s := by
  refine h.invariant ?_ NothingRead.step
  rintro s rfl
  exact ⟨fun _ => rfl, id⟩

/-- What is due was there when an event was handled. -/
theorem NothingDue.step {s s' : AggState} {a : AggAct} (hinv : NothingDue s)
    (hok : HandlesNothing s a) (h : AggStep s a s') : NothingDue s' := by
  cases h with
  | @arrive conns pc fd | @close conns pc fd | @length conns fd | @payload conns fd
  | @process conns fd | @clear conns fd =>
    exact forall_conn_update (P := fun c => c.due = []) hinv (hinv fd)
  | @wait conns fds hne hnodup hedge =>
    intro fd
    dsimp only
    split
    · exact hinv fd
    · exact hinv fd
  | @handle conns fd => exact forall_conn_update (P := fun c => c.due = []) hinv hok
  | _ => exact hinv

theorem framesProcessed_iff {s : AggState} (h : Lts.Reachable aggSystem s) :
    FramesProcessed s ↔ NothingDue s := by
  have hinv := nothingRead_of_reachable h
  apply forall_congr'
  intro fd
  rw [hinv.processed fd, List.subperm_nil]

/-- **Events.** Whenever the reader is about to wait again, what had arrived before
its event was handled has been processed exactly if there was nothing; so it is
in the runs in which no event is handled while a message is there. -/
theorem frames_processed_iff (s : AggState) :
    (Lts.Reachable (Lts.restrict aggSystem HandlesNothing) s → s.pc = .wait →
      FramesProcessed s) ∧
    (Lts.Reachable aggSystem s → s.pc = .wait → (FramesProcessed s ↔ NothingDue s)) := by
  refine ⟨?_, fun h _ => framesProcessed_iff h⟩
  intro h _
  have hdue : NothingDue s := by
    refine h.invariant ?_ fun hinv hstep => hinv.step hstep.1 hstep.2
    rintro s rfl fd
    rfl
  obtain ⟨s₀, ls, hinit, hrun⟩ := h
  exact (framesProcessed_iff ⟨s₀, ls, hinit, hrun.of_restrict⟩).mpr hdue

/-! ## A message and the end of the connection -/

/-- The reader with a single connection that is not idle. -/
def onlyConn (c : Conn) (pc : AggPc) : AggState := ⟨Function.update (fun _ => .idle) 5 c, pc⟩

/-- A message of one byte. -/
def oneByteFrame : Frame := ⟨msgData, 7, [0x2A]⟩

/-- The connection when the message has arrived and the peer has closed. -/
def closedConn : Conn := (Conn.idle.arrive [oneByteFrame]).close

/-- The same when its event is handled, with some bytes left. -/
def handledConn (stream : List UInt8) : Conn :=
  { closedConn with sock := ⟨stream, true⟩, edge := false, due := [oneByteFrame] }

/-- A step at the only connection leaves a single connection. -/
theorem onlyConn_update (c c' : Conn) (pc : AggPc) :
    (⟨Function.update (Function.update (fun _ => .idle) 5 c) 5 c', pc⟩ : AggState) =
      onlyConn c' pc := by
  simp [onlyConn]

/-- The message arrives, and then the end of the connection. -/
theorem run_closedConn : Lts.Run aggSystem ⟨fun _ => .idle, .wait⟩
    [.arrive 5 [oneByteFrame], .close 5] (onlyConn closedConn .wait) := by
  have harrive : AggStep ⟨fun _ => .idle, .wait⟩ (.arrive 5 [oneByteFrame])
      (onlyConn (Conn.idle.arrive [oneByteFrame]) .wait) := .arrive (by simp) rfl
  have hclose := @AggStep.close
    (Function.update (fun _ => .idle) 5 (Conn.idle.arrive [oneByteFrame])) .wait 5
  rw [Function.update_self, onlyConn_update] at hclose
  exact .cons (m := aggSystem) harrive (.single hclose)

/-- Its event is reported and handled. -/
theorem run_handledConn : Lts.Run aggSystem (onlyConn closedConn .wait) [.wait [5], .handle 5]
    (onlyConn (handledConn oneByteFrame.bytes) (.length 5 [])) := by
  have hwait : AggStep (onlyConn closedConn .wait) (.wait [5])
      (onlyConn { closedConn with edge := false } (.events [5])) := by
    have hedge : ∀ fd ∈ [5], ((onlyConn closedConn .wait).conns fd).edge = true := by
      intro fd hfd
      obtain rfl := List.mem_singleton.mp hfd
      rfl
    have hstep := AggStep.wait (List.cons_ne_nil 5 []) (List.nodup_singleton 5) hedge
    have hconns : (fun fd => if fd ∈ [5] then
          { (onlyConn closedConn .wait).conns fd with edge := false }
        else (onlyConn closedConn .wait).conns fd) =
        Function.update (fun _ => .idle) 5 { closedConn with edge := false } := by
      funext fd
      by_cases hfd : fd = 5
      · subst hfd
        simp [onlyConn]
      · simp [onlyConn, hfd]
    rw [hconns] at hstep
    exact hstep
  have hhandle := @AggStep.handle
    (Function.update (fun _ => .idle) 5 { closedConn with edge := false }) 5 []
  rw [Function.update_self, onlyConn_update] at hhandle
  exact .cons (m := aggSystem) hwait (.single hhandle)

/-- The length is read, the next field is not, and the rest is dropped. -/
theorem run_lost : Lts.Run aggSystem (onlyConn (handledConn oneByteFrame.bytes) (.length 5 []))
    [.read 5, .read 5, .read 5, .read 5, .again] (onlyConn (handledConn []) .wait) := by
  have hlength := @AggStep.length
    (Function.update (fun _ => .idle) 5 (handledConn oneByteFrame.bytes)) 5 [] plainUnspec 0
  rw [Function.update_self, onlyConn_update] at hlength
  have hfield := @AggStep.fieldFailed
    (Function.update (fun _ => .idle) 5 (handledConn (oneByteFrame.bytes.drop 4))) 5 [] plainUnspec
    0 [] (by simp) (readNowByteAddress_ne_four _ _)
  have hclear := @AggStep.clear
    (Function.update (fun _ => .idle) 5 (handledConn (oneByteFrame.bytes.drop 4))) 5 []
  rw [Function.update_self, onlyConn_update] at hclear
  have hcleared := @AggStep.cleared (Function.update (fun _ => .idle) 5 (handledConn [])) 5 []
  rw [Function.update_self] at hcleared
  exact .cons (m := aggSystem) (hlength (by decide) rfl) <| .cons (m := aggSystem) hfield <|
    .cons (m := aggSystem) (hclear (by decide)) <| .cons (m := aggSystem) (hcleared rfl) <|
    .single (m := aggSystem) AggStep.again

/-- The reader waits again, and the message is gone. -/
theorem reachable_lost : Lts.Reachable aggSystem (onlyConn (handledConn []) .wait) :=
  ⟨_, _, rfl, (run_closedConn.append run_handledConn).append run_lost⟩

/-- A message that arrives alone is left behind. -/
theorem frames_left_behind : ¬ ∀ s : AggState, Lts.Reachable aggSystem s → s.pc = .wait →
    FramesProcessed s := by
  intro h
  have hdue := (framesProcessed_iff reachable_lost).mp (h _ reachable_lost rfl)
  have hlost : [oneByteFrame] = ([] : List Frame) := hdue 5
  cases hlost

end TsmVm
