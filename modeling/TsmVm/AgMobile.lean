import TsmVm.Arrivals
import TsmVm.ScriptLines

/-!
# The mobile agent (`ag_mobile.c`, `ag_mobile_core.c`)

A frame starts with a byte, its complement and a length in two bytes. The agent
compares the first byte with the complement of the second one as an `int`, which is
negative, so it closes every connection it reads from; and what it queues then is
`NULL`. A message in a frame may carry a CRC, which is computed and not compared.
-/

namespace TsmVm

/-! ## Frames -/

/-- `ag_mobile_t`, with the descriptors it monitors. -/
structure AgMobile where
  rqTerminal : List Skb
  rqRouter : List Skb
  semTerminal : ℕ
  semRouter : ℕ
  fifoR : ℤ
  monitored : List ℤ

/-- `close` and `monitor_del_event`. -/
def AgMobile.close (agent : AgMobile) (fd : ℤ) : AgMobile :=
  { agent with monitored := agent.monitored.erase fd }

/-- `do_read`, where `len_buf` is not initialised. -/
def doRead (u : Unspec) (agent : AgMobile) (fd : ℤ) (sock : Socket) :
    Res (Option Skb × AgMobile × Socket) := do
  let got := sock.readNow 4
  let lenBuf := got.2.1 ++ ((List.range 4).map u.stack).drop got.2.1.length
  if got.1 = -1 then return (none, agent.close fd, got.2.2)
  else if got.1 = 0 then return (none, agent.close fd, got.2.2)
  else
    let b0 ← byteAt lenBuf 0
    let b1 ← byteAt lenBuf 1
    let b2 ← byteAt lenBuf 2
    let b3 ← byteAt lenBuf 3
    if (b0.toNat : ℤ) = ~~~(b1.toNat : ℤ) then
      let len := ((b2.toNat &&& 255) <<< 8) ||| (b3.toNat &&& 255)
      let put ← skbPut (allocSkb (u.skb 0) len) len
      let data := got.2.2.readNow len
      return (some (put.2.poke put.1 data.2.1), agent, data.2.2)
    else return (none, agent.close fd, got.2.2)

/-- `skb_queue_tail`. -/
def skbQueueTail (list : List Skb) : Option Skb → Res (List Skb)
  | none => .error .nullDeref
  | some newsk => .ok (list ++ [newsk])

/-- What `main` does when there is something to read. -/
def agMobileEvent (u : Unspec) (agent : AgMobile) (fd : ℤ) (sock : Socket) :
    Res (AgMobile × Socket) := do
  let r ← doRead u agent fd sock
  let agent := r.2.1
  if r.1 = none then
    if fd = agent.fifoR then
      let rq ← skbQueueTail agent.rqRouter r.1
      return ({ agent with rqRouter := rq, semRouter := agent.semRouter + 1 }, r.2.2)
    else
      let rq ← skbQueueTail agent.rqTerminal r.1
      return ({ agent with rqTerminal := rq, semTerminal := agent.semTerminal + 1 }, r.2.2)
  else return (agent, r.2.2)

/-- A frame for the agent. -/
structure MobileFrame where
  h0 : UInt8
  h1 : UInt8
  h2 : UInt8
  h3 : UInt8
  payload : List UInt8
  /-- If the header is one, it announces the payload. -/
  whole : h0 = ~~~h1 → payload.length = h2.toNat * 256 + h3.toNat

/-- The bytes of a frame. -/
def MobileFrame.bytes (f : MobileFrame) : List UInt8 := [f.h0, f.h1, f.h2, f.h3] ++ f.payload

/-- A package is put on the queue for what reads the descriptor. -/
def AgMobile.enqueue (agent : AgMobile) (fd : ℤ) (skb : Skb) : AgMobile :=
  if fd = agent.fifoR then
    { agent with rqRouter := agent.rqRouter ++ [skb], semRouter := agent.semRouter + 1 }
  else { agent with rqTerminal := agent.rqTerminal ++ [skb], semTerminal := agent.semTerminal + 1 }

/-- The agent deals with a frame that can be read as a whole: it queues the payload, or
closes the connection if the header is none. -/
def HandlesFrame (u : Unspec) (agent : AgMobile) (fd : ℤ) (f : MobileFrame)
    (rest : List UInt8) (closed : Bool) : Prop :=
  if f.h0 = ~~~f.h1 then
    ∃ skb, skb.payload = f.payload ∧
      doRead u agent fd ⟨f.bytes ++ rest, closed⟩ = .ok (some skb, agent, ⟨rest, closed⟩) ∧
      agMobileEvent u agent fd ⟨f.bytes ++ rest, closed⟩ =
        .ok (agent.enqueue fd skb, ⟨rest, closed⟩)
  else ∃ sock, agMobileEvent u agent fd ⟨f.bytes ++ rest, closed⟩ = .ok (agent.close fd, sock)

/-- A byte is never the complement of a byte, as an `int`. -/
theorem byte_ne_complement (b c : UInt8) : (b.toNat : ℤ) ≠ ~~~(c.toNat : ℤ) := by
  intro h
  have hneg : ~~~(c.toNat : ℤ) = Int.negSucc c.toNat := rfl
  rw [hneg, Int.negSucc_eq] at h
  omega

/-- `do_read` closes the connection, whatever it reads. -/
theorem doRead_closes (u : Unspec) (agent : AgMobile) (fd : ℤ) (sock : Socket) :
    ∃ sock', doRead u agent fd sock = .ok (none, agent.close fd, sock') := by
  have hgot : (sock.readNow 4).2.1.length ≤ 4 := by
    unfold Socket.readNow
    split
    · exact Nat.zero_le 4
    · exact List.length_take_le 4 sock.stream
  unfold doRead
  dsimp only
  split
  · exact ⟨_, rfl⟩
  split
  · exact ⟨_, rfl⟩
  set lenBuf := (sock.readNow 4).2.1 ++
    ((List.range 4).map u.stack).drop (sock.readNow 4).2.1.length with hbuf
  have hlength : lenBuf.length = 4 := by
    simp only [hbuf, List.length_append, List.length_drop, List.length_map, List.length_range]
    omega
  have hbyte : ∀ i : ℕ, i < 4 → ∃ b, byteAt lenBuf i = .ok b := by
    intro i hi
    apply exists_byteAt
    omega
  obtain ⟨b0, hb0⟩ := hbyte 0 (by omega)
  obtain ⟨b1, hb1⟩ := hbyte 1 (by omega)
  obtain ⟨b2, hb2⟩ := hbyte 2 (by omega)
  obtain ⟨b3, hb3⟩ := hbyte 3 (by omega)
  push_cast at hb0 hb1 hb2 hb3
  simp only [hb0, hb1, hb2, hb3, ok_bind, if_neg (byte_ne_complement b0 b1)]
  exact ⟨_, rfl⟩

/-- What `main` queues then is `NULL`. -/
theorem agMobileEvent_stops (u : Unspec) (agent : AgMobile) (fd : ℤ) (sock : Socket) :
    agMobileEvent u agent fd sock = .error .nullDeref := by
  obtain ⟨sock', hread⟩ := doRead_closes u agent fd sock
  unfold agMobileEvent
  rw [hread]
  simp only [ok_bind, if_true, skbQueueTail, error_bind, ite_self]

/-- **Frames.** The agent deals with none. -/
theorem frame_never_handled (u : Unspec) (agent : AgMobile) (fd : ℤ) (f : MobileFrame)
    (rest : List UInt8) (closed : Bool) : ¬ HandlesFrame u agent fd f rest closed := by
  unfold HandlesFrame
  rw [agMobileEvent_stops]
  split
  · rintro ⟨skb, -, -, hevent⟩
    cases hevent
  · rintro ⟨sock, hevent⟩
    cases hevent

/-- A frame with one byte on a terminal's connection. -/
def sampleFrame : MobileFrame := ⟨0x5a, 0xa5, 0, 1, [7], by decide⟩

/-- The frame is dropped, and the agent stops. -/
theorem frame_not_handled : ¬ ∀ (u : Unspec) (agent : AgMobile) (fd : ℤ) (f : MobileFrame)
    (rest : List UInt8) (closed : Bool), HandlesFrame u agent fd f rest closed := by
  intro h
  obtain ⟨skb, -, -, hevent⟩ := h plainUnspec ⟨[], [], 0, 0, 3, [3, 5]⟩ 5 sampleFrame [] false
  rw [agMobileEvent_stops] at hevent
  cases hevent

/-! ## Messages -/

/-- `MSG_CRC_LEN`. -/
def msgCrcLen : ℕ := 2

/-- `CRYPTO_NONE`. -/
def cryptoNone : UInt8 := 0

/-- `CHECK_MAC`. -/
def checkMac : UInt8 := 1

/-- `CHECK_CRC16`. -/
def checkCrc16 : UInt8 := 2

/-- `msg_head_t`. -/
structure MsgHead where
  ver : UInt8
  ctrl : UInt8
  sLevel : UInt8
  iLevel : UInt8
  seq : ℤ
  session : ℤ

/-- `msg_head_handling`: nothing for -1. The numbers are read as decimal texts, if need
be from behind the block. -/
def msgHeadHandling (u : Unspec) (skb : Skb) : Res (Option MsgHead) :=
  if skb.len < msgHeadLen then .ok none
  else do
    let ver ← skb.byte skb.data
    let ctrl ← skb.byte (skb.data + 1)
    let sLevel ← skb.byte (skb.data + 2)
    let iLevel ← skb.byte (skb.data + 3)
    let seq ← atoi (skb.buff.drop (skb.data + 4) ++ u.behind 0)
    let session ← atoi (skb.buff.drop (skb.data + 8) ++ u.behind 0)
    return some { ver := ver, ctrl := ctrl, sLevel := sLevel, iLevel := iLevel, seq := seq,
                  session := session }

/-- `end[-k]`, where `end` is a pointer to `char`. -/
def msgTailChar (skb : Skb) (k : ℕ) : Res Int32 := do
  let b ← byteAt skb.buff ((skb.data : ℤ) + skb.len - k)
  return b.toInt8.toInt32

/-- `msg_tail_handling`. Both conditions are for the same level. -/
def msgTailHandling (skb : Skb) (iLevel : UInt8) : Res Int32 := do
  let result : Int32 := 0
  let result ← (if iLevel = checkMac then do
      let c4 ← msgTailChar skb 4
      let c3 ← msgTailChar skb 3
      let c2 ← msgTailChar skb 2
      let c1 ← msgTailChar skb 1
      return (c4 <<< 24) ||| (c3 <<< 16) ||| (c2 <<< 8) ||| c1
    else .ok result : Res Int32)
  if iLevel = checkMac then
    let c2 ← msgTailChar skb 2
    let c1 ← msgTailChar skb 1
    return (c2 <<< 8) ||| c1
  else return result

/-- `msg_handling`. After the `switch` it returns nothing: its caller finds whatever is
in the register. -/
def msgHandling (u : Unspec) (crc16 : List UInt8 → UInt16) (skb : Skb) : Res ℤ := do
  let head ← msgHeadHandling u skb
  match head with
  | none => return -1
  | some head =>
    if head.iLevel = cryptoNone then return u.ret
    else if head.iLevel = checkMac then return u.ret
    else if head.iLevel = checkCrc16 then
      let tail ← msgTailHandling skb head.iLevel
      let _crcRcv := tail.toInt16.toUInt16
      let data ← memRead skb.buff skb.data ((skb.len : ℤ) - msgCrcLen)
      let _crcCal := crc16 data
      return u.ret
    else return -1

/-- A message with a CRC in the last two bytes. -/
structure CrcMessage where
  /-- What is in front of the CRC. -/
  front : List UInt8
  hi : UInt8
  lo : UInt8
  /-- The header is complete. -/
  length_le : 12 ≤ front.length
  /-- The integrity level is that of a CRC. -/
  level : front[3]? = some checkCrc16

/-- The buffer of a message, with what is in front of and behind it in the block. -/
def CrcMessage.skb (m : CrcMessage) (junk : Skb) (head room : List UInt8) : Skb :=
  { junk with
    buff := head ++ (m.front ++ [m.hi, m.lo]) ++ room, data := head.length,
    tail := head.length + (m.front.length + 2), len := m.front.length + 2 }

/-- The message is accepted if and only if its CRC is right. -/
def ChecksCrc (crc16 : List UInt8 → UInt16) (m : CrcMessage) (junk : Skb)
    (head room : List UInt8) : Prop :=
  ∀ u : Unspec, msgHandling u crc16 (m.skb junk head room) = .ok 0 ↔
    m.hi.toNat * 256 + m.lo.toNat = (crc16 m.front).toNat

/-- What is left open, with a terminator behind the block and a value in the register. -/
def terminatedUnspec (ret : ℤ) : Unspec :=
  { plainUnspec with behind := fun _ => [0], ret := ret }

namespace CrcMessage

variable (m : CrcMessage) (junk : Skb) (head room : List UInt8)

/-- The message is the payload of its buffer. -/
theorem layout : (m.skb junk head room).Layout head (m.front ++ [m.hi, m.lo]) room := by
  constructor <;> simp [skb]

/-- The header is read, with the level of a CRC. -/
theorem msgHeadHandling_eq (ret : ℤ) :
    ∃ h, msgHeadHandling (terminatedUnspec ret) (m.skb junk head room) = .ok (some h) ∧
      h.iLevel = checkCrc16 := by
  have hfront := m.length_le
  have hbyte : ∀ i b, m.front[i]? = some b →
      (m.skb junk head room).byte ((m.skb junk head room).data + i) = .ok b := by
    intro i b hb
    apply (m.layout junk head room).byte_eq
    rw [List.append_assoc, List.getElem?_append_left (List.getElem?_eq_some_iff.mp hb).1]
    exact hb
  have h0 := hbyte 0 m.front[0] (List.getElem?_eq_getElem (by omega))
  have h1 := hbyte 1 m.front[1] (List.getElem?_eq_getElem (by omega))
  have h2 := hbyte 2 m.front[2] (List.getElem?_eq_getElem (by omega))
  have h3 := hbyte 3 checkCrc16 m.level
  have hnumber : ∀ k, ∃ v, atoi ((m.skb junk head room).buff.drop k ++ [0]) = .ok v :=
    fun k => ⟨_, atoi_eq endsNumber_zero _ []⟩
  obtain ⟨seq, hseq⟩ := hnumber ((m.skb junk head room).data + 4)
  obtain ⟨session, hsession⟩ := hnumber ((m.skb junk head room).data + 8)
  have hlong : ¬ (m.skb junk head room).len < msgHeadLen := by
    simp only [skb, msgHeadLen]
    omega
  rw [Nat.add_zero] at h0
  unfold msgHeadHandling
  rw [if_neg hlong]
  simp only [terminatedUnspec, h0, h1, h2, h3, hseq, hsession, ok_bind]
  exact ⟨_, rfl, rfl⟩

/-- What is in front of the CRC can be read. -/
theorem memRead_front : ∃ data, memRead (m.skb junk head room).buff (m.skb junk head room).data
    (((m.skb junk head room).len : ℤ) - msgCrcLen) = .ok data := by
  have hfront := m.length_le
  have hlen : (((m.skb junk head room).len : ℤ) - msgCrcLen) = m.front.length := by
    simp [skb, msgCrcLen]
  have hfit : m.front.length ≤ ((m.skb junk head room).buff.drop
      (m.skb junk head room).data).length := by
    rw [List.length_drop]
    simp only [skb, List.length_append, List.length_cons, List.length_nil]
    omega
  rw [hlen, memRead_natCast, if_pos hfit]
  exact ⟨_, rfl⟩

/-- The message gets to the end of the function. -/
theorem msgHandling_falls_off (crc16 : List UInt8 → UInt16) (ret : ℤ) :
    msgHandling (terminatedUnspec ret) crc16 (m.skb junk head room) = .ok ret := by
  obtain ⟨h, hhead, hlevel⟩ := m.msgHeadHandling_eq junk head room ret
  obtain ⟨data, hdata⟩ := m.memRead_front junk head room
  have htail : msgTailHandling (m.skb junk head room) checkCrc16 = .ok 0 := rfl
  unfold msgHandling
  simp only [hhead, ok_bind, hlevel]
  rw [if_neg (by decide), if_neg (by decide), if_pos trivial, htail, ok_bind, hdata]
  rfl

end CrcMessage

/-- **The integrity check.** No message is checked: with either value in the register,
one of them decides wrongly. -/
theorem crc_never_checked (crc16 : List UInt8 → UInt16) (m : CrcMessage) (junk : Skb)
    (head room : List UInt8) : ¬ ChecksCrc crc16 m junk head room := by
  intro h
  by_cases hcrc : m.hi.toNat * 256 + m.lo.toNat = (crc16 m.front).toNat
  · have hone := (h (terminatedUnspec 1)).mpr hcrc
    rw [m.msgHandling_falls_off] at hone
    exact absurd (Except.ok.inj hone) (by decide)
  · exact hcrc ((h (terminatedUnspec 0)).mp (m.msgHandling_falls_off junk head room crc16 0))

/-- A message with no data and a CRC of zero. -/
def sampleMessage : CrcMessage :=
  { front := [0, 0, 0, 2, 0, 0, 0, 0, 0, 0, 0, 0], hi := 0, lo := 0, length_le := by decide,
    level := rfl }

/-- Where `crc16` is never zero the message is accepted nevertheless. -/
theorem crc_not_checked : ¬ ∀ (crc16 : List UInt8 → UInt16) (m : CrcMessage) (junk : Skb)
    (head room : List UInt8), ChecksCrc crc16 m junk head room := by
  intro h
  have hzero := (h (fun _ => 1) sampleMessage (newPackage 0 0 []) [] [] (terminatedUnspec 0)).mp
    (sampleMessage.msgHandling_falls_off _ [] [] _ 0)
  exact absurd hzero (by decide)

end TsmVm
