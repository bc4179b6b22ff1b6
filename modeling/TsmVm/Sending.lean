import TsmVm.Lib.FramedStream
import TsmVm.Router

/-!
# Sending frames (`router_send`, `router_disaggregate_work`)

The writer takes one package after another, puts the header in front of it,
looks up the socket of its agent and writes the frame. A write that returns
nothing and leaves an error ends the sending of the frame, whatever was sent of
it, and nobody is told. What the kernel answers is an input of the model, and so
is whether a mutex can be locked again by the thread that holds it: the writer
leaves the agents locked behind every agent it finds.
-/

namespace TsmVm

open FramedStream

/-- What `write` returns, and what `errno` holds then. -/
structure WriteAnswer where
  /-- The return value; a positive one is cut to the number of bytes asked for. -/
  ret : ℤ
  /-- The value of `errno`, which a write that succeeds leaves as it was. -/
  errno : ℤ

/-- `agent_entry_t`. -/
structure AgentEntry where
  /-- The name, a C string. -/
  name : Option (List UInt8)
  /-- The socket. -/
  fd : ℤ

/-- The loop of `router_send` with `rest` bytes left: how many of them get sent,
and whether the loop ends. It is still writing where the answers end. -/
def routerSendLoop : List WriteAnswer → ℕ → ℕ × Bool
  | _, 0 => (0, true)
  | [], _ + 1 => (0, false)
  | a :: answers, rest + 1 =>
    if 0 < a.ret then
      let n := min a.ret.toNat (rest + 1)
      let sent := routerSendLoop answers (rest + 1 - n)
      (n + sent.1, sent.2)
    else if a.errno ≠ 0 then (0, true)
    else routerSendLoop answers (rest + 1)

/-- `router_send`. -/
def routerSend (fd : ℤ) (buf : List UInt8) (answers : List WriteAnswer) : ℕ × Bool :=
  if fd < 0 then (0, true) else routerSendLoop answers buf.length

/-- The loop of `router_get_des_wfd`: the first agent of that name. -/
def findAgent (name : List UInt8) : List AgentEntry → Res (Option ℤ)
  | [] => .ok none
  | ae :: agents => do
    let text ← derefOption ae.name
    let same ← strcmpEq name text
    if same then return some ae.fd else findAgent name agents

/-- `LOCK` by a thread that may hold the mutex already. -/
def mutexLock (relocks held : Bool) : Res Unit :=
  if held && !relocks then .error .hang else .ok ()

/-- `router_get_des_wfd`: the socket, and whether the agents are left locked. -/
def routerGetDesWfd (relocks held : Bool) (name : List UInt8) (agents : List AgentEntry) :
    Res (ℤ × Bool) := do
  mutexLock relocks held
  let found ← findAgent name agents
  match found with
  | some fd => do
    mutexLock relocks true
    return (fd, true)
  | none => return (-1, false)

/-- What one round of the writer meets. -/
structure WriterRound where
  /-- The package it takes. -/
  skb : Option Skb
  /-- The agents registered then. -/
  agents : List AgentEntry
  /-- Whether `LOCK` returns when the thread holds the mutex. -/
  relocks : Bool
  /-- What the kernel answers to the writes of the round. -/
  answers : List WriteAnswer

/-- A round up to `router_send`: the socket and the frame, if there is an agent. -/
def routerDisaggregateFrame (held : Bool) (r : WriterRound) :
    Res (Option (ℤ × List UInt8) × Bool) := do
  let skb ← derefOption r.skb
  let skb ← routerDisaggregatePack skb
  let agent ← skb.agent.deref
  let (fd, held) ← routerGetDesWfd r.relocks held agent.buf r.agents
  return (if fd ≠ -1 then some (fd, skb.payload) else none, held)

/-- What has been written on a socket for one package. -/
structure SentFrame where
  /-- The socket. -/
  fd : ℤ
  /-- The frame, and what of it. -/
  piece : Piece UInt8

/-- The first bytes of a frame. -/
def firstBytes (frame : List UInt8) (n : ℕ) : Piece UInt8 :=
  { frame := frame, sent := frame.take n, sent_prefix := List.take_prefix n frame }

/-- `router_disaggregate_work` over some rounds: what it writes, until it stops. -/
def routerDisaggregateWork : Bool → List WriterRound → List SentFrame
  | _, [] => []
  | held, r :: rounds =>
    match routerDisaggregateFrame held r with
    | .error _ => []
    | .ok (none, held) => routerDisaggregateWork held rounds
    | .ok (some (fd, frame), held) =>
      let sent := routerSend fd frame r.answers
      ⟨fd, firstBytes frame sent.1⟩ ::
        (if sent.2 then routerDisaggregateWork held rounds else [])

/-- The pieces on one socket. -/
def piecesOn (fd : ℤ) (frames : List SentFrame) : List (Piece UInt8) :=
  (frames.filter (·.fd = fd)).map SentFrame.piece

/-! ## What the kernel lets through -/

/-- A write that ends the sending of a frame. -/
def WriteAnswer.refuses (a : WriteAnswer) : Bool := a.ret ≤ 0 && a.errno ≠ 0

/-- How many bytes the kernel takes before it refuses. -/
def roomOf (answers : List WriteAnswer) : ℕ :=
  ((answers.takeWhile (!·.refuses)).map fun a => a.ret.toNat).sum

/-- A frame that is about to be written. -/
structure Sending where
  /-- The socket. -/
  fd : ℤ
  /-- The frame. -/
  frame : List UInt8
  /-- What the kernel is going to answer. -/
  answers : List WriteAnswer

/-- The kernel takes some of the frame and refuses the rest. -/
def Sending.Cut (s : Sending) : Prop :=
  0 ≤ s.fd ∧ 0 < roomOf s.answers ∧ roomOf s.answers < s.frame.length

/-- The kernel takes some of the frame. -/
def Sending.Writes (s : Sending) : Prop := 0 ≤ s.fd ∧ 0 < roomOf s.answers ∧ s.frame ≠ []

instance (s : Sending) : Decidable s.Cut := inferInstanceAs (Decidable (_ ∧ _ ∧ _))

instance (s : Sending) : Decidable s.Writes := inferInstanceAs (Decidable (_ ∧ _ ∧ _))

/-- The kernel takes the whole frame or refuses some of it, so the writer gets on. -/
def Sending.returns (s : Sending) : Bool :=
  s.fd < 0 || s.frame.length ≤ roomOf s.answers || s.answers.any WriteAnswer.refuses

/-- The frames the writer gets to. -/
def sendings : Bool → List WriterRound → List Sending
  | _, [] => []
  | held, r :: rounds =>
    match routerDisaggregateFrame held r with
    | .error _ => []
    | .ok (none, held) => sendings held rounds
    | .ok (some (fd, frame), held) =>
      ⟨fd, frame, r.answers⟩ ::
        (if (⟨fd, frame, r.answers⟩ : Sending).returns then sendings held rounds else [])

/-- Behind a frame of which the kernel takes a part only, it takes nothing more on
that socket. -/
def CutsAreLast (fd : ℤ) (ss : List Sending) : Prop :=
  (ss.filter (·.fd = fd)).Pairwise fun s s' => s.Cut → ¬ s'.Writes

instance (fd : ℤ) (ss : List Sending) : Decidable (CutsAreLast fd ss) :=
  inferInstanceAs (Decidable (List.Pairwise _ _))

theorem roomOf_cons_of_refuses {a : WriteAnswer} (h : a.refuses = true)
    (answers : List WriteAnswer) : roomOf (a :: answers) = 0 := by
  simp [roomOf, h]

theorem roomOf_cons {a : WriteAnswer} (h : a.refuses = false) (answers : List WriteAnswer) :
    roomOf (a :: answers) = a.ret.toNat + roomOf answers := by
  simp [roomOf, h]

/-- The loop sends what the kernel takes, and ends where that is everything or
the kernel refuses something. -/
theorem routerSendLoop_eq (answers : List WriteAnswer) (rest : ℕ) :
    routerSendLoop answers rest = (min (roomOf answers) rest,
      decide (rest ≤ roomOf answers) || answers.any WriteAnswer.refuses) := by
  induction answers generalizing rest with
  | nil => cases rest <;> simp [routerSendLoop, roomOf]
  | cons a answers ih =>
    cases rest with
    | zero => simp [routerSendLoop]
    | succ rest =>
      unfold routerSendLoop
      by_cases hret : 0 < a.ret
      · have hon : a.refuses = false := by simp [WriteAnswer.refuses, hret]
        have hsum : min a.ret.toNat (rest + 1) +
            min (roomOf answers) (rest + 1 - min a.ret.toNat (rest + 1)) =
              min (a.ret.toNat + roomOf answers) (rest + 1) := by omega
        have hall : rest + 1 - min a.ret.toNat (rest + 1) ≤ roomOf answers ↔
            rest + 1 ≤ a.ret.toNat + roomOf answers := by omega
        simp only [if_pos hret, ih, hsum, hall, roomOf_cons hon, List.any_cons, hon, Bool.false_or]
      · rw [if_neg hret]
        have hzero : a.ret.toNat = 0 := by omega
        by_cases herrno : a.errno = 0
        · have hon : a.refuses = false := by simp [WriteAnswer.refuses, herrno]
          rw [if_neg (not_not.mpr herrno), ih, roomOf_cons hon, hzero, Nat.zero_add,
            List.any_cons, hon, Bool.false_or]
        · have hoff : a.refuses = true := by simp [WriteAnswer.refuses, herrno, not_lt.mp hret]
          rw [if_pos herrno, roomOf_cons_of_refuses hoff, Nat.zero_min, List.any_cons, hoff,
            Bool.true_or, Bool.or_true]

/-! ## What gets on a socket -/

/-- What of a frame the kernel takes. -/
def Sending.piece (s : Sending) : Piece UInt8 :=
  firstBytes s.frame (if s.fd < 0 then 0 else roomOf s.answers)

/-- What `router_send` sends of a frame. -/
theorem firstBytes_routerSend (s : Sending) :
    firstBytes s.frame (routerSend s.fd s.frame s.answers).1 = s.piece := by
  unfold Sending.piece routerSend firstBytes
  split
  · rfl
  · simp [routerSendLoop_eq, List.take_eq_take_iff]

/-- Whether it returns. -/
theorem routerSend_snd (s : Sending) : (routerSend s.fd s.frame s.answers).2 = s.returns := by
  unfold Sending.returns routerSend
  split
  · rename_i hfd
    simp [hfd]
  · rename_i hfd
    simp [hfd, routerSendLoop_eq]

/-- The writer writes what the kernel takes of the frames it gets to. -/
theorem routerDisaggregateWork_eq (held : Bool) (rounds : List WriterRound) :
    routerDisaggregateWork held rounds =
      (sendings held rounds).map fun s => ⟨s.fd, s.piece⟩ := by
  induction rounds generalizing held with
  | nil => rfl
  | cons r rounds ih =>
    unfold routerDisaggregateWork sendings
    split
    · rfl
    · exact ih _
    · rename_i fd frame held' heq
      have hpiece := firstBytes_routerSend ⟨fd, frame, r.answers⟩
      have hreturns := routerSend_snd ⟨fd, frame, r.answers⟩
      dsimp only at hpiece hreturns ⊢
      rw [hpiece, hreturns, List.map_cons, ih]
      split <;> rfl

/-- A frame is cut off where the kernel takes a part of it. -/
theorem Sending.piece_isCut_iff (s : Sending) : s.piece.IsCut ↔ s.Cut := by
  unfold Sending.piece Piece.IsCut Sending.Cut firstBytes
  dsimp only
  split
  · rename_i hfd
    simp [not_le.mpr hfd]
  · rename_i hfd
    have hlen : s.frame.take (roomOf s.answers) = s.frame ↔ s.frame.length ≤ roomOf s.answers := by
      refine ⟨fun h => ?_, List.take_of_length_le⟩
      have hsame := congrArg List.length h
      rw [List.length_take] at hsame
      omega
    have hnil : s.frame.take (roomOf s.answers) = [] ↔ roomOf s.answers = 0 ∨ s.frame = [] :=
      List.take_eq_nil_iff
    rw [ne_eq, ne_eq, hlen, hnil]
    constructor
    · rintro ⟨hsome, hpart⟩
      push Not at hsome hpart
      exact ⟨not_lt.mp hfd, Nat.pos_of_ne_zero hsome.1, hpart⟩
    · rintro ⟨-, hsome, hpart⟩
      refine ⟨?_, not_le.mpr hpart⟩
      rintro (hzero | hempty)
      · omega
      · rw [hempty] at hpart
        simp at hpart

/-- Nothing of a frame is sent where the kernel takes nothing. -/
theorem Sending.piece_sent_eq_nil_iff (s : Sending) : s.piece.sent = [] ↔ ¬ s.Writes := by
  unfold Sending.piece Sending.Writes firstBytes
  dsimp only
  split
  · rename_i hfd
    simp [not_le.mpr hfd]
  · rename_i hfd
    rw [List.take_eq_nil_iff]
    simp only [not_lt.mp hfd, true_and, not_and, not_not]
    constructor
    · rintro (hzero | hempty) hpos
      · omega
      · exact hempty
    · intro h
      by_cases hzero : roomOf s.answers = 0
      · exact .inl hzero
      · exact .inr (h (Nat.pos_of_ne_zero hzero))

/-- The pieces on a socket. -/
theorem piecesOn_routerDisaggregateWork (fd : ℤ) (held : Bool) (rounds : List WriterRound) :
    piecesOn fd (routerDisaggregateWork held rounds) =
      ((sendings held rounds).filter (·.fd = fd)).map Sending.piece := by
  rw [piecesOn, routerDisaggregateWork_eq, List.filter_map, List.map_map]
  rfl

theorem staysFramed_work_iff (fd : ℤ) (rounds : List WriterRound) :
    StaysFramed (piecesOn fd (routerDisaggregateWork false rounds)) ↔
      CutsAreLast fd (sendings false rounds) := by
  rw [staysFramed_iff, piecesOn_routerDisaggregateWork]
  unfold CutIsLast CutsAreLast
  rw [List.pairwise_map]
  apply List.Pairwise.iff
  intro s s'
  rw [s.piece_isCut_iff, s'.piece_sent_eq_nil_iff]

/-- **Outgoing streams.** What the writer puts on a socket stays a sequence of
whole frames exactly when the kernel takes nothing more on that socket behind a
frame of which it has taken a part only. -/
theorem streams_framed_iff (fd : ℤ) (rounds : List WriterRound) :
    StaysFramed (piecesOn fd (routerDisaggregateWork false rounds)) ↔
      CutsAreLast fd (sendings false rounds) :=
  staysFramed_work_iff fd rounds

/-- A round for the agent `a` on socket 5. -/
def roundFor (answers : List WriteAnswer) : WriterRound :=
  { skb := some { oneByteReply with agent := .obj ⟨2, 2, 1, [0x61, 0]⟩ },
    agents := [⟨some [0x61], 5⟩], relocks := true, answers := answers }

/-- Four bytes of the first frame are sent before the socket is full; the second
frame follows them. -/
theorem streams_not_framed : ¬ ∀ (fd : ℤ) (rounds : List WriterRound),
    StaysFramed (piecesOn fd (routerDisaggregateWork false rounds)) := by
  intro h
  have hframed := h 5 [roundFor [⟨4, 0⟩, ⟨-1, 11⟩], roundFor [⟨13, 0⟩]]
  rw [staysFramed_work_iff] at hframed
  exact absurd hframed (by decide)

end TsmVm
