import TsmVm.OperandArrays
import Mathlib.Data.List.Forall2

/-!
# Batches of raw commands (`gp_traverse`)

Commands that are ready to be sent are queued as they are, each with the status
word it is answered with behind it. The loop that queues them goes on to the
capacity of the operand array, and it adds the status word to all commands that
are queued so far each time it queues one. The first command of a batch gets as
many of them as there are commands.
-/

namespace TsmVm

/-- The status word `90 00`. -/
def swOk : List UInt8 := [0x90, 0x00]

/-- Some status words. -/
def statusWords (n : ℕ) : List UInt8 := (List.replicate n swOk).flatten

theorem statusWords_succ (n : ℕ) : statusWords (n + 1) = swOk ++ statusWords n := by
  rw [statusWords, List.replicate_succ, List.flatten_cons]
  rfl

theorem length_statusWords (n : ℕ) : (statusWords n).length = 2 * n := by
  induction n with
  | zero => rfl
  | succ n ih =>
    rw [statusWords_succ, List.length_append, ih]
    simp only [swOk, List.length_cons, List.length_nil]
    omega

/-- A buffer made for a command, with some bytes in it, addressed to an agent. -/
structure Skb.Carries (s : Skb) (agent body : List UInt8) : Prop where
  /-- It is laid out as `apdu_preprocess` does. -/
  layout : ∃ room, s.Layout (List.replicate tagA0HeadRoom 0) body room ∧
    body.length + room.length = commandRoom
  /-- It has the name of the agent. -/
  agent_eq : ∃ name, s.agent = .obj name ∧ name.content = agent

namespace Skb.Carries

variable {s : Skb} {agent body : List UInt8}

theorem length_le (h : s.Carries agent body) : body.length ≤ commandRoom := by
  obtain ⟨room, -, hroom⟩ := h.layout
  omega

theorem payload_eq (h : s.Carries agent body) : s.payload = body := by
  obtain ⟨room, hlayout, -⟩ := h.layout
  exact hlayout.payload_eq

/-- A fresh command is empty. -/
theorem fresh (u : Unspec) (k : ℕ) (agent : ByteString) :
    (freshCommand u k agent).Carries agent.content [] :=
  ⟨⟨_, apduPreprocess_layout (apduPreprocess_agent u k agent), by rw [List.length_replicate]; rfl⟩,
    _, rfl, content_agentName u k agent⟩

theorem buff_length (h : s.Carries agent body) :
    s.buff.length = maxApduLen ∧ s.tail = tagA0HeadRoom + body.length := by
  obtain ⟨room, hlayout, hroom⟩ := h.layout
  have htail := hlayout.tail_eq
  rw [hlayout.buff_eq]
  simp only [List.length_append, List.length_replicate] at htail ⊢
  have hsum : tagA0HeadRoom + commandRoom = maxApduLen := by decide
  omega

/-- Bytes are put behind those that are there, where they fit. -/
theorem put (h : s.Carries agent body) (bs : List UInt8)
    (hfit : body.length + bs.length ≤ commandRoom) :
    ∃ t, skbPutBytes s bs = .ok t ∧ t.Carries agent (body ++ bs) := by
  obtain ⟨room, hlayout, hroom⟩ := h.layout
  obtain ⟨name, hname, hcontent⟩ := h.agent_eq
  have hne : s.buff ≠ [] := by
    have hlength := h.buff_length.1
    intro hnil
    rw [hnil] at hlength
    cases hlength
  rw [← List.take_append_drop bs.length room] at hlayout
  have hold : (room.take bs.length).length = bs.length := by
    rw [List.length_take]
    omega
  obtain ⟨t, hput, hput_layout, rfl⟩ := hlayout.put hold hne
  refine ⟨_, hput, ⟨_, hput_layout, ?_⟩, name, hname, hcontent⟩
  rw [List.length_append, List.length_drop]
  omega

/-- Where they do not fit `skb_put` does not return. -/
theorem skbPut_panic (h : s.Carries agent body) {n : ℕ} (hover : commandRoom < body.length + n) :
    skbPut s n = .error .skbOverPanic := by
  obtain ⟨hlength, htail⟩ := h.buff_length
  have hsum : tagA0HeadRoom + commandRoom = maxApduLen := by decide
  have hpos : 0 < maxApduLen := by decide
  unfold skbPut
  rw [if_neg (by omega), if_pos (by omega)]

end Skb.Carries

/-- A queue of buffers with these bytes in them. -/
def QueueCarries (agent : List UInt8) (q : List Skb) (bodies : List (List UInt8)) : Prop :=
  List.Forall₂ (fun s body => s.Carries agent body) q bodies

/-- What is in a buffer fits into it. -/
theorem QueueCarries.length_le {agent : List UInt8} {q : List Skb} {bodies : List (List UInt8)}
    (h : QueueCarries agent q bodies) : ∀ body ∈ bodies, body.length ≤ commandRoom := by
  induction h with
  | nil => simp
  | cons hs _ ih => exact List.forall_mem_cons.mpr ⟨hs.length_le, ih⟩

/-- One more buffer at the end. -/
theorem QueueCarries.append {agent : List UInt8} {q : List Skb} {bodies : List (List UInt8)}
    (h : QueueCarries agent q bodies) {s : Skb} {body : List UInt8} (hs : s.Carries agent body) :
    QueueCarries agent (q ++ [s]) (bodies ++ [body]) :=
  List.rel_append h (.cons hs .nil)

section Padding

variable {agent : List UInt8} {q : List Skb} {bodies : List (List UInt8)}

/-- Every command gets a status word. -/
theorem paddingSw_ok (h : QueueCarries agent q bodies)
    (hfit : ∀ body ∈ bodies, body.length + 2 ≤ commandRoom) :
    ∃ q', _gpPaddingSw q = .ok q' ∧ QueueCarries agent q' (bodies.map (· ++ swOk)) := by
  induction h with
  | nil => exact ⟨[], rfl, .nil⟩
  | @cons s body q bodies hs hq ih =>
    obtain ⟨hbody, hbodies⟩ := List.forall_mem_cons.mp hfit
    obtain ⟨s₁, hput₁, hs₁⟩ := hs.put [0x90] (by rw [List.length_singleton]; omega)
    obtain ⟨s₂, hput₂, hs₂⟩ := hs₁.put [0x00] (by
      rw [List.length_append, List.length_singleton, List.length_singleton]
      omega)
    obtain ⟨q', hpad, hq'⟩ := ih hbodies
    refine ⟨s₂ :: q', ?_, ?_⟩
    · rw [_gpPaddingSw, hput₁, ok_bind, hput₂, ok_bind, hpad, ok_bind, pure_eq_ok]
    · rw [List.append_assoc] at hs₂
      exact .cons hs₂ hq'

/-- A command without room for it is the end. -/
theorem paddingSw_panic (h : QueueCarries agent q bodies)
    (hover : ∃ body ∈ bodies, commandRoom < body.length + 2) :
    _gpPaddingSw q = .error .skbOverPanic := by
  induction h with
  | nil => simp at hover
  | @cons s body q bodies hs hq ih =>
    rw [_gpPaddingSw]
    by_cases hfirst : body.length + 1 ≤ commandRoom
    · obtain ⟨s₁, hput₁, hs₁⟩ := hs.put [0x90] hfirst
      rw [hput₁, ok_bind]
      by_cases hsecond : body.length + 2 ≤ commandRoom
      · obtain ⟨s₂, hput₂, hs₂⟩ := hs₁.put [0x00] (by
          rw [List.length_append, List.length_singleton, List.length_singleton]
          omega)
        have hrest : ∃ body ∈ bodies, commandRoom < body.length + 2 := by
          obtain ⟨body', hmem, hbody'⟩ := hover
          obtain rfl | hmem := List.mem_cons.mp hmem
          · omega
          · exact ⟨body', hmem, hbody'⟩
        rw [hput₂, ok_bind, ih hrest, error_bind]
      · have hpanic : skbPut s₁ [(0x00 : UInt8)].length = .error .skbOverPanic := by
          apply hs₁.skbPut_panic
          rw [List.length_append, List.length_singleton, List.length_singleton]
          omega
        rw [skbPutBytes, hpanic]
        rfl
    · have hpanic : skbPut s [(0x90 : UInt8)].length = .error .skbOverPanic := by
        apply hs.skbPut_panic
        rw [List.length_singleton]
        omega
      rw [skbPutBytes, hpanic]
      rfl

end Padding

/-! ## The loop -/

/-- What the loop makes of commands: each with a status word for itself and for
each of those behind it. -/
def withStatusWords : List (List UInt8) → List (List UInt8)
  | [] => []
  | cmd :: cmds => (cmd ++ statusWords (cmds.length + 1)) :: withStatusWords cmds

/-- A queue of commands after as many more have been queued. -/
def batch (bodies cmds : List (List UInt8)) : List (List UInt8) :=
  bodies.map (· ++ statusWords cmds.length) ++ withStatusWords cmds

/-- Queueing one more gives it and those in front of it a status word. -/
theorem batch_cons (bodies cmds : List (List UInt8)) (cmd : List UInt8) :
    batch ((bodies ++ [cmd]).map (· ++ swOk)) cmds = batch bodies (cmd :: cmds) := by
  have hword : ∀ body : List UInt8, body ++ swOk ++ statusWords cmds.length =
      body ++ statusWords (cmds.length + 1) := by
    intro body
    rw [statusWords_succ, List.append_assoc]
  simp only [batch, withStatusWords, List.map_append, List.map_cons, List.map_nil, List.map_map,
    Function.comp_def, hword, List.length_cons, List.append_assoc, List.singleton_append]

/-- The commands that are queued do not get shorter. -/
theorem exists_batch_le {bodies : List (List UInt8)} (cmds : List (List UInt8))
    {body : List UInt8} (h : body ∈ bodies) : ∃ b ∈ batch bodies cmds, body.length ≤ b.length :=
  ⟨body ++ statusWords cmds.length,
    List.mem_append_left _ (List.mem_map_of_mem (f := (· ++ statusWords cmds.length)) h), by simp⟩

section Loop

variable {u : Unspec} {agent : ByteString} {arg : FmBytesArray} {operands : List ByteString}
  {spare : ℕ}

/-- The length of an operand is passed on as it is. -/
theorem ByteString.u32_leng (p : ByteString) (h : p.leng < 4294967296) :
    u32 p.leng = p.content.length := by
  have hnonneg := p.valid.leng_nonneg
  have hlen := p.length_content
  unfold u32
  omega

theorem fmBytesGetLength_some (p : FmBytes) : fmBytesGetLength (some p) = .ok p.leng := rfl

/-- Its bytes are copied as they are. -/
theorem ByteString.memRead_leng (p : ByteString) : memRead p.buf 0 p.leng = .ok p.content := by
  obtain ⟨hnonneg, hle, -⟩ := p.valid
  have hcast : ((p.leng.toNat : ℕ) : ℤ) = p.leng := Int.toNat_of_nonneg hnonneg
  rw [← hcast, memRead_front (by omega)]
  rfl

/-- A round queues a command that fits into its buffer. -/
theorem traverseLoop_succ (u : Unspec) (agent : ByteString) (harg : arg.Operands operands spare)
    {i : ℕ} {cmd : ByteString} (hcmd : operands[i]? = some cmd) (hleng : cmd.leng < 4294967296)
    (hfit : cmd.content.length ≤ commandRoom) (n : ℕ) (q : List Skb) :
    ∃ s : Skb, s.Carries agent.content cmd.content ∧
      traverseLoop u (some agent.toFmBytes) arg (n + 1) i q =
        _gpPaddingSw (q ++ [s]) >>= traverseLoop u (some agent.toFmBytes) arg n (i + 1) := by
  obtain ⟨s, hput, hs⟩ := (Skb.Carries.fresh u i agent).put cmd.content
    (by rw [List.length_nil]; omega)
  obtain ⟨⟨p, skb⟩, hskb, hpoke⟩ := bind_eq_ok.mp hput
  obtain rfl := Except.ok.inj hpoke
  refine ⟨_, hs, ?_⟩
  rw [traverseLoop, harg.at_eq hcmd, ok_bind, fmBytesGetLength_some, ok_bind, derefOption_some,
    ok_bind, apduPreprocess_agent, ok_bind, cmd.u32_leng hleng, hskb, ok_bind]
  dsimp only
  rw [cmd.memRead_leng, ok_bind]

/-- One that does not fit is the end. -/
theorem traverseLoop_panic (harg : arg.Operands operands spare) {i : ℕ} {cmd : ByteString}
    (hcmd : operands[i]? = some cmd) (hleng : cmd.leng < 4294967296)
    (hover : commandRoom < cmd.content.length) (n : ℕ) (q : List Skb) :
    traverseLoop u (some agent.toFmBytes) arg (n + 1) i q = .error .skbOverPanic := by
  have hpanic := (Skb.Carries.fresh u i agent).skbPut_panic (n := cmd.content.length)
    (by rw [List.length_nil]; omega)
  rw [traverseLoop, harg.at_eq hcmd, ok_bind, fmBytesGetLength_some, ok_bind, derefOption_some,
    ok_bind, apduPreprocess_agent, ok_bind, cmd.u32_leng hleng, hpanic, error_bind]

/-- A spare slot is the end, too. -/
theorem traverseLoop_spare (harg : arg.Operands operands spare) {i : ℕ}
    (hle : operands.length ≤ i) (hlt : i < operands.length + spare) (n : ℕ) (q : List Skb) :
    traverseLoop u (some agent.toFmBytes) arg (n + 1) i q = .error .nullDeref := by
  rw [traverseLoop, harg.at_spare hle hlt]
  rfl

/-- **The loop of `gp_traverse`.** Where all commands fit with their status words
they are queued, and the loop goes on into the spare slots; where one does not,
the loop ends there. -/
theorem traverseLoop_eq (u : Unspec) (agent : ByteString) (harg : arg.Operands operands spare)
    {cmds : List ByteString} {i : ℕ} (hleng : ∀ cmd ∈ cmds, cmd.leng < 4294967296)
    (hcmds : operands.drop i = cmds) (hi : i + cmds.length = operands.length) (q : List Skb)
    (bodies : List (List UInt8)) (hq : QueueCarries agent.content q bodies) :
    ((∀ body ∈ batch bodies (cmds.map (·.content)), body.length ≤ commandRoom) →
      if spare = 0 then
        ∃ q', traverseLoop u (some agent.toFmBytes) arg (cmds.length + spare) i q = .ok q' ∧
          QueueCarries agent.content q' (batch bodies (cmds.map (·.content)))
      else traverseLoop u (some agent.toFmBytes) arg (cmds.length + spare) i q =
        .error .nullDeref) ∧
    ((∃ body ∈ batch bodies (cmds.map (·.content)), commandRoom < body.length) →
      traverseLoop u (some agent.toFmBytes) arg (cmds.length + spare) i q =
        .error .skbOverPanic) := by
  induction cmds generalizing i q bodies with
  | nil =>
    have hbatch : batch bodies (([] : List ByteString).map (·.content)) = bodies := by
      simp [batch, withStatusWords, statusWords]
    rw [hbatch]
    constructor
    · intro _
      split
      · subst spare
        exact ⟨q, rfl, hq⟩
      · obtain ⟨m, rfl⟩ : ∃ m, spare = m + 1 := ⟨spare - 1, by omega⟩
        rw [List.length_nil, Nat.zero_add, traverseLoop_spare harg (by simpa using hi.ge) (by
          simp only [List.length_nil] at hi
          omega)]
    · rintro ⟨body, hmem, hover⟩
      have hle := hq.length_le body hmem
      omega
  | cons cmd cmds ih =>
    simp only [List.length_cons] at hi
    obtain ⟨hcmd, hrest⟩ := next_of_drop hcmds
    obtain ⟨hleng_cmd, hleng⟩ := List.forall_mem_cons.mp hleng
    have hround : (cmd :: cmds).length + spare = cmds.length + spare + 1 := by
      rw [List.length_cons]
      omega
    have hbatch := batch_cons bodies (cmds.map (·.content)) cmd.content
    rw [List.map_cons, ← hbatch, hround]
    -- a body that has no room for its next status word has none at the end
    have hpadded : ∀ body ∈ bodies ++ [cmd.content],
        ∃ b ∈ batch ((bodies ++ [cmd.content]).map (· ++ swOk)) (cmds.map (·.content)),
          body.length + 2 ≤ b.length := by
      intro body hmem
      obtain ⟨b, hb, hle⟩ := exists_batch_le (cmds.map (·.content))
        (List.mem_map_of_mem (f := (· ++ swOk)) hmem)
      refine ⟨b, hb, ?_⟩
      simpa [swOk] using hle
    by_cases hfit : ∀ body ∈ bodies ++ [cmd.content], body.length + 2 ≤ commandRoom
    · have hcontent := hfit cmd.content (by simp)
      obtain ⟨s, hs, hstep⟩ := traverseLoop_succ u agent harg hcmd hleng_cmd
        (by omega) (cmds.length + spare) q
      obtain ⟨q', hpad, hq'⟩ := paddingSw_ok (hq.append hs) hfit
      rw [hstep, hpad, ok_bind]
      exact ih hleng hrest (by omega) _ _ hq'
    · push Not at hfit
      obtain ⟨body, hmem, hover⟩ := hfit
      have hpanic : traverseLoop u (some agent.toFmBytes) arg (cmds.length + spare + 1) i q =
          .error .skbOverPanic := by
        by_cases hcontent : cmd.content.length ≤ commandRoom
        · obtain ⟨s, hs, hstep⟩ := traverseLoop_succ u agent harg hcmd hleng_cmd
            hcontent (cmds.length + spare) q
          rw [hstep, paddingSw_panic (hq.append hs) ⟨body, hmem, hover⟩, error_bind]
        · exact traverseLoop_panic harg hcmd hleng_cmd (by omega) _ _
      refine ⟨fun hall => ?_, fun _ => hpanic⟩
      obtain ⟨b, hb, hle⟩ := hpadded body hmem
      have := hall b hb
      omega

end Loop

/-! ## Batches -/

/-- The operands of `gp_traverse`: an agent and commands of at most 255 bytes. -/
structure CommandBatch where
  /-- The array. -/
  arg : FmBytesArray
  /-- The agent. -/
  agent : ByteString
  /-- The commands. -/
  cmds : List ByteString
  /-- The number of spare slots. -/
  spare : ℕ
  /-- The array holds them. -/
  operands : arg.Operands (agent :: cmds) spare
  /-- There is a command. -/
  cmds_ne : cmds ≠ []
  /-- Each of them is short. -/
  leng_le : ∀ cmd ∈ cmds, cmd.leng ≤ 255

/-- The queue holds the commands in order, each with one status word behind it,
and all are addressed to the agent. -/
def CommandBatch.IsQueuedAs (b : CommandBatch) (q : List Skb) : Prop :=
  List.Forall₂ (fun s cmd => s.payload = cmd.content ++ swOk ∧
    ∃ name, s.agent = .obj name ∧ name.content = b.agent.content) q b.cmds

/-- The bytecode leaves them on the command queue of its CCB. -/
def CommandBatch.IsTraversed (b : CommandBatch) (u : Unspec) (ccb : Ccb)
    (rsp : Ptr FmBytesArray) : Prop :=
  ∃ ret ccb', gpTraverse u ccb rsp b.arg = .ok (ret, ccb') ∧ b.IsQueuedAs ccb'.cmdQ

/-- Its loop leaves them on a queue that was empty. -/
def CommandBatch.IsLooped (b : CommandBatch) (u : Unspec) : Prop :=
  ∃ q, traverseLoop u (some b.agent.toFmBytes) b.arg (b.arg.size - 1).toNat 1 [] = .ok q ∧
    b.IsQueuedAs q

/-- A queue with the status words of the loop is right for a single command. -/
theorem CommandBatch.isQueuedAs_iff (b : CommandBatch) {q : List Skb}
    (hq : QueueCarries b.agent.content q (withStatusWords (b.cmds.map (·.content)))) :
    b.IsQueuedAs q ↔ b.cmds.length = 1 := by
  unfold IsQueuedAs
  cases hcmds : b.cmds with
  | nil => exact (b.cmds_ne hcmds).elim
  | cons cmd cmds =>
    rw [hcmds, List.map_cons, withStatusWords, List.length_map] at hq
    cases hq with
    | @cons s _ q _ hs hq =>
      constructor
      · rintro (_ | ⟨⟨hpayload, -⟩, -⟩)
        rw [hs.payload_eq] at hpayload
        have hlen := congrArg List.length (List.append_cancel_left hpayload)
        rw [length_statusWords] at hlen
        simp only [swOk, List.length_cons, List.length_nil] at hlen ⊢
        omega
      · intro hone
        obtain rfl : cmds = [] := by simpa using hone
        cases hq
        exact .cons ⟨hs.payload_eq, hs.agent_eq⟩ .nil

/-- The loop is right for a single command and no spare slot. -/
theorem CommandBatch.isLooped_iff (b : CommandBatch) (u : Unspec) :
    b.IsLooped u ↔ b.cmds.length = 1 ∧ b.spare = 0 := by
  have hsize := b.operands.size_eq
  have hrounds : (b.arg.size - 1).toNat = b.cmds.length + b.spare := by
    rw [List.length_cons] at hsize
    omega
  have hleng : ∀ cmd ∈ b.cmds, cmd.leng < 4294967296 := fun cmd hcmd => by
    have := b.leng_le cmd hcmd
    omega
  have hbatch : batch [] (b.cmds.map (·.content)) = withStatusWords (b.cmds.map (·.content)) := rfl
  obtain ⟨hfits, hpanic⟩ := traverseLoop_eq u b.agent b.operands hleng (i := 1)
    rfl (Nat.add_comm ..) [] [] .nil
  unfold IsLooped
  rw [hrounds]
  by_cases hfit : ∀ body ∈ batch [] (b.cmds.map (·.content)), body.length ≤ commandRoom
  · have hrun := hfits hfit
    split at hrun
    · obtain ⟨q', hloop, hq'⟩ := hrun
      rw [hbatch] at hq'
      have hiff := b.isQueuedAs_iff hq'
      rw [hloop]
      constructor
      · rintro ⟨q, hq, hqueued⟩
        obtain rfl := Except.ok.inj hq
        exact ⟨hiff.mp hqueued, ‹_›⟩
      · rintro ⟨hone, -⟩
        exact ⟨q', rfl, hiff.mpr hone⟩
    · rw [hrun]
      refine iff_of_false ?_ (fun h => ‹¬ _› h.2)
      rintro ⟨q, hq, -⟩
      cases hq
  · push Not at hfit
    rw [hpanic hfit]
    refine iff_of_false ?_ ?_
    · rintro ⟨q, hq, -⟩
      cases hq
    · rintro ⟨hone, -⟩
      obtain ⟨cmd, hcmd⟩ := List.length_eq_one_iff.mp hone
      have hle := b.leng_le cmd (by simp [hcmd])
      have hlen := cmd.length_content
      obtain ⟨body, hmem, hover⟩ := hfit
      have hroom : commandRoom = 297 := rfl
      rw [hbatch, hcmd] at hmem
      obtain rfl : body = cmd.content ++ statusWords 1 := by simpa [withStatusWords] using hmem
      rw [List.length_append, length_statusWords] at hover
      omega

/-- The bytecode does not return. -/
theorem CommandBatch.not_isTraversed (b : CommandBatch) {u : Unspec} {ccb : Ccb}
    {rsp : Ptr FmBytesArray} : ¬ b.IsTraversed u ccb rsp := by
  rintro ⟨ret, ccb', hcall, -⟩
  have hcall : Bytecode.gpTraverse.call u ccb rsp b.arg = .ok (ret, ccb') := hcall
  exact call_ne_ok_of_repliesToAgent rfl hcall

/-- **A batch is never left on the queue**: the bytecode does not return. What it
has queued by then is right for a single command in an array without a spare
slot. -/
theorem traverse_batch (b : CommandBatch) :
    (∀ u ccb rsp, ¬ b.IsTraversed u ccb rsp) ∧
    ∀ u, b.IsLooped u ↔ b.cmds.length = 1 ∧ b.spare = 0 :=
  ⟨fun _ _ _ => b.not_isTraversed, b.isLooped_iff⟩

/-- The commands `80 CA` and `80 CB` for agent `a`, without a spare slot. -/
def twoCommands : CommandBatch where
  arg := { addr := 1, size := 3, cnt := 3,
           array := [some (ByteString.of [0x61]).toFmBytes,
             some (ByteString.of [0x80, 0xCA]).toFmBytes,
             some (ByteString.of [0x80, 0xCB]).toFmBytes] }
  agent := .of [0x61]
  cmds := [.of [0x80, 0xCA], .of [0x80, 0xCB]]
  spare := 0
  operands := ⟨rfl, rfl, rfl⟩
  cmds_ne := List.cons_ne_nil _ _
  leng_le := by
    simp only [List.forall_mem_cons]
    exact ⟨by decide, by decide, by simp⟩

/-- For two commands the bytecode does not return, nor is its queue right. -/
theorem twoCommands_fail :
    ¬ (∀ u ccb rsp, twoCommands.IsTraversed u ccb rsp) ∧
    ¬ ∀ u, twoCommands.IsLooped u := by
  constructor
  · exact fun h => twoCommands.not_isTraversed (h plainUnspec (plainCcb 7 2) .null)
  · intro h
    have hone := ((twoCommands.isLooped_iff plainUnspec).mp (h plainUnspec)).1
    cases hone

end TsmVm
