import TsmVm.CcbSteps

/-!
# The write-back path

A reply is to carry the commands made since the last one, each with a header of
its own in the room that was reserved for it. The bytecodes that put a command
in the queue of the reply pass the flag where the CCB belongs and do not return,
so the flag is never set, no call that returns leaves anything in the queue, and
no command is sent or framed at all, let alone twice.
-/

namespace TsmVm

/-- No reply is due, and none has been prepared. -/
structure Ccb.NoReply (ccb : Ccb) : Prop where
  /-- The flag is clear. -/
  writeBack_eq : ccb.writeBack = false
  /-- The queue is empty. -/
  cmdQ_eq : ccb.cmdQ = []

/-- The thread is in the reply branch of the loop. -/
def VmPc.Replies : VmPc → Prop
  | .reply _ | .queueReply _ _ | .postReply _ => True
  | _ => False

section WriteBacks

variable {T : Type} [DecidableEq T]

/-- A thread takes the write-back path for its CCB. -/
structure WritesBack (img : Image) (s : Sys T) (t : T) (c : CallSite) (ccb : Ccb) (s' : Sys T) :
    Prop where
  /-- The step. -/
  step : SysStep img s (.vm t (.testWriteBack true)) s'
  /-- The thread is past its call. -/
  pc_eq : (s.vm t).pc = .testWriteBack c
  /-- The CCB is the one of the call. -/
  ccb_eq : s.dev.ccbList[c.idx]? = some ccb

/-- The buffers in the command queue of a CCB. -/
def Dev.cmdQ (d : Dev) (idx : ℕ) : List Skb := (d.ccbList[idx]?.map Ccb.cmdQ).getD []

/-- A bytecode called on the way from one state to another has put the buffer in
the queue of a CCB. -/
def ProducedBetween (img : Image) (idx : ℕ) (s₀ s : Sys T) (skb : Skb) : Prop :=
  ∃ ks p t c jump q ls, Lts.Run (tsmSystem img T) s₀ ks p ∧
    SysStep img p (.vm t (.call c jump)) q ∧ c.idx = idx ∧ skb ∉ p.dev.cmdQ idx ∧
    skb ∈ q.dev.cmdQ idx ∧ Lts.Run (tsmSystem img T) q ls s

/-- The write-back sends what has been made since a state, and frames it for the
first time: the header still has its room. -/
structure ProperWriteBack (img : Image) (s₀ s : Sys T) (c : CallSite) (ccb : Ccb) : Prop where
  /-- There is something to send. -/
  cmdQ_ne_nil : ccb.cmdQ ≠ []
  /-- Nothing of it is older than the state. -/
  produced : ∀ skb ∈ ccb.cmdQ, ProducedBetween img c.idx s₀ s skb
  /-- Nothing of it has a header yet. -/
  unframed : ∀ skb ∈ ccb.cmdQ, skb.data = tagA0HeadRoom

/-- What holds in every reachable state, of what the calls that have returned leave: no
reply is due, none is being made. -/
structure NoReplyInv (s : Sys T) : Prop where
  /-- By the CCBs. -/
  ccbs : ∀ ccb ∈ s.dev.ccbList, ccb.NoReply
  /-- By the threads. -/
  threads : ∀ t, ¬ (s.vm t).pc.Replies

variable {img : Image}

/-- The write-back path starts with a flag that is set. -/
theorem VmStep.writeBack_of_testWriteBack {d d' : Dev} {th th' : VmThread}
    (h : VmStep img d th (.testWriteBack true) d' th') :
    ∃ ccb ∈ d.ccbList, ccb.writeBack = true := by
  cases h with
  | writeBack hccb hflag hskb hfba => exact ⟨_, List.mem_of_getElem? hccb, hflag⟩

/-- A thread enters the reply branch over a flag that is set, or is in it already. -/
theorem VmStep.replies {d d' : Dev} {th th' : VmThread} {a : VmAct} (h : VmStep img d th a d' th')
    (hreplies : th'.pc.Replies) : th.pc.Replies ∨ ∃ ccb ∈ d.ccbList, ccb.writeBack = true := by
  cases h with
  | writeBack hccb hflag hskb hfba => exact .inr ⟨_, List.mem_of_getElem? hccb, hflag⟩
  | reply | queueReply => exact .inl trivial
  | _ => exact absurd hreplies id

/-- The reply changes the queue of a CCB only in the reply branch. -/
theorem VmStep.replies_of_reply {d d' : Dev} {th th' : VmThread}
    (h : VmStep img d th .reply d' th') : th.pc.Replies := by
  cases h
  trivial

/-- Every step keeps the invariant. -/
theorem NoReplyInv.step {s s' : Sys T} {l : Act T} (hinv : NoReplyInv s)
    (h : SysStep img s l s') : NoReplyInv s' := by
  have hclear : ¬ ∃ ccb ∈ s.dev.ccbList, ccb.writeBack = true := by
    rintro ⟨ccb, hmem, hflag⟩
    rw [(hinv.ccbs ccb hmem).writeBack_eq] at hflag
    cases hflag
  constructor
  · apply h.forall_ccb hinv.ccbs
    · intro ccb _ _ hfresh
      exact ⟨hfresh.writeBack_eq, hfresh.cmdQ_eq⟩
    · intro t a idx ccb ccb' hl _ _ hchange hccb
      refine ⟨hchange.writeBack_eq hccb.writeBack_eq, ?_⟩
      rcases hchange.cmdQ_eq with rfl | hcmdQ
      · subst hl
        cases h with
        | vm h => exact absurd h.replies_of_reply (hinv.threads t)
      · rw [hcmdQ, hccb.cmdQ_eq]
  · cases h with
    | @vm t a d th h =>
      have hth : ¬ th.pc.Replies := by
        intro hreplies
        rcases h.replies hreplies with hold | hset
        · exact hinv.threads t hold
        · exact hclear hset
      exact (Function.forall_update_iff s.vm fun _ th => ¬ th.pc.Replies).mpr
        ⟨hth, fun t' _ => hinv.threads t'⟩
    | reader | writer => exact hinv.threads

/-- No reply is ever due. -/
theorem noReplyInv_of_reachable {s : Sys T} (h : Lts.Reachable (tsmSystem img T) s) :
    NoReplyInv s := by
  refine h.invariant ?_ NoReplyInv.step
  rintro s rfl
  refine ⟨?_, fun _ => id⟩
  intro ccb hmem
  cases hmem

/-- So the write-back path is never taken. -/
theorem not_writesBack {s s' : Sys T} {t : T} {c : CallSite} {ccb : Ccb}
    (h : Lts.Reachable (tsmSystem img T) s) : ¬ WritesBack img s t c ccb s' := by
  rintro ⟨hstep, -, -⟩
  have hinv := noReplyInv_of_reachable h
  cases hstep with
  | vm hstep =>
    obtain ⟨ccb', hmem, hflag⟩ := hstep.writeBack_of_testWriteBack
    rw [(hinv.ccbs ccb' hmem).writeBack_eq] at hflag
    cases hflag

/-- **Write-backs.** Every write-back of a CCB, in any run, sends only commands
made since the write-back of that CCB before it, or since the start, and frames
each of them for the first time. In fact none ever happens: in every reachable
state no flag is set, every queue of commands is empty of what calls that have
returned put there, and no thread is in the reply branch. -/
theorem write_backs_proper (img : Image) :
    (∀ (s₀ s s' : Sys T) (ls : List (Act T)) (t : T) (c : CallSite) (ccb : Ccb),
      Lts.Reachable (tsmSystem img T) s₀ →
      (s₀ = .start ∨ ∃ p t₀ c₀ ccb₀, WritesBack img p t₀ c₀ ccb₀ s₀ ∧ c₀.idx = c.idx) →
      Lts.Run (tsmSystem img T) s₀ ls s → WritesBack img s t c ccb s' →
        ProperWriteBack img s₀ s c ccb) ∧
    ∀ s : Sys T, Lts.Reachable (tsmSystem img T) s → NoReplyInv s := by
  refine ⟨?_, fun s h => noReplyInv_of_reachable h⟩
  intro s₀ s s' ls t c ccb hs₀ _ hrun hback
  exact absurd hback (not_writesBack (hs₀.run hrun))

end WriteBacks

/-- No reply is due where the first package waits. -/
theorem write_backs_proper_waiting : NoReplyInv (atRest waitingDev .wild : Sys Unit) := by
  have hreach : Lts.Reachable (tsmSystem (plainImage .dataSet) Unit) (atRest waitingDev .wild) :=
    ⟨.start, _, rfl, run_createCcb _ (newPackage 1 7 emptyResponse) rfl (plainCcb_fresh 7 2)⟩
  exact (write_backs_proper (plainImage .dataSet)).2 _ hreach

end TsmVm
