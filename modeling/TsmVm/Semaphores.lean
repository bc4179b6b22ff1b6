import TsmVm.Concurrent
import TsmVm.Lib.Families
import TsmVm.Lib.TokenQueue
import Mathlib.Data.Fintype.Basic

/-!
# The semaphores and the queues they guard

The packages of `rpkg_list` with `sem_vm`, and the replies of `wpkg_list` with
`sem_router_w`, are two token queues. A thread owes a token between its enqueue
and its post, and has been granted one between its wait and its dequeue.
-/

namespace TsmVm

open Lts (TokenQueue)

/-- What a step does to one queue and its semaphore, seen with the debts and
grants of the thread that performs it. -/
def QueueEffect (op : Option (TokenQueue.Op Skb)) (q q' : TokenQueue Skb) : Prop :=
  match op with
  | none => q' = q
  | some op => q.Step op q'

/-- What the steps of the threads do to a queue, and how the debts and grants
of the threads add up, determines what the system does to it. -/
theorem QueueEffect.total {op : Option (TokenQueue.Op Skb)} {q q' : TokenQueue Skb} {o o' g g' : ℕ}
    (h : QueueEffect op ⟨q.items, q.tokens, o, g⟩ ⟨q'.items, q'.tokens, o', g'⟩)
    (howed : q'.owed + o = q.owed + o') (hgranted : q'.granted + g = q.granted + g') :
    QueueEffect op q q' := by
  cases op with
  | none =>
    cases q
    cases q'
    simp only [QueueEffect, TokenQueue.mk.injEq] at h howed hgranted ⊢
    exact ⟨h.1, h.2.1, by omega, by omega⟩
  | some op => exact TokenQueue.Step.of_local h howed hgranted

/-- The thread has queued a package and not posted `sem_vm` yet. -/
def VmPc.owesVm : VmPc → ℕ
  | .post => 1
  | _ => 0

/-- The thread has passed `sem_wait` and not dequeued yet. -/
def VmPc.grantedVm : VmPc → ℕ
  | .dequeue => 1
  | _ => 0

/-- The thread has queued a reply and not posted `sem_router_w` yet. -/
def VmPc.owesRouterW : VmPc → ℕ
  | .postReply _ => 1
  | _ => 0

/-- The reader has queued a package and not posted `sem_vm` yet. -/
def ReaderPc.owesVm : ReaderPc → ℕ
  | .postVm => 1
  | _ => 0

/-- The reader has queued an acknowledgement and not posted `sem_router_w` yet. -/
def ReaderPc.owesRouterW : ReaderPc → ℕ
  | .postRouterW => 1
  | _ => 0

/-- The writer has passed `sem_wait` and not dequeued yet. -/
def WriterPc.grantedRouterW : WriterPc → ℕ
  | .dequeue => 1
  | _ => 0

/-- What an action does to `rpkg_list` and `sem_vm`. -/
def rpkgOp {T : Type} : Act T → Option (TokenQueue.Op Skb)
  | .vm _ .semWait => some .wait
  | .vm _ (.dequeue skb) => some (.take skb)
  | .vm _ (.requeue skb) => some (.put skb)
  | .vm _ .post => some .post
  | .reader (.queueVm skb) => some (.put skb)
  | .reader .postVm => some .post
  | _ => none

/-- What an action does to `wpkg_list` and `sem_router_w`. -/
def wpkgOp {T : Type} : Act T → Option (TokenQueue.Op Skb)
  | .vm _ (.queueReply out) => some (.put out)
  | .vm _ .postReply => some .post
  | .reader (.queueRouterW out) => some (.put out)
  | .reader .postRouterW => some .post
  | .writer .semWait => some .wait
  | .writer (.dequeue out) => some (.take out)
  | _ => none

section Steps

variable {T : Type} {img : Image} {d d' : Dev}

/-- A VM thread and the queue of packages. -/
theorem VmStep.rpkg {a : VmAct} {th th' : VmThread} (t : T) (h : VmStep img d th a d' th') :
    QueueEffect (rpkgOp (.vm t a)) ⟨d.rpkgList, d.semVm, th.pc.owesVm, th.pc.grantedVm⟩
      ⟨d'.rpkgList, d'.semVm, th'.pc.owesVm, th'.pc.grantedVm⟩ := by
  cases h with
  | semWait hsem => exact ⟨rfl, Nat.sub_add_cancel hsem, rfl, rfl⟩
  | dequeue => exact ⟨rfl, rfl, rfl, rfl, rfl⟩
  | requeue | post => exact ⟨rfl, rfl, rfl, rfl⟩
  | _ => rfl

/-- A VM thread and the queue of replies. -/
theorem VmStep.wpkg {a : VmAct} {th th' : VmThread} (t : T) (h : VmStep img d th a d' th') :
    QueueEffect (wpkgOp (.vm t a)) ⟨d.wpkgList, d.semRouterW, th.pc.owesRouterW, 0⟩
      ⟨d'.wpkgList, d'.semRouterW, th'.pc.owesRouterW, 0⟩ := by
  cases h with
  | queueReply | postReply => exact ⟨rfl, rfl, rfl, rfl⟩
  | _ => rfl

/-- The reader and the queue of packages. -/
theorem ReaderStep.rpkg {a : ReaderAct} {pc pc' : ReaderPc} (h : ReaderStep d pc a d' pc') :
    QueueEffect (rpkgOp (.reader a : Act T)) ⟨d.rpkgList, d.semVm, pc.owesVm, 0⟩
      ⟨d'.rpkgList, d'.semVm, pc'.owesVm, 0⟩ := by
  cases h with
  | queueVm | postVm => exact ⟨rfl, rfl, rfl, rfl⟩
  | _ => rfl

/-- The reader and the queue of replies. -/
theorem ReaderStep.wpkg {a : ReaderAct} {pc pc' : ReaderPc} (h : ReaderStep d pc a d' pc') :
    QueueEffect (wpkgOp (.reader a : Act T)) ⟨d.wpkgList, d.semRouterW, pc.owesRouterW, 0⟩
      ⟨d'.wpkgList, d'.semRouterW, pc'.owesRouterW, 0⟩ := by
  cases h with
  | queueRouterW | postRouterW => exact ⟨rfl, rfl, rfl, rfl⟩
  | _ => rfl

/-- The writer does not touch the queue of packages. -/
theorem WriterStep.rpkg {a : WriterAct} {pc pc' : WriterPc} (h : WriterStep d pc a d' pc') :
    QueueEffect (rpkgOp (.writer a : Act T)) ⟨d.rpkgList, d.semVm, 0, 0⟩
      ⟨d'.rpkgList, d'.semVm, 0, 0⟩ := by
  cases h <;> rfl

/-- The writer and the queue of replies. -/
theorem WriterStep.wpkg {a : WriterAct} {pc pc' : WriterPc} (h : WriterStep d pc a d' pc') :
    QueueEffect (wpkgOp (.writer a : Act T)) ⟨d.wpkgList, d.semRouterW, 0, pc.grantedRouterW⟩
      ⟨d'.wpkgList, d'.semRouterW, 0, pc'.grantedRouterW⟩ := by
  cases h with
  | semWait hsem => exact ⟨rfl, Nat.sub_add_cancel hsem, rfl, rfl⟩
  | dequeue => exact ⟨rfl, rfl, rfl, rfl, rfl⟩
  | send => rfl

end Steps

section System

variable {T : Type} [Fintype T]

/-- `rpkg_list` and `sem_vm` as a token queue. -/
def rpkgQueue (s : Sys T) : TokenQueue Skb where
  items := s.dev.rpkgList
  tokens := s.dev.semVm
  owed := (∑ t, (s.vm t).pc.owesVm) + s.reader.owesVm
  granted := ∑ t, (s.vm t).pc.grantedVm

/-- `wpkg_list` and `sem_router_w` as a token queue. -/
def wpkgQueue (s : Sys T) : TokenQueue Skb where
  items := s.dev.wpkgList
  tokens := s.dev.semRouterW
  owed := (∑ t, (s.vm t).pc.owesRouterW) + s.reader.owesRouterW
  granted := s.writer.grantedRouterW

variable [DecidableEq T] {img : Image}

/-- Moving one thread changes a count over the threads by the difference there. -/
theorem sum_pc_update (g : VmPc → ℕ) (vm : T → VmThread) (t : T) (th : VmThread) :
    (∑ i, g (Function.update vm t th i).pc) + g (vm t).pc = (∑ i, g (vm i).pc) + g th.pc :=
  Families.sum_update (fun v : VmThread => g v.pc) vm t th

/-- What a step of the system does to the queue of packages. -/
theorem SysStep.rpkg {s s' : Sys T} {l : Act T} (h : SysStep img s l s') :
    QueueEffect (rpkgOp l) (rpkgQueue s) (rpkgQueue s') := by
  cases h with
  | @vm t a d th h =>
    have howed := sum_pc_update VmPc.owesVm s.vm t th
    have hgranted := sum_pc_update VmPc.grantedVm s.vm t th
    exact (h.rpkg t).total (by simp only [rpkgQueue]; omega) hgranted
  | reader h => exact h.rpkg.total (by simp only [rpkgQueue]; omega) rfl
  | writer h => exact h.rpkg.total rfl rfl

/-- What a step of the system does to the queue of replies. -/
theorem SysStep.wpkg {s s' : Sys T} {l : Act T} (h : SysStep img s l s') :
    QueueEffect (wpkgOp l) (wpkgQueue s) (wpkgQueue s') := by
  cases h with
  | @vm t a d th h =>
    have howed := sum_pc_update VmPc.owesRouterW s.vm t th
    exact (h.wpkg t).total (by simp only [wpkgQueue]; omega) rfl
  | reader h => exact h.wpkg.total (by simp only [wpkgQueue]; omega) rfl
  | writer h => exact h.wpkg.total rfl (by simp only [wpkgQueue]; omega)

/-- The system simulates the token queue of packages. -/
def rpkgSimulation (img : Image) (T : Type) [Fintype T] [DecidableEq T] :
    Lts.Simulation (tsmSystem img T) (TokenQueue.system Skb) where
  state := rpkgQueue
  label := rpkgOp
  init := by
    rintro s rfl
    simp [TokenQueue.system, rpkgQueue, Sys.start, Dev.start, VmPc.owesVm, VmPc.grantedVm,
      ReaderPc.owesVm]
  step hstep hl := by
    have h := SysStep.rpkg hstep
    rw [hl] at h
    exact h
  stutter hstep hl := by
    have h := SysStep.rpkg hstep
    rw [hl] at h
    exact h

/-- The system simulates the token queue of replies. -/
def wpkgSimulation (img : Image) (T : Type) [Fintype T] [DecidableEq T] :
    Lts.Simulation (tsmSystem img T) (TokenQueue.system Skb) where
  state := wpkgQueue
  label := wpkgOp
  init := by
    rintro s rfl
    simp [TokenQueue.system, wpkgQueue, Sys.start, Dev.start, VmPc.owesRouterW,
      ReaderPc.owesRouterW, WriterPc.grantedRouterW]
  step hstep hl := by
    have h := SysStep.wpkg hstep
    rw [hl] at h
    exact h
  stutter hstep hl := by
    have h := SysStep.wpkg hstep
    rw [hl] at h
    exact h

/-- **The semaphores never outrun the queues.** Along every run, each queue
holds at least as many buffers as its semaphore and the threads between their
wait and their dequeue together count, so a dequeue behind a wait finds a
buffer, and the buffers leave a queue once each and in the order they came. -/
theorem semaphores_never_outrun_queues {ls : List (Act T)} {s : Sys T}
    (h : Lts.Run (tsmSystem img T) .start ls s) :
    (s.dev.semVm + ∑ t, (s.vm t).pc.grantedVm ≤ s.dev.rpkgList.length ∧
      s.dev.semRouterW + s.writer.grantedRouterW ≤ s.dev.wpkgList.length) ∧
    (∀ t skb s', SysStep img s (.vm t (.dequeue skb)) s' → skb ≠ none) ∧
    (∀ skb s', SysStep img s (.writer (.dequeue skb)) s' → skb ≠ none) ∧
    TokenQueue.puts (ls.filterMap rpkgOp) =
      TokenQueue.takes (ls.filterMap rpkgOp) ++ s.dev.rpkgList ∧
    TokenQueue.puts (ls.filterMap wpkgOp) =
      TokenQueue.takes (ls.filterMap wpkgOp) ++ s.dev.wpkgList := by
  have hreach : Lts.Reachable (tsmSystem img T) s := ⟨.start, ls, rfl, h⟩
  have hr := TokenQueue.balanced_of_reachable ((rpkgSimulation img T).reachable hreach)
  have hw := TokenQueue.balanced_of_reachable ((wpkgSimulation img T).reachable hreach)
  refine ⟨⟨?_, ?_⟩, ?_, ?_, ?_, ?_⟩
  · have hcount : s.dev.rpkgList.length = s.dev.semVm + _ + ∑ t, (s.vm t).pc.grantedVm := hr
    omega
  · have hcount : s.dev.wpkgList.length = s.dev.semRouterW + _ + s.writer.grantedRouterW := hw
    omega
  · intro t skb s' hstep
    exact Option.isSome_iff_ne_none.mp (hr.take_isSome hstep.rpkg)
  · intro skb s' hstep
    exact Option.isSome_iff_ne_none.mp (hw.take_isSome hstep.wpkg)
  · exact TokenQueue.fifo ((rpkgSimulation img T).run h)
  · exact TokenQueue.fifo ((wpkgSimulation img T).run h)

end System

theorem semaphores_never_outrun_queues_waiting :
    waitingDev.semVm + ∑ t, ((atRest waitingDev .wild : Sys (Fin 5)).vm t).pc.grantedVm ≤
      waitingDev.rpkgList.length :=
  (semaphores_never_outrun_queues (run_createCcb (plainImage .dataSet)
    (newPackage 1 7 emptyResponse) rfl (plainCcb_fresh 7 2))).1.1

end TsmVm
