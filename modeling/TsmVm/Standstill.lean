import TsmVm.Lib.Variant
import TsmVm.Semaphores
import TsmVm.WriteBack

/-!
# Where a thread comes to a standstill

A VM thread waits for a package, or it has run into something that does not return: a
response, a session that is not there, an entry or a bytecode that is not there, or the
bytecode itself. Behind its bytecode nothing can stop it any more, whatever the other
threads do, and it is back at its `sem_wait` after at most four steps of its own.
-/

namespace TsmVm

open Lts (TokenQueue)

/-- The ways in which a thread stands still. -/
inductive Standstill (img : Image) (d : Dev) : VmThread → Prop
  /-- Nothing has been posted. -/
  | waits {fba : Ptr FmBytesArray} (h : d.semVm = 0) : Standstill img d ⟨.semWait, fba⟩
  /-- The response is not one that `skip_tagAx` and `tagA0s_to_fmBytesarray` return from. -/
  | badResponse {skb : Skb} {fba : Ptr FmBytesArray} (h : ∀ u r, tsmVmReceive u skb fba ≠ .ok r) :
      Standstill img d ⟨.receive (some skb), fba⟩
  /-- No session of that number. -/
  | noSession {skb : Skb} {fba : Ptr FmBytesArray} (h : fetchCcb d.ccbList skb.session = none) :
      Standstill img d ⟨.fetchCcb skb, fba⟩
  /-- No entry where the session stands, or no bytecode for it. -/
  | noBytecode {skb : Skb} {idx : ℕ} {fba : Ptr FmBytesArray} {ccb : Ccb}
      (hccb : d.ccbList[idx]? = some ccb)
      (h : ∀ ce fn, tsmVmFetchEntry ccb = .ok ce → tsmVmFetchBytecode img ccb ce ≠ .ok fn) :
      Standstill img d ⟨.fetchEntry skb idx, fba⟩
  /-- A bytecode that does not return. -/
  | noReturn {c : CallSite} {fba : Ptr FmBytesArray} {ccb : Ccb}
      (hccb : d.ccbList[c.idx]? = some ccb)
      (h : ∀ u r, CallSite.call { c with ccb := ccb } u ≠ .ok r) :
      Standstill img d ⟨.call c, fba⟩

section Threads

variable {img : Image} {d d' : Dev} {th th' : VmThread} {a : VmAct}

/-- A thread that stands still makes no step. -/
theorem Standstill.not_step (hstill : Standstill img d th) (h : VmStep img d th a d' th') :
    False := by
  cases hstill with
  | waits hzero =>
    cases h with
    | semWait hpos => omega
  | badResponse hbad =>
    cases h with
    | @receive _ _ _ _ u hok => exact hbad u _ hok
  | noSession hnone =>
    cases h with
    | fetchCcb hsome =>
      rw [hnone] at hsome
      cases hsome
  | noBytecode hccb hnone =>
    cases h with
    | fetchEntry hccb' hce hfn =>
      obtain rfl := Option.some.inj (hccb.symm.trans hccb')
      exact hnone _ _ hce hfn
  | noReturn hccb hnone =>
    cases h with
    | @call _ _ _ _ u _ _ hccb' hcall hjump =>
      obtain rfl := Option.some.inj (hccb.symm.trans hccb')
      exact hnone u _ hcall

/-- A thread that has a package where it should, and a CCB, and no reply to make, can go on
or stands still. -/
theorem VmStep.exists_or_standstill (hreceive : th.pc ≠ .receive none) (hreply : ¬ th.pc.Replies)
    (hccb : ∀ idx, th.pc.ccb? = some idx → ∃ ccb, d.ccbList[idx]? = some ccb ∧ ccb.NoReply) :
    (∃ a d' th', VmStep img d th a d' th') ∨ Standstill img d th := by
  obtain ⟨pc, fba⟩ := th
  cases pc with
  | semWait =>
    rcases Nat.eq_zero_or_pos d.semVm with hzero | hpos
    · exact .inr (.waits hzero)
    · exact .inl ⟨_, _, _, .semWait hpos⟩
  | dequeue => exact .inl ⟨_, _, _, .dequeue⟩
  | receive skb =>
    cases skb with
    | none => exact absurd rfl hreceive
    | some skb =>
      by_cases hok : ∃ u r, tsmVmReceive u skb fba = .ok r
      · obtain ⟨u, ⟨skb', fba'⟩, hok⟩ := hok
        exact .inl ⟨_, _, _, .receive hok⟩
      · exact .inr (.badResponse fun u r h => hok ⟨u, r, h⟩)
  | fetchCcb skb =>
    cases hfetch : TsmVm.fetchCcb d.ccbList skb.session with
    | none => exact .inr (.noSession hfetch)
    | some idx => exact .inl ⟨_, _, _, .fetchCcb hfetch⟩
  | fetchEntry skb idx =>
    obtain ⟨ccb, hget, -⟩ := hccb idx rfl
    by_cases hok : ∃ ce fn, tsmVmFetchEntry ccb = .ok ce ∧ tsmVmFetchBytecode img ccb ce = .ok fn
    · obtain ⟨ce, fn, hce, hfn⟩ := hok
      exact .inl ⟨_, _, _, .fetchEntry hget hce hfn⟩
    · exact .inr (.noBytecode hget fun ce fn hce hfn => hok ⟨ce, fn, hce, hfn⟩)
  | call c =>
    obtain ⟨ccb, hget, -⟩ := hccb c.idx rfl
    by_cases hok : ∃ u r, CallSite.call { c with ccb := ccb } u = .ok r
    · obtain ⟨u, ⟨ret, ccb'⟩, hcall⟩ := hok
      obtain ⟨jump, hjump, -⟩ := call_effect hcall
      exact .inl ⟨_, _, _, .call hget hcall hjump⟩
    · exact .inr (.noReturn hget fun u r h => hok ⟨u, r, h⟩)
  | testWriteBack c =>
    obtain ⟨ccb, hget, hclear⟩ := hccb c.idx rfl
    exact .inl ⟨_, _, _, .noWriteBack hget hclear.writeBack_eq⟩
  | reply | queueReply | postReply => exact absurd trivial hreply
  | testBootstrap c =>
    obtain ⟨ccb, hget, -⟩ := hccb c.idx rfl
    cases hflag : ccb.bootstrap with
    | false => exact .inl ⟨_, _, _, .noBootstrap hget hflag⟩
    | true => exact .inl ⟨_, _, _, .bootstrap hget hflag⟩
  | requeue skb => exact .inl ⟨_, _, _, .requeue⟩
  | post => exact .inl ⟨_, _, _, .post⟩

/-- A thread without a package has come from an empty queue. -/
theorem VmStep.of_receive_none (h : VmStep img d th a d' th') (hpc : th'.pc = .receive none) :
    a = .dequeue none := by
  cases h with
  | dequeue => exact congrArg VmAct.dequeue (VmPc.receive.inj hpc)
  | _ => cases hpc

/-- The steps from behind the call of a bytecode back to `sem_wait`. -/
def VmPc.stepsLeft : VmPc → ℕ
  | .testWriteBack _ => 4
  | .testBootstrap _ => 3
  | .requeue _ => 2
  | .post => 1
  | _ => 0

theorem VmPc.stepsLeft_le (pc : VmPc) : pc.stepsLeft ≤ 4 := by
  cases pc <;> simp [VmPc.stepsLeft]

/-- The thread is behind its bytecode. -/
def VmPc.PastCall : VmPc → Prop
  | .testWriteBack _ | .testBootstrap _ | .requeue _ | .post => True
  | _ => False

/-- Behind its bytecode a thread gets closer to `sem_wait` with each step, unless it has a
reply to make. -/
theorem VmStep.stepsLeft (h : VmStep img d th a d' th') (hpast : th.pc.PastCall)
    (hreply : ¬ th'.pc.Replies) :
    (th'.pc.PastCall ∨ th'.pc = .semWait) ∧ th'.pc.stepsLeft + 1 ≤ th.pc.stepsLeft := by
  cases h with
  | noWriteBack hccb hflag => exact ⟨.inl trivial, by simp [VmPc.stepsLeft]⟩
  | writeBack hccb hflag hskb hfba => exact absurd trivial hreply
  | noBootstrap hccb hflag => exact ⟨.inr rfl, by simp [VmPc.stepsLeft]⟩
  | bootstrap hccb hflag => exact ⟨.inl trivial, by simp [VmPc.stepsLeft]⟩
  | requeue => exact ⟨.inl trivial, by simp [VmPc.stepsLeft]⟩
  | post => exact ⟨.inr rfl, by simp [VmPc.stepsLeft]⟩
  | _ => exact absurd hpast id

end Threads

section Runs

variable {T : Type} [DecidableEq T] {img : Image} {s s' : Sys T} {l : Act T}

/-- A thread that has been let through finds a package. -/
theorem receive_ne_none_of_reachable [Fintype T] (h : Lts.Reachable (tsmSystem img T) s) (t : T) :
    (s.vm t).pc ≠ .receive none := by
  obtain ⟨s₀, ls, hs₀, hrun⟩ := h
  obtain rfl : s₀ = .start := hs₀
  induction hrun with
  | nil => exact nofun
  | @snoc s s' ls l hrun hstep ih =>
    have hbalanced := TokenQueue.balanced_of_reachable
      ((rpkgSimulation img T).reachable ⟨.start, ls, rfl, hrun⟩)
    have hstep : SysStep img s l s' := hstep
    cases hstep with
    | @vm t' a d th hvm =>
      by_cases ht : t = t'
      · subst ht
        change (Function.update s.vm t th t).pc ≠ .receive none
        rw [Function.update_self]
        intro hpc
        obtain rfl := hvm.of_receive_none hpc
        exact absurd (hbalanced.take_isSome (SysStep.rpkg (.vm hvm))) (by decide)
      · change (Function.update s.vm t' th t).pc ≠ .receive none
        rw [Function.update_of_ne ht]
        exact ih
    | reader | writer => exact ih

/-- A thread that is at work has its CCB, which has no reply to make. -/
theorem ccb_of_reachable (h : Lts.Reachable (tsmSystem img T) s) {t : T} {idx : ℕ}
    (hidx : (s.vm t).pc.ccb? = some idx) :
    ∃ ccb, s.dev.ccbList[idx]? = some ccb ∧ ccb.NoReply := by
  obtain ⟨p, -, hsession⟩ := atWork_of_reachable h t idx hidx
  obtain ⟨ccb, hget, -⟩ := Option.map_eq_some_iff.mp hsession
  exact ⟨ccb, hget, (noReplyInv_of_reachable h).ccbs ccb (List.mem_of_getElem? hget)⟩

/-- A thread that is behind its bytecode, or back. -/
def Returning (img : Image) (t : T) (s : Sys T) : Prop :=
  Lts.Reachable (tsmSystem img T) s ∧ ((s.vm t).pc.PastCall ∨ (s.vm t).pc = .semWait)

/-- The steps of a thread. -/
def Act.byVm (t : T) : Act T → Bool
  | .vm t' _ => decide (t' = t)
  | _ => false

/-- A thread on its way back gets there by its own steps, and no other keeps it. -/
theorem Returning.step {t : T} (h : Returning img t s) (hback : (s.vm t).pc ≠ .semWait)
    (hstep : SysStep img s l s') : Returning img t s' ∧
      (s'.vm t).pc.stepsLeft + (if l.byVm t then 1 else 0) ≤ (s.vm t).pc.stepsLeft := by
  have hreach' : Lts.Reachable (tsmSystem img T) s' := h.1.run (.single hstep)
  have hreply := (noReplyInv_of_reachable hreach').threads t
  cases hstep with
  | @vm t' a d th hvm =>
    by_cases ht : t' = t
    · subst ht
      have hth : ({ s with dev := d, vm := Function.update s.vm t' th } : Sys T).vm t' = th :=
        Function.update_self ..
      rw [hth] at hreply
      obtain ⟨hpc, hle⟩ := hvm.stepsLeft (h.2.resolve_right hback) hreply
      refine ⟨⟨hreach', by rw [hth]; exact hpc⟩, ?_⟩
      rw [hth, Act.byVm, decide_eq_true rfl, if_pos rfl]
      exact hle
    · have hth : ({ s with dev := d, vm := Function.update s.vm t' th } : Sys T).vm t = s.vm t :=
        Function.update_of_ne (Ne.symm ht) ..
      refine ⟨⟨hreach', by rw [hth]; exact h.2⟩, ?_⟩
      rw [hth, Act.byVm, decide_eq_false ht]
      exact le_rfl
  | reader | writer => exact ⟨⟨hreach', h.2⟩, le_rfl⟩

/-- A thread with no step left is back. -/
theorem Returning.back {t : T} (h : Returning img t s) (hzero : (s.vm t).pc.stepsLeft = 0) :
    (s.vm t).pc = .semWait := by
  refine h.2.resolve_left fun hpast => ?_
  cases hpc : (s.vm t).pc with
  | testWriteBack | testBootstrap | requeue | post =>
    rw [hpc] at hzero
    cases hzero
  | _ =>
    rw [hpc] at hpast
    exact hpast

/-- **Standstill.** In every reachable state a VM thread cannot go on exactly where nothing
has been posted, where its response does not get decoded, where there is no session of the
number, where the session stands at no entry with a bytecode, and where the bytecode does
not return. And a thread that is behind its bytecode can always go on, and is back at
`sem_wait` in every run in which it makes four more steps, whatever happens in between. -/
theorem standstill_iff [Fintype T] (h : Lts.Reachable (tsmSystem img T) s) (t : T) :
    ((¬ ∃ a s', SysStep img s (.vm t a) s') ↔ Standstill img s.dev (s.vm t)) ∧
      ((s.vm t).pc.PastCall → (∃ a s', SysStep img s (.vm t a) s') ∧
        ∀ ls u, Lts.Run (tsmSystem img T) s ls u → 4 ≤ ls.countP (Act.byVm t) →
          ∃ front back mid, ls = front ++ back ∧ Lts.Run (tsmSystem img T) s front mid ∧
            Lts.Run (tsmSystem img T) mid back u ∧ (mid.vm t).pc = .semWait ∧
            front.countP (Act.byVm t) ≤ 4) := by
  have hcases : (∃ a d' th', VmStep img s.dev (s.vm t) a d' th') ∨ Standstill img s.dev (s.vm t) :=
    VmStep.exists_or_standstill (receive_ne_none_of_reachable h t)
      ((noReplyInv_of_reachable h).threads t) fun idx hidx => ccb_of_reachable h hidx
  have hiff : (¬ ∃ a s', SysStep img s (.vm t a) s') ↔ Standstill img s.dev (s.vm t) := by
    constructor
    · intro hnone
      refine hcases.resolve_left ?_
      rintro ⟨a, d', th', hvm⟩
      exact hnone ⟨a, _, .vm hvm⟩
    · rintro hstill ⟨a, s', hstep⟩
      cases hstep with
      | vm hvm => exact hstill.not_step hvm
  refine ⟨hiff, fun hpast => ⟨?_, fun ls u hrun hcount => ?_⟩⟩
  · by_contra hnone
    have hstill := hiff.mp hnone
    generalize s.vm t = th at hstill hpast
    cases hstill <;> exact hpast
  · have hleft := (s.vm t).pc.stepsLeft_le
    obtain ⟨front, back, mid, heq, hfront, hback, hgoal, hle⟩ :=
      hrun.goal_of_variant (Returning img t) (fun s => (s.vm t).pc = .semWait)
        (fun s => (s.vm t).pc.stepsLeft) (Act.byVm t)
        (fun hs hgoal hstep => Returning.step hs hgoal hstep)
        (fun hs hzero => Returning.back hs hzero) ⟨h, .inl hpast⟩ (hleft.trans hcount)
    exact ⟨front, back, mid, heq, hfront, hback, hgoal, hle.trans hleft⟩

end Runs

/-- A thread that has just called `data_set` goes on. -/
theorem standstill_iff_dataSet : ∃ s : Sys Unit, (s.vm ()).pc.PastCall ∧
    (∃ a s', SysStep (plainImage .dataSet) s (.vm () a) s') ∧
      ¬ Standstill (plainImage .dataSet) s.dev (s.vm ()) := by
  have hcreate : Lts.Run (tsmSystem (plainImage .dataSet) Unit) .start _
      (atRest waitingDev .wild) :=
    run_createCcb _ (newPackage 1 7 emptyResponse) rfl (plainCcb_fresh 7 2)
  have htake := vmRun_take (plainImage .dataSet) (d := waitingDev) .wild (by decide) rfl
  have hcall := htake.append (vmRun_firstCall 1 rfl .wild)
  obtain ⟨s, hreach, hpast⟩ : ∃ s : Sys Unit,
      Lts.Reachable (tsmSystem (plainImage .dataSet) Unit) s ∧ (s.vm ()).pc.PastCall :=
    ⟨_, ⟨.start, _, rfl,
      hcreate.append (run_of_vmRun (s := atRest waitingDev .wild) (t := ()) hcall)⟩, trivial⟩
  have hstill := standstill_iff hreach ()
  have hgoes := (hstill.2 hpast).1
  exact ⟨s, hpast, hgoes, fun hstand => hstill.1.mpr hstand hgoes⟩

end TsmVm
