import TsmVm.Disposal
import TsmVm.Semaphores
import Mathlib.Algebra.Order.BigOperators.Group.Finset
import Mathlib.Algebra.Order.Group.Multiset

/-!
# Where the packages are, and who is woken for them

Two statements about every run of the system, whatever its bytecodes do and however
its threads are scheduled. A package is in one place: on the queue, with one thread,
or let go. And no package waits unseen: where every thread waits, nothing is queued.
-/

namespace TsmVm

open Lts (TokenQueue)

/-- The thread leaves a package behind: its loop body ends and does not put it back. -/
def LetsGo {T : Type} : Act T → Bool
  | .vm _ (.testBootstrap flag) => !flag
  | _ => false

section Packages

variable {T : Type} {img : Image}

/-- What a step of a thread does to the package it holds. -/
theorem VmStep.custody {d d' : Dev} {th th' : VmThread} {a : VmAct} (t : T)
    (h : VmStep img d th a d' th') : ∃ gone : Multiset ℕ,
      (d'.rpkgList.map Skb.index : Multiset ℕ) + th'.pc.held + gone =
        (d.rpkgList.map Skb.index : Multiset ℕ) + th.pc.held ∧
      gone.card = if LetsGo (.vm t a) then 1 else 0 := by
  cases h with
  | dequeue =>
    refine ⟨0, ?_, rfl⟩
    cases d.rpkgList with
    | nil => simp [VmPc.held, VmPc.package?]
    | cons skb q =>
      simp only [VmPc.held, VmPc.package?, List.head?_cons, List.tail_cons, List.map_cons,
        Option.map_some, Option.elim_some, Option.map_none, Option.elim_none, add_zero]
      rw [add_comm, Multiset.singleton_add, Multiset.cons_coe]
  | receive h =>
    exact ⟨0, by simp [VmPc.held, VmPc.package?, (tsmVmReceive_eq_ok h).1], rfl⟩
  | requeue => exact ⟨0, by simp [VmPc.held, VmPc.package?, ← Multiset.coe_add], rfl⟩
  | @noBootstrap fba c ccb hccb hflag =>
    exact ⟨{c.skb.index}, by simp [VmPc.held, VmPc.package?], rfl⟩
  | _ => exact ⟨0, by rw [add_zero]; rfl, rfl⟩

variable [Fintype T] [DecidableEq T]

/-- What a step of one thread lets go, the system lets go. -/
theorem inFlight_update_gone {s : Sys T} {t : T} {th : VmThread} {d : Dev} {gone : Multiset ℕ}
    (h : (d.rpkgList.map Skb.index : Multiset ℕ) + th.pc.held + gone =
      (s.dev.rpkgList.map Skb.index : Multiset ℕ) + (s.vm t).pc.held) :
    inFlight { s with dev := d, vm := Function.update s.vm t th } + gone = inFlight s := by
  have hsum := Families.sum_update (fun v : VmThread => v.pc.held) s.vm t th
  refine add_right_cancel (b := (s.vm t).pc.held) ?_
  calc (d.rpkgList.map Skb.index : Multiset ℕ) + (∑ i, (Function.update s.vm t th i).pc.held)
        + gone + (s.vm t).pc.held
      = (d.rpkgList.map Skb.index : Multiset ℕ) + ((∑ i, (s.vm i).pc.held) + th.pc.held)
        + gone := by
        rw [← hsum, ← add_assoc, add_right_comm]
    _ = (d.rpkgList.map Skb.index : Multiset ℕ) + th.pc.held + gone
        + ∑ i, (s.vm i).pc.held := by
        rw [add_comm (∑ i, (s.vm i).pc.held), ← add_assoc, add_right_comm]
    _ = (s.dev.rpkgList.map Skb.index : Multiset ℕ) + (s.vm t).pc.held
        + ∑ i, (s.vm i).pc.held := by rw [h]
    _ = inFlight s + (s.vm t).pc.held := by rw [inFlight, add_right_comm]

/-- What a step of the system does to the packages in flight. -/
theorem SysStep.custody {s s' : Sys T} {l : Act T} (h : SysStep img s l s') :
    ∃ gone : Multiset ℕ, inFlight s' + gone = inFlight s + (received [l] : Multiset ℕ) ∧
      gone.card = if LetsGo l then 1 else 0 := by
  cases h with
  | @vm t a d th h =>
    obtain ⟨gone, hheld, hcard⟩ := h.custody t
    have hnone : received [Act.vm t a] = [] := by simp [received]
    refine ⟨gone, ?_, hcard⟩
    rw [hnone, Multiset.coe_nil, add_zero]
    exact inFlight_update_gone hheld
  | reader h =>
    refine ⟨0, ?_, rfl⟩
    rw [add_zero, inFlight, inFlight, (h.received (T := T)).2, ← Multiset.coe_add, add_right_comm]
  | @writer a d pc h =>
    have hnone : received [(.writer a : Act T)] = [] := by simp [received]
    refine ⟨0, ?_, rfl⟩
    rw [hnone, Multiset.coe_nil, add_zero, add_zero, inFlight, inFlight, h.dev_eq.1]

/-- What was received is in flight or was let go. -/
theorem inFlight_of_run {ls : List (Act T)} {s : Sys T}
    (h : Lts.Run (tsmSystem img T) .start ls s) :
    ∃ gone : Multiset ℕ, inFlight s + gone = (received ls : Multiset ℕ) ∧
      gone.card = ls.countP LetsGo := by
  induction h with
  | nil =>
    refine ⟨0, ?_, rfl⟩
    simp [inFlight, received, Sys.start, Dev.start, VmPc.held, VmPc.package?]
  | @snoc s s' ls l _ hstep ih =>
    obtain ⟨gone, hflight, hcard⟩ := ih
    obtain ⟨gone', hflight', hcard'⟩ := SysStep.custody hstep
    have happend : received (ls ++ [l]) = received ls ++ received [l] := by
      rw [received, List.filterMap_append]
      rfl
    refine ⟨gone + gone', ?_, ?_⟩
    · rw [happend, ← Multiset.coe_add, ← hflight, add_right_comm, ← hflight', ← add_assoc,
        add_right_comm]
    · rw [Multiset.card_add, hcard, hcard', List.countP_append, List.countP_singleton]

/-- **One place for a package.** In every run, the packages on the queue and in the
hands of the threads are among those received, as many as were received and not let
go; so if the reader hands over no package twice, none is on the queue twice, with
two threads, or with a thread while it is queued. -/
theorem packages_in_one_place {ls : List (Act T)} {s : Sys T}
    (h : Lts.Run (tsmSystem img T) .start ls s) :
    inFlight s ≤ (received ls : Multiset ℕ) ∧
      (inFlight s).card + ls.countP LetsGo = (received ls).length ∧
      ((received ls).Nodup → (s.dev.rpkgList.map Skb.index).Nodup ∧
        (∀ t i, i ∈ (s.vm t).pc.held → i ∉ s.dev.rpkgList.map Skb.index) ∧
        ∀ t t' i, i ∈ (s.vm t).pc.held → i ∈ (s.vm t').pc.held → t = t') := by
  obtain ⟨gone, hflight, hcard⟩ := inFlight_of_run h
  have hle : inFlight s ≤ (received ls : Multiset ℕ) := by
    rw [← hflight]
    exact Multiset.le_add_right _ _
  refine ⟨hle, ?_, fun hnodup => ?_⟩
  · rw [← hcard, ← Multiset.card_add, hflight, Multiset.coe_card]
  · have honce : (inFlight s).Nodup := Multiset.nodup_of_le hle (Multiset.coe_nodup.mpr hnodup)
    obtain ⟨hqueue, hhands, hdisj⟩ := Multiset.nodup_add.mp honce
    refine ⟨Multiset.coe_nodup.mp hqueue, fun t i hi hmem => ?_, fun t t' i hi hi' => ?_⟩
    · refine Multiset.disjoint_left.mp hdisj (Multiset.mem_coe.mpr hmem) ?_
      exact Multiset.mem_sum.mpr ⟨t, Finset.mem_univ t, hi⟩
    · by_contra htt'
      have hle' : (s.vm t).pc.held + (s.vm t').pc.held ≤ ∑ i, (s.vm i).pc.held := by
        have hpair : ∑ i ∈ {t, t'}, (s.vm i).pc.held = (s.vm t).pc.held + (s.vm t').pc.held :=
          Finset.sum_pair htt'
        rw [← hpair]
        exact Finset.sum_le_sum_of_subset (Finset.subset_univ _)
      have hpair := Multiset.nodup_add.mp (Multiset.nodup_of_le hle' hhands)
      exact Multiset.disjoint_left.mp hpair.2.2 hi hi'

end Packages

/-- A package that has just been handed over: it is the only one, it has not been let go, and
no thread has it while it is queued. -/
theorem packages_in_one_place_waiting :
    inFlight (atRest waitingDev .wild : Sys (Fin 5)) ≤ ({1} : Multiset ℕ) ∧
      (inFlight (atRest waitingDev .wild : Sys (Fin 5))).card = 1 ∧
      ∀ t i, i ∈ ((atRest waitingDev .wild : Sys (Fin 5)).vm t).pc.held →
        i ∉ (atRest waitingDev .wild : Sys (Fin 5)).dev.rpkgList.map Skb.index := by
  obtain ⟨hle, hcard, honce⟩ := packages_in_one_place (T := Fin 5) (run_createCcb
    (plainImage .dataSet) (newPackage 1 7 emptyResponse) rfl (plainCcb_fresh 7 2))
  exact ⟨hle, hcard, (honce (List.nodup_singleton 1)).2.1⟩

section WakeUps

variable {T : Type} [Fintype T] [DecidableEq T] {img : Image}

/-- **No wake-up is lost.** In every reachable state of every run the packages queued
are those the semaphore counts, those a thread still has to post and those a thread
has been let through for, and so are the replies. Where all VM threads wait and the
reader has posted, each of them is let through if a package is queued, and nothing is
queued if none is; where the writer waits and no thread has a reply to post, the
writer is let through if and only if a reply is queued. -/
theorem no_wakeup_lost {ls : List (Act T)} {s : Sys T}
    (h : Lts.Run (tsmSystem img T) .start ls s) :
    s.dev.rpkgList.length =
        s.dev.semVm + ((∑ t, (s.vm t).pc.owesVm) + s.reader.owesVm) +
          ∑ t, (s.vm t).pc.grantedVm ∧
      s.dev.wpkgList.length =
        s.dev.semRouterW + ((∑ t, (s.vm t).pc.owesRouterW) + s.reader.owesRouterW) +
          s.writer.grantedRouterW ∧
      ((∀ t, (s.vm t).pc = .semWait) → s.reader ≠ .postVm → ∀ t,
        (s.dev.rpkgList ≠ [] ↔ ∃ s', SysStep img s (.vm t .semWait) s')) ∧
      (s.writer = .semWait → (∀ t, (s.vm t).pc.owesRouterW = 0) → s.reader ≠ .postRouterW →
        (s.dev.wpkgList ≠ [] ↔ ∃ s', SysStep img s (.writer .semWait) s')) := by
  have hreach : Lts.Reachable (tsmSystem img T) s := ⟨.start, ls, rfl, h⟩
  have hr : s.dev.rpkgList.length =
      s.dev.semVm + ((∑ t, (s.vm t).pc.owesVm) + s.reader.owesVm) + ∑ t, (s.vm t).pc.grantedVm :=
    TokenQueue.balanced_of_reachable ((rpkgSimulation img T).reachable hreach)
  have hw : s.dev.wpkgList.length =
      s.dev.semRouterW + ((∑ t, (s.vm t).pc.owesRouterW) + s.reader.owesRouterW) +
        s.writer.grantedRouterW :=
    TokenQueue.balanced_of_reachable ((wpkgSimulation img T).reachable hreach)
  refine ⟨hr, hw, fun hidle hreader t => ?_, fun hwriter hdebts hreader => ?_⟩
  · have howes : ∑ t, (s.vm t).pc.owesVm = 0 := Finset.sum_eq_zero fun t _ => by rw [hidle]; rfl
    have hgranted : ∑ t, (s.vm t).pc.grantedVm = 0 :=
      Finset.sum_eq_zero fun t _ => by rw [hidle]; rfl
    have hposted : s.reader.owesVm = 0 := by
      cases hs : s.reader <;> first | rfl | exact absurd hs hreader
    have hcount : s.dev.rpkgList.length = s.dev.semVm := by omega
    rw [← List.length_pos_iff, hcount]
    constructor
    · intro hsem
      have hth : s.vm t = ⟨.semWait, (s.vm t).fba⟩ := by rw [← hidle t]
      have hstep : VmStep img s.dev (s.vm t) .semWait { s.dev with semVm := s.dev.semVm - 1 }
          ⟨.dequeue, (s.vm t).fba⟩ := by
        rw [hth]
        exact .semWait hsem
      exact ⟨_, .vm hstep⟩
    · rintro ⟨s', hstep⟩
      cases hstep with
      | vm hvm =>
        generalize s.vm t = th at hvm
        cases hvm with
        | semWait hsem => exact hsem
  · have howes : ∑ t, (s.vm t).pc.owesRouterW = 0 := Finset.sum_eq_zero fun t _ => hdebts t
    have hposted : s.reader.owesRouterW = 0 := by
      cases hs : s.reader <;> first | rfl | exact absurd hs hreader
    have hgranted : s.writer.grantedRouterW = 0 := by rw [hwriter]; rfl
    have hcount : s.dev.wpkgList.length = s.dev.semRouterW := by omega
    rw [← List.length_pos_iff, hcount]
    constructor
    · intro hsem
      have hstep : WriterStep s.dev s.writer .semWait
          { s.dev with semRouterW := s.dev.semRouterW - 1 } .dequeue := by
        rw [hwriter]
        exact .semWait hsem
      exact ⟨_, .writer hstep⟩
    · rintro ⟨s', hstep⟩
      cases hstep with
      | writer hwr =>
        generalize s.writer = pc at hwr
        cases hwr with
        | semWait hsem => exact hsem

/-- A package that has just been handed over to five idle threads. -/
theorem no_wakeup_lost_waiting :
    (waitingDev.rpkgList ≠ [] ↔ ∃ s', SysStep (plainImage .dataSet)
      (atRest waitingDev .wild : Sys (Fin 5)) (.vm 3 .semWait) s') :=
  (no_wakeup_lost (run_createCcb (plainImage .dataSet)
    (newPackage 1 7 emptyResponse) rfl (plainCcb_fresh 7 2))).2.2.1 (fun _ => rfl)
      (by simp [atRest]) 3

end WakeUps

end TsmVm
