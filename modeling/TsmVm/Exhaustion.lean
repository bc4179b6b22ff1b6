import TsmVm.Redispatch
import TsmVm.Standstill
import TsmVm.Lib.Families
import Mathlib.Algebra.Order.BigOperators.Group.Finset
import Mathlib.Data.Fintype.Card

/-!
# What a bootstrap costs

A package that is put back has lost its mark and its payload, so the thread that takes it
again never gets past `skip_tagAx`. Each package put back costs the VM a thread as soon as
it is taken: the books of a run are exact, and when they show as many packages taken again
as there are threads, the VM is at rest for good, whatever still comes in.
-/

namespace TsmVm

/-- The packages on the queue that have been put back. -/
def Dev.putBack (d : Dev) : ℕ := d.rpkgList.countP fun skb => !skb.isNew

/-- A thread with a package that has been put back, counted. -/
def VmPc.lost : VmPc → ℕ
  | .receive (some skb) => if skb.isNew then 0 else 1
  | _ => 0

/-- A package is put back. -/
def Act.isRequeue {T : Type} : Act T → Bool
  | .vm _ (.requeue _) => true
  | _ => false

/-- How many packages have been put back. -/
def requeues {T : Type} (ls : List (Act T)) : ℕ := ls.countP Act.isRequeue

theorem VmPc.lost_le (pc : VmPc) : pc.lost ≤ 1 := by
  cases pc with
  | receive skb =>
    cases skb with
    | none => exact Nat.zero_le _
    | some skb =>
      rw [VmPc.lost]
      split <;> omega
  | _ => exact Nat.zero_le _

theorem VmPc.lost_eq_one {pc : VmPc} :
    pc.lost = 1 ↔ ∃ skb, pc = .receive (some skb) ∧ skb.isNew = false := by
  constructor
  · intro h
    cases pc with
    | receive skb =>
      cases skb with
      | none => cases h
      | some skb =>
        cases hnew : skb.isNew with
        | false => exact ⟨skb, rfl, hnew⟩
        | true => simp [VmPc.lost, hnew] at h
    | _ => cases h
  · rintro ⟨skb, rfl, hold⟩
    simp [VmPc.lost, hold]

section Books

variable {T : Type} {img : Image} {d d' : Dev}

/-- What a thread does to the packages that have been put back. -/
theorem VmStep.lost {th th' : VmThread} {a : VmAct} (t : T) (h : VmStep img d th a d' th')
    (hth : th.pc.HoldsSpent) : d'.putBack + th'.pc.lost =
      d.putBack + th.pc.lost + if (Act.vm t a).isRequeue then 1 else 0 := by
  cases h with
  | dequeue =>
    cases hq : d.rpkgList with
    | nil => simp [Dev.putBack, VmPc.lost, Act.isRequeue, hq]
    | cons skb q =>
      cases hnew : skb.isNew <;>
        simp [Dev.putBack, VmPc.lost, Act.isRequeue, hq, hnew]
  | @receive fba fba' skb skb' u h =>
    -- a package that has been put back is not received
    obtain hnew | hspent := (show skb.NewOrSpent from hth)
    · simp [VmPc.lost, Act.isRequeue, hnew]
    · rw [tsmVmReceive_of_len_eq_zero hspent.len_eq] at h
      cases h
  | requeue =>
    have hold : Skb.isNew _ = false := (show Skb.Spent _ from hth).isNew_eq
    simp [Dev.putBack, VmPc.lost, Act.isRequeue, hold]
  | _ => rfl

/-- The reader puts nothing back. -/
theorem ReaderStep.putBack_eq {pc pc' : ReaderPc} {a : ReaderAct} (h : ReaderStep d pc a d' pc')
    (hpc : pc.HoldsNew) : d'.putBack = d.putBack := by
  cases h with
  | queueVm =>
    have hnew : Skb.isNew _ = true := hpc
    simp [Dev.putBack, hnew]
  | _ => rfl

variable [DecidableEq T] {s s' : Sys T} {l : Act T}

/-- A thread that has a package which was put back stands still. -/
theorem standstill_of_lost (h : Lts.Reachable (tsmSystem img T) s) {t : T} {skb : Skb}
    (hpc : (s.vm t).pc = .receive (some skb)) (hold : skb.isNew = false) :
    Standstill img s.dev (s.vm t) := by
  have hspent : skb.Spent := by
    have hholds := (spentInv_of_reachable h).vm t
    rw [hpc] at hholds
    refine (show skb.NewOrSpent from hholds).resolve_left ?_
    rw [hold]
    exact Bool.false_ne_true
  have hbad : ∀ u r, tsmVmReceive u skb (s.vm t).fba ≠ .ok r := by
    intro u r hok
    rw [tsmVmReceive_of_len_eq_zero hspent.len_eq] at hok
    cases hok
  have hth : s.vm t = ⟨.receive (some skb), (s.vm t).fba⟩ := by rw [← hpc]
  rw [hth]
  exact .badResponse hbad

/-- It does so for good. -/
theorem vm_eq_of_lost (h : Lts.Reachable (tsmSystem img T) s) {t : T} {skb : Skb}
    (hpc : (s.vm t).pc = .receive (some skb)) (hold : skb.isNew = false) {later : List (Act T)}
    {u : Sys T} (hrun : Lts.Run (tsmSystem img T) s later u) :
    u.vm t = s.vm t ∧ ∀ a, Act.vm t a ∉ later := by
  induction hrun with
  | nil => exact ⟨rfl, fun a => List.not_mem_nil⟩
  | @snoc mid u later l hrun hstep ih =>
    obtain ⟨hsame, hnone⟩ := ih
    have hstill : Standstill img mid.dev (mid.vm t) :=
      standstill_of_lost (h.run hrun) (by rw [hsame]; exact hpc) hold
    have hstep : SysStep img mid l u := hstep
    cases hstep with
    | @vm t' a d th hvm =>
      have hother : t ≠ t' := by
        rintro rfl
        exact hstill.not_step hvm
      refine ⟨(Function.update_of_ne hother ..).trans hsame, fun a' hmem => ?_⟩
      rcases List.mem_append.mp hmem with hmem | hmem
      · exact hnone a' hmem
      · have heq := List.mem_singleton.mp hmem
        exact hother (Act.vm.inj heq).1
    | reader | writer =>
      refine ⟨hsame, fun a hmem => ?_⟩
      rcases List.mem_append.mp hmem with hmem | hmem
      · exact hnone a hmem
      · cases List.mem_singleton.mp hmem

variable [Fintype T]

/-- The threads that have come to rest over a package which was put back. -/
def Sys.lost (s : Sys T) : ℕ := ∑ t, (s.vm t).pc.lost

/-- The books of one step. -/
theorem SysStep.lost (h : SysStep img s l s') (hinv : SpentInv s) :
    s'.dev.putBack + s'.lost = s.dev.putBack + s.lost + if l.isRequeue then 1 else 0 := by
  cases h with
  | @vm t a d th h =>
    have hthread := h.lost t (hinv.vm t)
    have hsum := Families.sum_update (fun v : VmThread => v.pc.lost) s.vm t th
    simp only [Sys.lost] at *
    omega
  | reader h =>
    have hsame := h.putBack_eq hinv.reader
    simp only [Sys.lost, Act.isRequeue, hsame]
    rfl
  | writer h => simp [Sys.lost, Act.isRequeue, Dev.putBack, h.dev_eq.1]

/-- **The cost of a bootstrap.** In every run the packages that have been put back are those
still on the queue and those a thread has come to rest over; such a thread never makes a
step again. So when as many of them have been taken as there are threads, no thread of the
VM ever does anything again. -/
theorem requeues_stop_threads {ls : List (Act T)} (h : Lts.Run (tsmSystem img T) .start ls s) :
    requeues ls = s.dev.putBack + s.lost ∧
      (∀ t skb, (s.vm t).pc = .receive (some skb) → skb.isNew = false → ∀ later u,
        Lts.Run (tsmSystem img T) s later u → u.vm t = s.vm t ∧ ∀ a, Act.vm t a ∉ later) ∧
      (requeues ls = s.dev.putBack + Fintype.card T → ∀ later u,
        Lts.Run (tsmSystem img T) s later u → ∀ t a, Act.vm t a ∉ later) := by
  have hbooks : requeues ls = s.dev.putBack + s.lost := by
    induction h with
    | nil => simp [requeues, Sys.lost, Sys.start, Dev.start, Dev.putBack, VmPc.lost]
    | @snoc s s' ls l hrun hstep ih =>
      have hinv := spentInv_of_reachable ⟨_, ls, rfl, hrun⟩
      have hone := SysStep.lost hstep hinv
      rw [requeues, List.countP_append, List.countP_singleton, hone, ← ih]
      rfl
  have hreach : Lts.Reachable (tsmSystem img T) s := ⟨.start, ls, rfl, h⟩
  refine ⟨hbooks, fun t skb hpc hold later u hrun => vm_eq_of_lost hreach hpc hold hrun, ?_⟩
  intro hall later u hrun t a
  have hcard : ∑ t, (s.vm t).pc.lost = ∑ t : T, 1 := by
    rw [← Finset.card_eq_sum_ones, Finset.card_univ]
    exact Nat.add_left_cancel (hbooks.symm.trans hall)
  have hone : (s.vm t).pc.lost = 1 :=
    (Finset.sum_eq_sum_iff_of_le fun t _ => (s.vm t).pc.lost_le).mp hcard t (Finset.mem_univ t)
  obtain ⟨skb, hpc, hold⟩ := VmPc.lost_eq_one.mp hone
  exact (vm_eq_of_lost hreach hpc hold hrun).2 a

end Books

/-- A single thread is at rest after the first package that was put back, in a run with the
readable operand slot of `plainUnspec` behind the code entry. -/
theorem requeues_stop_threads_twice : ∃ (ls : List (Act Unit)) (s : Sys Unit),
    requeues ls = s.dev.putBack + 1 ∧ ∀ later u,
      Lts.Run (tsmSystem (plainImage .gpStoreData) Unit) s later u → ∀ a, Act.vm () a ∉ later := by
  obtain ⟨ls, s, hrun, hpc⟩ := run_storeData_twice
  have hlost : s.lost = 1 :=
    (Fintype.sum_unique _).trans (VmPc.lost_eq_one.mpr ⟨bootstrappedPackage, hpc, rfl⟩)
  have hstop := requeues_stop_threads hrun
  have hcount : requeues ls = s.dev.putBack + 1 := by rw [hstop.1, hlost]
  exact ⟨ls, s, hcount, fun later u hlater a =>
    hstop.2.2 (by rw [Fintype.card_unit]; exact hcount) later u hlater () a⟩

end TsmVm
