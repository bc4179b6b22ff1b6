import TsmVm.Concurrent
import TsmVm.Receive

/-!
# Packages that are put back

A package is either marked new, or decoded to its end; nothing else ever lies on
`rpkg_list` or in the hands of a thread. So whenever a package that was put back
is taken again, the header the VM tries to skip is not there, whichever thread
takes it and whatever happened in between.
-/

namespace TsmVm

/-- The package has been decoded to its end. -/
structure Skb.Spent (s : Skb) : Prop where
  /-- It has lost its mark. -/
  isNew_eq : s.isNew = false
  /-- Nothing is left of its payload. -/
  len_eq : s.len = 0

/-- The package is new or spent. -/
def Skb.NewOrSpent (s : Skb) : Prop := s.isNew = true ∨ s.Spent

/-- What a thread holds is new or spent before it is received and spent after. -/
def VmPc.HoldsSpent : VmPc → Prop
  | .receive (some skb) => skb.NewOrSpent
  | .fetchCcb skb | .fetchEntry skb _ | .requeue skb => skb.Spent
  | .call c | .testWriteBack c | .reply c | .queueReply c _ | .postReply c | .testBootstrap c =>
    c.skb.Spent
  | _ => True

/-- What the reader is about to queue is new. -/
def ReaderPc.HoldsNew : ReaderPc → Prop
  | .queueVm skb => skb.isNew = true
  | _ => True

/-- Everything on the way to a VM thread is new or spent. -/
structure SpentInv {T : Type} (s : Sys T) : Prop where
  /-- On the queue. -/
  queue : ∀ skb ∈ s.dev.rpkgList, skb.NewOrSpent
  /-- In the hands of a VM thread. -/
  vm : ∀ t, (s.vm t).pc.HoldsSpent
  /-- In the hands of the reader. -/
  reader : s.reader.HoldsNew

/-- A package that is received is spent afterwards. -/
theorem Skb.NewOrSpent.receive {u : Unspec} {s t : Skb} {fba fba' : Ptr FmBytesArray}
    (hs : s.NewOrSpent) (h : tsmVmReceive u s fba = .ok (t, fba')) : t.Spent := by
  obtain ⟨-, -, hnew, hdecoded⟩ := tsmVmReceive_eq_ok h
  rcases hs with hs | hs
  · exact ⟨hnew, (hdecoded hs).1⟩
  · rw [tsmVmReceive_of_len_eq_zero hs.len_eq] at h
    cases h

section Steps

variable {img : Image} {d d' : Dev}

/-- A VM thread hands on spent packages only. -/
theorem VmStep.spent {a : VmAct} {th th' : VmThread} (h : VmStep img d th a d' th')
    (hqueue : ∀ skb ∈ d.rpkgList, skb.NewOrSpent) (hth : th.pc.HoldsSpent) :
    (∀ skb ∈ d'.rpkgList, skb.NewOrSpent) ∧ th'.pc.HoldsSpent := by
  cases h with
  | semWait h => exact ⟨hqueue, trivial⟩
  | dequeue =>
    refine ⟨fun skb hskb => hqueue skb (List.mem_of_mem_tail hskb), ?_⟩
    cases hhead : d.rpkgList.head? with
    | none => trivial
    | some skb => exact hqueue skb (List.mem_of_mem_head? hhead)
  | receive h => exact ⟨hqueue, Skb.NewOrSpent.receive hth h⟩
  | bootstrap hccb hflag => exact ⟨hqueue, ⟨hth.isNew_eq, hth.len_eq⟩⟩
  | requeue =>
    refine ⟨fun skb hskb => ?_, trivial⟩
    rcases List.mem_append.mp hskb with hskb | hskb
    · exact hqueue skb hskb
    · obtain rfl := List.mem_singleton.mp hskb
      exact .inr hth
  | noBootstrap hccb hflag => exact ⟨hqueue, trivial⟩
  | post => exact ⟨hqueue, trivial⟩
  | _ => exact ⟨hqueue, hth⟩

/-- The reader queues new packages only. -/
theorem ReaderStep.spent {a : ReaderAct} {pc pc' : ReaderPc} (h : ReaderStep d pc a d' pc')
    (hqueue : ∀ skb ∈ d.rpkgList, skb.NewOrSpent) (hpc : pc.HoldsNew) :
    (∀ skb ∈ d'.rpkgList, skb.NewOrSpent) ∧ pc'.HoldsNew := by
  cases h with
  | receiveData hnew => exact ⟨hqueue, hnew⟩
  | createCcb hnew hccb => exact ⟨hqueue, hnew⟩
  | queueVm =>
    refine ⟨fun skb hskb => ?_, trivial⟩
    rcases List.mem_append.mp hskb with hskb | hskb
    · exact hqueue skb hskb
    · obtain rfl := List.mem_singleton.mp hskb
      exact .inl hpc
  | _ => exact ⟨hqueue, trivial⟩

end Steps

section System

variable {T : Type} [DecidableEq T] {img : Image}

/-- Every step of the system keeps the packages new or spent. -/
theorem SpentInv.step {s s' : Sys T} {l : Act T} (hinv : SpentInv s) (h : SysStep img s l s') :
    SpentInv s' := by
  cases h with
  | @vm t a d th h =>
    obtain ⟨hqueue, hth⟩ := h.spent hinv.queue (hinv.vm t)
    have hvm : ∀ t', (Function.update s.vm t th t').pc.HoldsSpent :=
      (Function.forall_update_iff s.vm fun _ th => th.pc.HoldsSpent).mpr
        ⟨hth, fun t' _ => hinv.vm t'⟩
    exact ⟨hqueue, hvm, hinv.reader⟩
  | reader h =>
    obtain ⟨hqueue, hpc⟩ := h.spent hinv.queue hinv.reader
    exact ⟨hqueue, hinv.vm, hpc⟩
  | writer h => exact ⟨h.dev_eq.1 ▸ hinv.queue, hinv.vm, hinv.reader⟩

/-- All packages are new or spent in every reachable state. -/
theorem spentInv_of_reachable {s : Sys T} (h : Lts.Reachable (tsmSystem img T) s) : SpentInv s := by
  refine h.invariant ?_ fun hinv hstep => SpentInv.step hinv hstep
  rintro s rfl
  exact ⟨by simp [Sys.start, Dev.start], fun _ => trivial, trivial⟩

/-- The response decoded at the first dispatch of a package. -/
def firstResponse (index : ℕ) (ls : List (Act T)) : Option FmBytesArray :=
  ls.findSome? fun
    | .vm _ (.receive skb (.obj rsp)) => if skb.index = index then some rsp else none
    | _ => none

/-- The package is received without a stray access, and with its own response. -/
def KeepsResponse (ls : List (Act T)) (u : Unspec) (skb : Skb) (fba : Ptr FmBytesArray) : Prop :=
  ∃ skb' rsp, tsmVmReceive u skb fba = .ok (skb', .obj rsp) ∧
    firstResponse skb.index ls = some rsp

/-- **No package keeps its response.** In every run, a VM thread that has taken a
package that was put back dereferences `NULL` before it gets to a bytecode. -/
theorem redispatch_never_keeps_response {ls : List (Act T)} {s : Sys T}
    (h : Lts.Run (tsmSystem img T) .start ls s) {t : T} {skb : Skb}
    (hpc : (s.vm t).pc = .receive (some skb)) (hold : skb.isNew = false) (u : Unspec) :
    tsmVmReceive u skb (s.vm t).fba = .error .nullDeref ∧
      ¬ KeepsResponse ls u skb (s.vm t).fba := by
  have hheld := (spentInv_of_reachable ⟨_, ls, rfl, h⟩).vm t
  rw [hpc] at hheld
  have hstop : tsmVmReceive u skb (s.vm t).fba = .error .nullDeref := by
    rcases hheld with hnew | hspent
    · rw [hold] at hnew
      cases hnew
    · exact tsmVmReceive_of_len_eq_zero hspent.len_eq
  refine ⟨hstop, ?_⟩
  rintro ⟨skb', rsp, hok, -⟩
  rw [hstop] at hok
  cases hok

end System

/-- The package of `waitingDev` after `gp_store_data` without operands has put it
back. -/
def bootstrappedPackage : Skb :=
  { newPackage 1 7 emptyResponse with
    isNew := false, reason := pkgReasonBootstrap, data := 5, len := 0 }

/-- The package is put back and taken again by the only VM thread. Behind the code entry lies
the readable operand slot of `plainUnspec`, which the bytecode takes for its operand. -/
theorem run_storeData_twice : ∃ (ls : List (Act Unit)) (s : Sys Unit),
    Lts.Run (tsmSystem (plainImage .gpStoreData) Unit) .start ls s ∧
      (s.vm ()).pc = .receive (some bootstrappedPackage) := by
  have hcreate : Lts.Run (tsmSystem (plainImage .gpStoreData) Unit) .start _
      (atRest waitingDev .wild) :=
    run_createCcb _ (newPackage 1 7 emptyResponse) rfl (plainCcb_fresh 7 2)
  obtain ⟨c, jump, ls, -, -, -, hrun⟩ := run_tsmVm (by decide)
    (rfl : tsmVm (plainImage .gpStoreData) .valueFirst plainUnspec waitingDev .wild = _)
  refine ⟨_, _, Lts.Run.snoc (Lts.Run.snoc (hcreate.append hrun) (SysStep.vm (t := ())
    (.semWait (by decide)))) (SysStep.vm (t := ()) .dequeue), ?_⟩
  rfl

theorem redispatch_never_keeps_response_storeData : ∃ (ls : List (Act Unit)) (s : Sys Unit),
    (s.vm ()).pc = .receive (some bootstrappedPackage) ∧
      ¬ KeepsResponse ls plainUnspec bootstrappedPackage (s.vm ()).fba := by
  obtain ⟨ls, s, hrun, hpc⟩ := run_storeData_twice
  exact ⟨ls, s, hpc, (redispatch_never_keeps_response hrun hpc rfl plainUnspec).2⟩

/-- A single VM thread and a single package suffice to lose the response. -/
theorem redispatch_fails : ¬ ∀ (T : Type) [DecidableEq T] (img : Image) (ls : List (Act T))
    (s : Sys T), Lts.Run (tsmSystem img T) .start ls s → ∀ t skb,
      (s.vm t).pc = .receive (some skb) → skb.isNew = false →
        ∃ u, KeepsResponse ls u skb (s.vm t).fba := by
  intro h
  obtain ⟨ls, s, hrun, hpc⟩ := run_storeData_twice
  obtain ⟨u, skb, rsp, hok, -⟩ := h Unit _ ls s hrun () _ hpc rfl
  rw [tsmVmReceive_of_len_eq_zero rfl] at hok
  cases hok

end TsmVm
