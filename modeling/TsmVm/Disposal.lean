import TsmVm.Lib.Families
import TsmVm.Receive
import TsmVm.ReplyEncoding

/-!
# What becomes of a package

At the end of an iteration a package should have been freed, with a reply, or
put back, with a post. The first never happens, because no reply is finished;
the second happens exactly when the bootstrap flag is set at the end and the
write-back flag is not.
-/

namespace TsmVm

/-- The package has been freed or put back with a post, and not both. -/
def DisposedOnce (d d' : Dev) (skb : Skb) : Prop :=
  (d'.freed = skb.index :: d.freed ∧ d'.rpkgList = d.rpkgList ∧ d'.semVm = d.semVm) ∨
  (d'.freed = d.freed ∧ (∃ p, p.index = skb.index ∧ d'.rpkgList = d.rpkgList ++ [p]) ∧
    d'.semVm = d.semVm + 1)

/-- The iteration ends with its package disposed of exactly once. -/
def EndsDisposed (o : EvalOrder) (u : Unspec) (d : Dev) (c : CallSite) : Prop :=
  ∃ d' fba', tsmVmLeave o u d c = .ok (d', fba') ∧ DisposedOnce d d' c.skb

/-- The bytecode returns. -/
def CallSite.Returns (c : CallSite) (u : Unspec) : Prop := ∃ ret ccb', c.call u = .ok (ret, ccb')

section Iteration

variable {o : EvalOrder} {u : Unspec} {d : Dev} {c : CallSite} {ccb : Ccb} {ret : ℤ}

/-- With the write-back flag set the iteration never ends. -/
theorem tsmVmLeave_of_writeBack (hcall : c.call u = .ok (ret, ccb)) (hflag : ccb.writeBack = true)
    (r : Dev × Ptr FmBytesArray) : tsmVmLeave o u d c ≠ .ok r := by
  intro h
  obtain ⟨⟨ret', ccb'⟩, hcall', h⟩ := bind_eq_ok.mp h
  obtain ⟨-, rfl⟩ : ret = ret' ∧ ccb = ccb' := by
    simpa using Except.ok.inj (hcall.symm.trans hcall')
  obtain ⟨⟨d', fba', ccb'⟩, hback, -⟩ := bind_eq_ok.mp h
  unfold tsmVmWriteBack at hback
  rw [if_pos hflag] at hback
  obtain ⟨_, -, hback⟩ := bind_eq_ok.mp hback
  obtain ⟨_, -, hback⟩ := bind_eq_ok.mp hback
  obtain ⟨r, hreply, -⟩ := bind_eq_ok.mp hback
  exact tsmVmReply_ne_ok _ _ _ _ hreply

/-- With the write-back flag clear the iteration ends with the bootstrap branch. -/
theorem tsmVmLeave_of_no_writeBack (hcall : c.call u = .ok (ret, ccb))
    (hflag : ccb.writeBack = false) :
    tsmVmLeave o u d c = .ok ((tsmVmBootstrap d c ccb).1.setCcb c.idx (tsmVmBootstrap d c ccb).2,
      c.fba) := by
  unfold tsmVmLeave tsmVmWriteBack
  simp [hcall, hflag]

/-- The bootstrap branch disposes of the package exactly when the flag is set. -/
theorem disposedOnce_bootstrap_iff :
    DisposedOnce d ((tsmVmBootstrap d c ccb).1.setCcb c.idx (tsmVmBootstrap d c ccb).2) c.skb ↔
      ccb.bootstrap = true := by
  unfold DisposedOnce tsmVmBootstrap
  cases hflag : ccb.bootstrap with
  | false => simp [Dev.setCcb]
  | true =>
    exact iff_of_true
      (.inr ⟨rfl, ⟨{ c.skb with reason := pkgReasonBootstrap }, rfl, rfl⟩, rfl⟩) rfl

/-- **One iteration.** It ends with its package disposed of exactly once if and
only if the bytecode returns, the write-back flag was clear, and the bootstrap
flag was set or is set by the bytecode. -/
theorem endsDisposed_iff : EndsDisposed o u d c ↔
    c.Returns u ∧ c.ccb.writeBack = false ∧ (c.ccb.bootstrap || c.fn.setsBootstrap) = true := by
  constructor
  · rintro ⟨d', fba', hleave, honce⟩
    obtain ⟨⟨ret, ccb⟩, hcall, -⟩ := bind_eq_ok.mp hleave
    obtain ⟨jump, -, heffect⟩ := call_effect hcall
    have hclear : ccb.writeBack = false := by
      rw [← Bool.not_eq_true]
      exact fun hset => tsmVmLeave_of_writeBack hcall hset _ hleave
    rw [tsmVmLeave_of_no_writeBack hcall hclear] at hleave
    obtain ⟨rfl, rfl⟩ : _ = d' ∧ c.fba = fba' := by simpa using hleave
    refine ⟨⟨ret, ccb, hcall⟩, heffect.writeBack_eq ▸ hclear, ?_⟩
    rw [← heffect.bootstrap_eq]
    exact disposedOnce_bootstrap_iff.mp honce
  · rintro ⟨⟨ret, ccb, hcall⟩, hclear, hset⟩
    obtain ⟨jump, -, heffect⟩ := call_effect hcall
    refine ⟨_, _, tsmVmLeave_of_no_writeBack hcall (heffect.writeBack_eq.trans hclear), ?_⟩
    exact disposedOnce_bootstrap_iff.mpr (heffect.bootstrap_eq.trans hset)

end Iteration

/-- The numbers of the packages the reader has put on `rpkg_list`. -/
def received {T : Type} (ls : List (Act T)) : List ℕ :=
  ls.filterMap fun
    | .reader (.queueVm skb) => some skb.index
    | _ => none

/-- The number of the package a thread holds. -/
def VmPc.held (pc : VmPc) : Multiset ℕ := (pc.package?.map Skb.index).elim 0 fun i => {i}

/-- Every test of the flags finds the write-back flag clear and the bootstrap
flag set. -/
def PutsBack {T : Type} (_ : Sys T) : Act T → Prop
  | .vm _ (.testWriteBack flag) => flag = false
  | .vm _ (.testBootstrap flag) => flag = true
  | _ => True

section Runs

variable {T : Type} {img : Image}

/-- A thread that puts its packages back neither frees nor loses one. -/
theorem VmStep.held {d d' : Dev} {th th' : VmThread} {a : VmAct} (h : VmStep img d th a d' th')
    {s : Sys T} {t : T} (ha : PutsBack s (.vm t a)) :
    d'.freed = d.freed ∧ (d'.rpkgList.map Skb.index : Multiset ℕ) + th'.pc.held =
      (d.rpkgList.map Skb.index : Multiset ℕ) + th.pc.held := by
  cases h with
  | dequeue =>
    refine ⟨rfl, ?_⟩
    cases d.rpkgList with
    | nil => simp [VmPc.held, VmPc.package?]
    | cons skb q =>
      simp only [VmPc.held, VmPc.package?, List.head?_cons, List.tail_cons, List.map_cons,
        Option.map_some, Option.elim_some, Option.map_none, Option.elim_none, add_zero]
      rw [add_comm, Multiset.singleton_add, Multiset.cons_coe]
  | receive h => exact ⟨rfl, by simp [VmPc.held, VmPc.package?, (tsmVmReceive_eq_ok h).1]⟩
  | requeue => exact ⟨rfl, by simp [VmPc.held, VmPc.package?, ← Multiset.coe_add]⟩
  | writeBack => cases ha
  | noBootstrap => cases ha
  | _ => exact ⟨rfl, rfl⟩

/-- What the reader puts on the queue is in flight. -/
theorem ReaderStep.received {d d' : Dev} {pc pc' : ReaderPc} {a : ReaderAct}
    (h : ReaderStep d pc a d' pc') : d'.freed = d.freed ∧
      d'.rpkgList.map Skb.index = d.rpkgList.map Skb.index ++ received [(.reader a : Act T)] := by
  cases h <;> exact ⟨rfl, by simp [TsmVm.received]⟩

variable [Fintype T]

/-- The packages on the queue and in the hands of the threads. -/
def inFlight (s : Sys T) : Multiset ℕ :=
  (s.dev.rpkgList.map Skb.index : Multiset ℕ) + ∑ t, (s.vm t).pc.held

variable [DecidableEq T]

/-- A step that leaves the accounts of its thread balanced leaves those of the
system balanced. -/
theorem inFlight_update {s : Sys T} {t : T} {th : VmThread} {d : Dev}
    (h : (d.rpkgList.map Skb.index : Multiset ℕ) + th.pc.held =
      (s.dev.rpkgList.map Skb.index : Multiset ℕ) + (s.vm t).pc.held) :
    inFlight { s with dev := d, vm := Function.update s.vm t th } = inFlight s := by
  have hsum := Families.sum_update (fun v : VmThread => v.pc.held) s.vm t th
  refine add_right_cancel (b := (s.vm t).pc.held) ?_
  calc (d.rpkgList.map Skb.index : Multiset ℕ) + (∑ i, (Function.update s.vm t th i).pc.held)
        + (s.vm t).pc.held
      = (d.rpkgList.map Skb.index : Multiset ℕ) + ((∑ i, (s.vm i).pc.held) + th.pc.held) := by
        rw [add_assoc, hsum]
    _ = (d.rpkgList.map Skb.index : Multiset ℕ) + th.pc.held + ∑ i, (s.vm i).pc.held := by
        rw [add_comm (∑ i, (s.vm i).pc.held), add_assoc]
    _ = (s.dev.rpkgList.map Skb.index : Multiset ℕ) + (s.vm t).pc.held
        + ∑ i, (s.vm i).pc.held := by rw [h]
    _ = inFlight s + (s.vm t).pc.held := by rw [inFlight, add_right_comm]

/-- **Whole runs.** In a run in which every test of the flags finds the write-back
flag clear and the bootstrap flag set, no package is freed, and every package
received is on the queue or in the hands of one thread, once. -/
theorem inFlight_of_putsBack {ls : List (Act T)} {s : Sys T}
    (h : Lts.Run (Lts.restrict (tsmSystem img T) PutsBack) .start ls s) :
    s.dev.freed = [] ∧ inFlight s = (received ls : Multiset ℕ) := by
  induction h with
  | nil => exact ⟨rfl, by simp [inFlight, received, Sys.start, Dev.start, VmPc.held, VmPc.package?]⟩
  | @snoc s s' ls l _ hstep ih =>
    obtain ⟨hfreed, hflight⟩ := ih
    obtain ⟨hput, hstep⟩ := hstep
    have happend : received (ls ++ [l]) = received ls ++ received [l] := by
      rw [received, List.filterMap_append]
      rfl
    cases hstep with
    | @vm t a d th h =>
      obtain ⟨hfreed', hheld⟩ := h.held hput
      have hnone : received [Act.vm t a] = [] := by simp [received]
      rw [happend, hnone, List.append_nil, inFlight_update hheld]
      exact ⟨hfreed'.trans hfreed, hflight⟩
    | reader h =>
      obtain ⟨hfreed', hlist⟩ := h.received (T := T)
      refine ⟨hfreed'.trans hfreed, ?_⟩
      rw [happend, ← Multiset.coe_add, ← hflight, inFlight, inFlight, hlist, ← Multiset.coe_add,
        add_right_comm]
    | @writer a d pc h =>
      refine ⟨h.dev_eq.2.2.trans hfreed, ?_⟩
      have hnone : received [(.writer a : Act T)] = [] := by simp [received]
      rw [happend, hnone, List.append_nil, ← hflight, inFlight, inFlight, h.dev_eq.1]

end Runs

/-- **Disposal.** The exact condition for one iteration, and what follows for
whole runs that keep to it. -/
theorem packages_disposed_iff {T : Type} [Fintype T] [DecidableEq T] (img : Image) (o : EvalOrder)
    (u : Unspec) (d : Dev) (c : CallSite) :
    (EndsDisposed o u d c ↔
      c.Returns u ∧ c.ccb.writeBack = false ∧ (c.ccb.bootstrap || c.fn.setsBootstrap) = true) ∧
    ∀ (ls : List (Act T)) (s : Sys T),
      Lts.Run (Lts.restrict (tsmSystem img T) PutsBack) .start ls s →
        s.dev.freed = [] ∧ inFlight s = (received ls : Multiset ℕ) :=
  ⟨endsDisposed_iff, fun _ _ h => inFlight_of_putsBack h⟩

/-- The call of the first entry of `idleDev`, a line `data_set` without operands. -/
def dataSetCall : CallSite :=
  { skb := newPackage 1 7 [], fba := .wild, idx := 0, ccb := plainCcb 7 2, ce := ⟨0, 0, none⟩,
    fn := .dataSet }

/-- A `data_set` loses its package: it is neither freed nor put back. -/
theorem disposal_fails : ¬ ∀ (o : EvalOrder) (u : Unspec) (d : Dev) (c : CallSite),
    c.Returns u → EndsDisposed o u d c := by
  intro h
  obtain ⟨d', fba', hleave, honce⟩ := h .valueFirst plainUnspec idleDev dataSetCall ⟨_, _, rfl⟩
  have hend : tsmVmLeave .valueFirst plainUnspec idleDev dataSetCall = .ok (idleDev, .wild) := rfl
  rw [hend] at hleave
  obtain ⟨rfl, rfl⟩ : idleDev = d' ∧ Ptr.wild = fba' := by simpa using hleave
  simp [DisposedOnce] at honce

end TsmVm
