import TsmVm.CcbCreate
import TsmVm.Lib.Lts
import TsmVm.Vm

/-!
# The threads of the TSM (`tsm_vm.c`, `tsm_router.c`)

Any number of VM threads, the router's reader and its writer share the device.
A step of the system is one access to the device by one thread: a semaphore
operation, a queue operation, a read or a write of a CCB. Where a computation of
the source does not return, the thread never leaves its point of execution, and
the others go on. What the router's clients send is left open; the reader puts
any package that is marked new on a queue.
-/

namespace TsmVm

/-- Where a VM thread stands in the loop of `tsm_vm`, with the locals it needs. -/
inductive VmPc
  /-- Before `sem_wait(&tsm_dev->sem_vm)`. -/
  | semWait
  /-- Before `skb_dequeue(&router->rpkg_list)`. -/
  | dequeue
  /-- Before `skip_tagAx(skb)`. -/
  | receive (skb : Option Skb)
  /-- Before `fetch_ccb`. -/
  | fetchCcb (skb : Skb)
  /-- Before the script and its program counter are read. -/
  | fetchEntry (skb : Skb) (idx : ℕ)
  /-- Before the bytecode is called. -/
  | call (c : CallSite)
  /-- Before `ccb_get_write_back`. -/
  | testWriteBack (c : CallSite)
  /-- Before `padding_tagA0`. -/
  | reply (c : CallSite)
  /-- Before the reply is queued. -/
  | queueReply (c : CallSite) (out : Skb)
  /-- Before `sem_post(&tsm_dev->sem_router_w)`. -/
  | postReply (c : CallSite)
  /-- Before `ccb_get_bootstrap`. -/
  | testBootstrap (c : CallSite)
  /-- Before the package is put back. -/
  | requeue (skb : Skb)
  /-- Before `sem_post(&tsm_dev->sem_vm)`. -/
  | post

/-- The package a thread has taken from `rpkg_list` and not put back yet. -/
def VmPc.package? : VmPc → Option Skb
  | .receive skb => skb
  | .fetchCcb skb | .fetchEntry skb _ | .requeue skb => some skb
  | .call c | .testWriteBack c | .reply c | .queueReply c _ | .postReply c | .testBootstrap c =>
    some c.skb
  | .semWait | .dequeue | .post => none

/-- A VM thread: its place in the loop and its local `fba`. -/
structure VmThread where
  /-- The place in the loop. -/
  pc : VmPc
  /-- The response decoded last, garbage before the first and after a free. -/
  fba : Ptr FmBytesArray

/-- What a VM thread does in one step, as far as an observer sees it. -/
inductive VmAct
  | semWait
  | dequeue (skb : Option Skb)
  | receive (skb : Skb) (fba : Ptr FmBytesArray)
  | fetchCcb (idx : ℕ)
  | fetchEntry (idx : ℕ)
  | call (c : CallSite) (jump : Option ℤ)
  | testWriteBack (flag : Bool)
  | reply
  | queueReply (out : Skb)
  | postReply
  | testBootstrap (flag : Bool)
  | requeue (skb : Skb)
  | post

/-- The steps of a VM thread on the device. -/
inductive VmStep (img : Image) : Dev → VmThread → VmAct → Dev → VmThread → Prop
  | semWait {d : Dev} {fba : Ptr FmBytesArray} (h : 0 < d.semVm) :
      VmStep img d ⟨.semWait, fba⟩ .semWait { d with semVm := d.semVm - 1 } ⟨.dequeue, fba⟩
  | dequeue {d : Dev} {fba : Ptr FmBytesArray} :
      VmStep img d ⟨.dequeue, fba⟩ (.dequeue d.rpkgList.head?)
        { d with rpkgList := d.rpkgList.tail } ⟨.receive d.rpkgList.head?, fba⟩
  | receive {d : Dev} {fba fba' : Ptr FmBytesArray} {skb skb' : Skb} {u : Unspec}
      (h : tsmVmReceive u skb fba = .ok (skb', fba')) :
      VmStep img d ⟨.receive (some skb), fba⟩ (.receive skb fba') d ⟨.fetchCcb skb', fba'⟩
  | fetchCcb {d : Dev} {fba : Ptr FmBytesArray} {skb : Skb} {idx : ℕ}
      (h : TsmVm.fetchCcb d.ccbList skb.session = some idx) :
      VmStep img d ⟨.fetchCcb skb, fba⟩ (.fetchCcb idx) d ⟨.fetchEntry skb idx, fba⟩
  | fetchEntry {d : Dev} {fba : Ptr FmBytesArray} {skb : Skb} {idx : ℕ} {ccb : Ccb}
      {ce : CodeEntry} {fn : Bytecode} (hccb : d.ccbList[idx]? = some ccb)
      (hce : tsmVmFetchEntry ccb = .ok ce) (hfn : tsmVmFetchBytecode img ccb ce = .ok fn) :
      VmStep img d ⟨.fetchEntry skb idx, fba⟩ (.fetchEntry idx) d
        ⟨.call { skb, fba, idx, ccb, ce, fn }, fba⟩
  -- the CCB may have changed since its entry was fetched
  | call {d : Dev} {fba : Ptr FmBytesArray} {c : CallSite} {ccb ccb' : Ccb} {u : Unspec} {ret : ℤ}
      {jump : Option ℤ} (hccb : d.ccbList[c.idx]? = some ccb)
      (hcall : { c with ccb := ccb }.call u = .ok (ret, ccb'))
      (hjump : c.fn.jump u ccb c.fba (c.ce.parametersAt u.operands) = .ok jump) :
      VmStep img d ⟨.call c, fba⟩ (.call c jump)
        (d.setCcb c.idx ccb') ⟨.testWriteBack c, fba⟩
  | noWriteBack {d : Dev} {fba : Ptr FmBytesArray} {c : CallSite} {ccb : Ccb}
      (hccb : d.ccbList[c.idx]? = some ccb) (hflag : ccb.writeBack = false) :
      VmStep img d ⟨.testWriteBack c, fba⟩ (.testWriteBack false) d ⟨.testBootstrap c, fba⟩
  | writeBack {d : Dev} {fba : Ptr FmBytesArray} {c : CallSite} {ccb : Ccb}
      (hccb : d.ccbList[c.idx]? = some ccb) (hflag : ccb.writeBack = true)
      (hskb : kfreeSkb c.skb = .ok ()) (hfba : fmBytesArrayFree fba = .ok ()) :
      VmStep img d ⟨.testWriteBack c, fba⟩ (.testWriteBack true)
        (Dev.setCcb { d with freed := c.skb.index :: d.freed } c.idx { ccb with writeBack := false })
        ⟨.reply c, .wild⟩
  | reply {d : Dev} {fba : Ptr FmBytesArray} {c : CallSite} {ccb : Ccb} {o : EvalOrder} {u : Unspec}
      {out : Skb} {cmdQ : List Skb} (hccb : d.ccbList[c.idx]? = some ccb)
      (h : tsmVmReply o u ccb = .ok (out, cmdQ)) :
      VmStep img d ⟨.reply c, fba⟩ .reply
        (d.setCcb c.idx { ccb with cmdQ := cmdQ }) ⟨.queueReply c out, fba⟩
  | queueReply {d : Dev} {fba : Ptr FmBytesArray} {c : CallSite} {out : Skb} :
      VmStep img d ⟨.queueReply c out, fba⟩ (.queueReply out)
        { d with wpkgList := d.wpkgList ++ [out] } ⟨.postReply c, fba⟩
  | postReply {d : Dev} {fba : Ptr FmBytesArray} {c : CallSite} :
      VmStep img d ⟨.postReply c, fba⟩ .postReply { d with semRouterW := d.semRouterW + 1 }
        ⟨.testBootstrap c, fba⟩
  | noBootstrap {d : Dev} {fba : Ptr FmBytesArray} {c : CallSite} {ccb : Ccb}
      (hccb : d.ccbList[c.idx]? = some ccb) (hflag : ccb.bootstrap = false) :
      VmStep img d ⟨.testBootstrap c, fba⟩ (.testBootstrap false) d ⟨.semWait, fba⟩
  | bootstrap {d : Dev} {fba : Ptr FmBytesArray} {c : CallSite} {ccb : Ccb}
      (hccb : d.ccbList[c.idx]? = some ccb) (hflag : ccb.bootstrap = true) :
      VmStep img d ⟨.testBootstrap c, fba⟩ (.testBootstrap true)
        (d.setCcb c.idx { ccb with bootstrap := false })
        ⟨.requeue { c.skb with reason := pkgReasonBootstrap }, fba⟩
  | requeue {d : Dev} {fba : Ptr FmBytesArray} {skb : Skb} :
      VmStep img d ⟨.requeue skb, fba⟩ (.requeue skb) { d with rpkgList := d.rpkgList ++ [skb] }
        ⟨.post, fba⟩
  | post {d : Dev} {fba : Ptr FmBytesArray} :
      VmStep img d ⟨.post, fba⟩ .post { d with semVm := d.semVm + 1 } ⟨.semWait, fba⟩

/-- Storing a CCB that agrees with the one before in some respect changes nothing
in that respect. -/
theorem Dev.setCcb_map_of_eq {α : Type} {f : Ccb → α} {d : Dev} {i : ℕ} {old new : Ccb}
    (hold : d.ccbList[i]? = some old) (hf : f new = f old) (idx : ℕ) :
    (d.setCcb i new).ccbList[idx]?.map f = d.ccbList[idx]?.map f := by
  unfold Dev.setCcb
  rw [List.getElem?_set]
  split
  · rename_i hi
    subst hi
    rw [if_pos (List.getElem?_eq_some_iff.mp hold).1, hold]
    simp [hf]
  · rfl

/-- Where the reader stands in `router_aggregate_work`. -/
inductive ReaderPc
  /-- Before the next message. -/
  | loop
  /-- Before a package is put on `rpkg_list`. -/
  | queueVm (skb : Skb)
  /-- Before `sem_post(&tsm_dev->sem_vm)`. -/
  | postVm
  /-- Before an acknowledgement is put on `wpkg_list`. -/
  | queueRouterW (skb : Skb)
  /-- Before `sem_post(&tsm_dev->sem_router_w)`. -/
  | postRouterW

/-- What the reader does in one step. -/
inductive ReaderAct
  | receiveData
  | createCcb
  | registerAgent
  | queueVm (skb : Skb)
  | postVm
  | queueRouterW (skb : Skb)
  | postRouterW

/-- The steps of the reader on the device. A data package, or the one that
created a CCB, goes to the VM; an agent that registers gets an acknowledgement. -/
inductive ReaderStep : Dev → ReaderPc → ReaderAct → Dev → ReaderPc → Prop
  | receiveData {d : Dev} {skb : Skb} (hnew : skb.isNew = true) :
      ReaderStep d .loop .receiveData d (.queueVm skb)
  | createCcb {d : Dev} {skb : Skb} {ccb : Ccb} (hnew : skb.isNew = true) (hccb : ccb.Fresh) :
      ReaderStep d .loop .createCcb { d with ccbList := d.ccbList ++ [ccb] }
        (.queueVm { skb with session := ccb.session })
  | registerAgent {d : Dev} {out : Skb} : ReaderStep d .loop .registerAgent d (.queueRouterW out)
  | queueVm {d : Dev} {skb : Skb} :
      ReaderStep d (.queueVm skb) (.queueVm skb) { d with rpkgList := d.rpkgList ++ [skb] } .postVm
  | postVm {d : Dev} : ReaderStep d .postVm .postVm { d with semVm := d.semVm + 1 } .loop
  | queueRouterW {d : Dev} {out : Skb} :
      ReaderStep d (.queueRouterW out) (.queueRouterW out)
        { d with wpkgList := d.wpkgList ++ [out] } .postRouterW
  | postRouterW {d : Dev} :
      ReaderStep d .postRouterW .postRouterW { d with semRouterW := d.semRouterW + 1 } .loop

/-- Where the writer stands in `router_disaggregate_work`. -/
inductive WriterPc
  /-- Before `sem_wait(&tsm_dev->sem_router_w)`. -/
  | semWait
  /-- Before `skb_dequeue(&router->wpkg_list)`. -/
  | dequeue
  /-- Before the frame is built and sent. -/
  | send (skb : Option Skb)

/-- What the writer does in one step. -/
inductive WriterAct
  | semWait
  | dequeue (skb : Option Skb)
  | send

/-- The steps of the writer on the device. -/
inductive WriterStep : Dev → WriterPc → WriterAct → Dev → WriterPc → Prop
  | semWait {d : Dev} (h : 0 < d.semRouterW) :
      WriterStep d .semWait .semWait { d with semRouterW := d.semRouterW - 1 } .dequeue
  | dequeue {d : Dev} :
      WriterStep d .dequeue (.dequeue d.wpkgList.head?) { d with wpkgList := d.wpkgList.tail }
        (.send d.wpkgList.head?)
  | send {d : Dev} {skb : Skb} : WriterStep d (.send (some skb)) .send d .semWait

/-- The writer touches neither the packages nor the CCBs. -/
theorem WriterStep.dev_eq {d d' : Dev} {pc pc' : WriterPc} {a : WriterAct}
    (h : WriterStep d pc a d' pc') :
    d'.rpkgList = d.rpkgList ∧ d'.ccbList = d.ccbList ∧ d'.freed = d.freed := by
  cases h <;> exact ⟨rfl, rfl, rfl⟩

/-- The whole system: the device and the threads, the VM threads numbered by `T`. -/
structure Sys (T : Type) where
  /-- What the threads share. -/
  dev : Dev
  /-- The VM threads. -/
  vm : T → VmThread
  /-- The thread of `router_aggregate_work`. -/
  reader : ReaderPc
  /-- The thread of `router_disaggregate_work`. -/
  writer : WriterPc

/-- An action of one of the threads. -/
inductive Act (T : Type)
  | vm (t : T) (a : VmAct)
  | reader (a : ReaderAct)
  | writer (a : WriterAct)

section System

variable {T : Type} [DecidableEq T] {img : Image}

/-- A step of the system is a step of one thread. -/
inductive SysStep (img : Image) : Sys T → Act T → Sys T → Prop
  | vm {s : Sys T} {t : T} {a : VmAct} {d : Dev} {th : VmThread}
      (h : VmStep img s.dev (s.vm t) a d th) :
      SysStep img s (.vm t a) { s with dev := d, vm := Function.update s.vm t th }
  | reader {s : Sys T} {a : ReaderAct} {d : Dev} {pc : ReaderPc}
      (h : ReaderStep s.dev s.reader a d pc) :
      SysStep img s (.reader a) { s with dev := d, reader := pc }
  | writer {s : Sys T} {a : WriterAct} {d : Dev} {pc : WriterPc}
      (h : WriterStep s.dev s.writer a d pc) :
      SysStep img s (.writer a) { s with dev := d, writer := pc }

/-- The device at the start: nothing queued, nothing posted, no session. -/
def Dev.start : Dev :=
  { rpkgList := [], wpkgList := [], semVm := 0, semRouterW := 0, ccbList := [], freed := [] }

/-- The system at the start, every thread at the top of its loop. -/
def Sys.start : Sys T :=
  { dev := .start, vm := fun _ => ⟨.semWait, .wild⟩, reader := .loop, writer := .semWait }

/-- The TSM with one VM thread for each element of `T`. -/
def tsmSystem (img : Image) (T : Type) [DecidableEq T] : Lts.System (Sys T) (Act T) where
  init s := s = .start
  step := SysStep img

/-- One VM thread alone with the device. -/
def vmSystem (img : Image) : Lts.System (Dev × VmThread) VmAct where
  init p := p = (.start, ⟨.semWait, .wild⟩)
  step p a q := VmStep img p.1 p.2 a q.1 q.2

/-- A step of the thread before a run of it. -/
theorem vmRun_cons (img : Image) {d d' : Dev} {th th' : VmThread} {a : VmAct} {ls : List VmAct}
    {q : Dev × VmThread} (h : VmStep img d th a d' th')
    (h' : Lts.Run (vmSystem img) (d', th') ls q) : Lts.Run (vmSystem img) (d, th) (a :: ls) q :=
  Lts.Run.cons (m := vmSystem img) (t := (d', th')) h h'

/-- What a thread does while the others rest, the system does. -/
theorem run_of_vmRun {s : Sys T} {t : T} {ls : List VmAct} {q : Dev × VmThread}
    (h : Lts.Run (vmSystem img) (s.dev, s.vm t) ls q) :
    Lts.Run (tsmSystem img T) s (ls.map (Act.vm t))
      { s with dev := q.1, vm := Function.update s.vm t q.2 } := by
  induction h with
  | nil => simpa using Lts.Run.nil
  | @snoc p q ls a _ hstep ih =>
    rw [List.map_append]
    refine Lts.Run.snoc ih ?_
    have hvm : VmStep img p.1 (Function.update s.vm t p.2 t) a q.1 q.2 := by
      rw [Function.update_self]
      exact hstep
    have hsys := SysStep.vm (s := { s with dev := p.1, vm := Function.update s.vm t p.2 }) hvm
    simp only [Function.update_idem] at hsys
    exact hsys

end System

/-- The call an action performs. -/
def VmAct.call? : VmAct → Option (CallSite × Option ℤ)
  | .call c jump => some (c, jump)
  | _ => none

section Iteration

variable {o : EvalOrder} {u : Unspec} {d d' : Dev} {fba fba' : Ptr FmBytesArray} (img : Image)

private theorem setCcb_getElem? {idx : ℕ} (ccb : Ccb) (h : idx < d.ccbList.length) :
    (d.setCcb idx ccb).ccbList[idx]? = some ccb :=
  List.getElem?_set_self h

/-- The loop body up to the call, as steps of the thread. -/
theorem vmRun_enter {c : CallSite} (hsem : 0 < d.semVm) (h : tsmVmEnter img u d fba = .ok c) :
    d.ccbList[c.idx]? = some c.ccb ∧ ∃ skb, Lts.Run (vmSystem img) (d, ⟨.semWait, fba⟩)
      [.semWait, .dequeue (some skb), .receive skb c.fba, .fetchCcb c.idx, .fetchEntry c.idx]
      ({ d with rpkgList := d.rpkgList.tail, semVm := d.semVm - 1 }, ⟨.call c, c.fba⟩) := by
  obtain ⟨skb, hskb, h⟩ := bind_eq_ok.mp h
  obtain ⟨⟨skb', rsp⟩, hrecv, h⟩ := bind_eq_ok.mp h
  obtain ⟨idx, hidx, h⟩ := bind_eq_ok.mp h
  obtain ⟨ccb, hccb, h⟩ := bind_eq_ok.mp h
  obtain ⟨ce, hce, h⟩ := bind_eq_ok.mp h
  obtain ⟨fn, hfn, h⟩ := bind_eq_ok.mp h
  obtain rfl : { skb := skb', fba := rsp, idx, ccb, ce, fn } = c := by simpa using h
  rw [derefOption_eq_ok] at hskb hidx hccb
  refine ⟨hccb, skb, ?_⟩
  have hdeq : VmStep img { d with semVm := d.semVm - 1 } ⟨.dequeue, fba⟩ (.dequeue (some skb))
      { d with rpkgList := d.rpkgList.tail, semVm := d.semVm - 1 } ⟨.receive (some skb), fba⟩ := by
    rw [← hskb]
    exact .dequeue
  exact vmRun_cons img (.semWait hsem) <| vmRun_cons img hdeq <| vmRun_cons img (.receive hrecv) <|
    vmRun_cons img (.fetchCcb hidx) <| vmRun_cons img (.fetchEntry hccb hce hfn) .nil

/-- The bootstrap branch, as steps of the thread. -/
theorem vmRun_bootstrap {c : CallSite} (ccb : Ccb) (hlen : c.idx < d.ccbList.length) :
    ∃ rest, rest.filterMap VmAct.call? = [] ∧
      Lts.Run (vmSystem img) (d.setCcb c.idx ccb, ⟨.testBootstrap c, fba⟩) rest
        ((tsmVmBootstrap d c ccb).1.setCcb c.idx (tsmVmBootstrap d c ccb).2, ⟨.semWait, fba⟩) := by
  have hccb := setCcb_getElem? ccb hlen
  cases hflag : ccb.bootstrap with
  | false =>
    refine ⟨[.testBootstrap false], rfl, ?_⟩
    simp only [tsmVmBootstrap, hflag, Bool.false_eq_true, if_false]
    exact vmRun_cons img (.noBootstrap hccb hflag) .nil
  | true =>
    refine ⟨[.testBootstrap true, .requeue { c.skb with reason := pkgReasonBootstrap }, .post],
      rfl, ?_⟩
    have hstep : VmStep img _ ⟨_, fba⟩ _ _ _ := .bootstrap hccb hflag
    have hrun := vmRun_cons img hstep <| vmRun_cons img .requeue <| vmRun_cons img .post .nil
    simpa only [tsmVmBootstrap, hflag, if_true, Dev.setCcb, List.set_set] using hrun

/-- The reply branch, as steps of the thread. -/
theorem vmRun_writeBack {c : CallSite} {ccb ccb' : Ccb} (hlen : c.idx < d.ccbList.length)
    (h : tsmVmWriteBack o u d c ccb = .ok (d', fba', ccb')) :
    d'.ccbList = d.ccbList ∧ ∃ rest, rest.filterMap VmAct.call? = [] ∧
      Lts.Run (vmSystem img) (d.setCcb c.idx ccb, ⟨.testWriteBack c, c.fba⟩) rest
        (d'.setCcb c.idx ccb', ⟨.testBootstrap c, fba'⟩) := by
  have hccb := setCcb_getElem? ccb hlen
  unfold tsmVmWriteBack at h
  cases hflag : ccb.writeBack with
  | false =>
    simp only [hflag, Bool.false_eq_true, if_false, pure_eq_ok, Except.ok.injEq,
      Prod.mk.injEq] at h
    obtain ⟨rfl, rfl, rfl⟩ := h
    exact ⟨rfl, [.testWriteBack false], rfl, vmRun_cons img (.noWriteBack hccb hflag) .nil⟩
  | true =>
    simp only [hflag, if_true, bind_eq_ok, pure_eq_ok, Except.ok.injEq, Prod.mk.injEq] at h
    obtain ⟨_, hskb, _, hfba, ⟨out, cmdQ⟩, hreply, rfl, rfl, rfl⟩ := h
    refine ⟨rfl, [.testWriteBack true, .reply, .queueReply out, .postReply], rfl, ?_⟩
    have hcleared : c.idx < (d.setCcb c.idx ccb).ccbList.length := by
      simpa [Dev.setCcb] using hlen
    have hset := setCcb_getElem? { ccb with writeBack := false } hcleared
    have hrun := vmRun_cons img (.writeBack hccb hflag hskb hfba) <|
      vmRun_cons img (.reply hset hreply) <| vmRun_cons img .queueReply <|
      vmRun_cons img .postReply .nil
    simpa only [Dev.setCcb, List.set_set] using hrun

/-- The loop body from the call on, as steps of the thread. -/
theorem vmRun_leave {c : CallSite} (hccb : d.ccbList[c.idx]? = some c.ccb)
    (h : tsmVmLeave o u d c = .ok (d', fba')) :
    ∃ jump rest, c.fn.jump u c.ccb c.fba (c.ce.parametersAt u.operands) = .ok jump ∧
      rest.filterMap VmAct.call? = [] ∧
      Lts.Run (vmSystem img) (d, ⟨.call c, c.fba⟩) (.call c jump :: rest)
        (d', ⟨.semWait, fba'⟩) := by
  have hlen : c.idx < d.ccbList.length := (List.getElem?_eq_some_iff.mp hccb).1
  obtain ⟨⟨ret, ccb₁⟩, hcall, h⟩ := bind_eq_ok.mp h
  obtain ⟨⟨d₂, fba₂, ccb₂⟩, hback, h⟩ := bind_eq_ok.mp h
  obtain ⟨rfl, rfl⟩ : _ = d' ∧ fba₂ = fba' := by simpa using h
  obtain ⟨jump, hjump, -⟩ := call_effect hcall
  obtain ⟨hlist, ks, hks, hrun₁⟩ := vmRun_writeBack img hlen hback
  obtain ⟨ls, hls, hrun₂⟩ := vmRun_bootstrap img ccb₂ (hlist ▸ hlen)
  refine ⟨jump, ks ++ ls, hjump, by simp [hks, hls], ?_⟩
  exact vmRun_cons img (.call hccb hcall hjump) (hrun₁.append hrun₂)

/-- **The iteration.** What the loop body computes, the thread does step by
step when nothing comes between, with the call as its only call. -/
theorem vmRun_tsmVm (hsem : 0 < d.semVm) (h : tsmVm img o u d fba = .ok (d', fba')) :
    ∃ c jump ls, tsmVmEnter img u d fba = .ok c ∧
      c.fn.jump u c.ccb c.fba (c.ce.parametersAt u.operands) = .ok jump ∧
      ls.filterMap VmAct.call? = [(c, jump)] ∧
      Lts.Run (vmSystem img) (d, ⟨.semWait, fba⟩) ls (d', ⟨.semWait, fba'⟩) := by
  obtain ⟨c, henter, hleave⟩ := bind_eq_ok.mp h
  obtain ⟨hccb, skb, hrun₁⟩ := vmRun_enter img hsem henter
  have hccb' : ({ d with rpkgList := d.rpkgList.tail,
                         semVm := d.semVm - 1 } : Dev).ccbList[c.idx]? = some c.ccb := hccb
  obtain ⟨jump, rest, hjump, hrest, hrun₂⟩ := vmRun_leave img hccb' hleave
  refine ⟨c, jump, _, henter, hjump, ?_, hrun₁.append hrun₂⟩
  simpa [List.filterMap_cons, VmAct.call?] using hrest

end Iteration

section Histories

variable {T : Type} [DecidableEq T] {d : Dev} {fba : Ptr FmBytesArray}

/-- The system with every thread at the top of its loop. -/
def atRest (d : Dev) (fba : Ptr FmBytesArray) : Sys T :=
  { dev := d, vm := fun _ => ⟨.semWait, fba⟩, reader := .loop, writer := .semWait }

/-- The reader hands a data package to the VM. -/
theorem run_receiveData (img : Image) (skb : Skb) (hnew : skb.isNew = true) :
    Lts.Run (tsmSystem img T) (atRest d fba)
      [.reader .receiveData, .reader (.queueVm skb), .reader .postVm]
      (atRest { d with rpkgList := d.rpkgList ++ [skb], semVm := d.semVm + 1 } fba) :=
  .cons (SysStep.reader (.receiveData hnew)) <| .cons (SysStep.reader .queueVm) <|
    .single (SysStep.reader .postVm)

/-- The reader creates a CCB and hands the package that asked for it to the VM. -/
theorem run_createCcb (img : Image) (skb : Skb) {ccb : Ccb} (hnew : skb.isNew = true)
    (hccb : ccb.Fresh) :
    Lts.Run (tsmSystem img T) (atRest d fba)
      [.reader .createCcb, .reader (.queueVm { skb with session := ccb.session }), .reader .postVm]
      (atRest { d with rpkgList := d.rpkgList ++ [{ skb with session := ccb.session }],
                       semVm := d.semVm + 1, ccbList := d.ccbList ++ [ccb] } fba) :=
  .cons (SysStep.reader (.createCcb hnew hccb)) <| .cons (SysStep.reader .queueVm) <|
    .single (SysStep.reader .postVm)

/-- A single VM thread performs an iteration. -/
theorem run_tsmVm {img : Image} {o : EvalOrder} {u : Unspec} {d' : Dev} {fba' : Ptr FmBytesArray}
    (hsem : 0 < d.semVm) (h : tsmVm img o u d fba = .ok (d', fba')) :
    ∃ (c : CallSite) (jump : Option ℤ) (ls : List VmAct), tsmVmEnter img u d fba = .ok c ∧
      c.fn.jump u c.ccb c.fba (c.ce.parametersAt u.operands) = .ok jump ∧
      ls.filterMap VmAct.call? = [(c, jump)] ∧
      Lts.Run (tsmSystem img Unit) (atRest d fba) (ls.map (Act.vm ())) (atRest d' fba') := by
  obtain ⟨c, jump, ls, henter, hjump, hls, hrun⟩ := vmRun_tsmVm img hsem h
  have hsys := run_of_vmRun (s := (atRest d fba : Sys Unit)) (t := ()) hrun
  have hvm : Function.update (atRest d fba : Sys Unit).vm () ⟨.semWait, fba'⟩ =
      fun _ => ⟨.semWait, fba'⟩ := by
    funext t
    simp
  simp only [hvm] at hsys
  exact ⟨c, jump, ls, henter, hjump, hls, hsys⟩

/-- A package as the reader hands it over, its payload alone in its buffer. -/
def newPackage (index : ℕ) (session : ℤ) (payload : List UInt8) : Skb :=
  { index := index, isNew := true, session := session, msgType := msgData,
    reason := pkgReasonNormal, agent := .null, buff := payload, data := 0,
    tail := payload.length, len := payload.length }

/-- A response of one empty fragment. -/
def emptyResponse : List UInt8 := [0xA1, 0x03, 0xA0, 0x01, 0x01]

/-- A fresh CCB whose script has `n` entries without operands, all for the only
bytecode of its table, which lies at address 1. -/
def plainCcb (session : ℤ) (n : ℕ) : Ccb :=
  { pc := 0, writeBack := false, bootstrap := false, session := session, cmdQ := [], apduQ := [],
    bc := { cnt := 1, bc := leBytes 8 1 },
    se := some { name := [], size := n, codeNum := n,
                 ces := (List.range n).map fun i => some ⟨i, 0, none⟩ },
    bre := [] }

theorem plainCcb_fresh (session : ℤ) (n : ℕ) : (plainCcb session n).Fresh := by
  constructor <;> rfl

/-- The image with one bytecode, at address 1. -/
def plainImage (fn : Bytecode) : Image := fun p => if p = 1 then some fn else none

/-- What C leaves open, left at zero where it can be; behind an entry lies one
operand slot that holds `NULL`. -/
def plainUnspec : Unspec :=
  { addr := fun _ => 1, addr_ne_zero := by simp, behind := fun _ => [], word := fun _ => 0,
    stack := fun _ => 0, stackAddr := 1, skb := fun _ => newPackage 0 0 [], ret := 0,
    operands := [none] }

/-- The device with one session of two entries and no package. -/
def idleDev : Dev := { Dev.start with ccbList := [plainCcb 7 2] }

/-- The device with one session of two entries and a package for it. -/
def waitingDev : Dev :=
  { idleDev with rpkgList := [newPackage 1 7 emptyResponse], semVm := 1 }

end Histories

end TsmVm
