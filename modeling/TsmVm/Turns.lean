import TsmVm.Custody
import TsmVm.Redispatch
import TsmVm.WriteBack

/-!
# What a run comes to

A package that is put back is never dispatched again, so each package that comes in is
good for one bytecode: a run executes no more of a script than there are messages for its
session. And no thread of the VM ever queues a reply, so what the router sends are its own
acknowledgements, in the order in which it made them.
-/

namespace TsmVm

/-! ## One bytecode for a package -/

/-- A package, by its number and its session. -/
def Skb.ticket (s : Skb) : ℕ × ℤ := (s.index, s.session)

/-- The packages the reader has put on `rpkg_list`. -/
def arrivals {T : Type} (ls : List (Act T)) : List (ℕ × ℤ) :=
  ls.filterMap fun
    | .reader (.queueVm skb) => some skb.ticket
    | _ => none

/-- The packages a bytecode has been called for. -/
def turns {T : Type} (ls : List (Act T)) : List (ℕ × ℤ) :=
  ls.filterMap fun
    | .vm _ (.call c _) => some c.skb.ticket
    | _ => none

/-- The package a thread holds that still has its turn. -/
def VmPc.waiting : VmPc → Multiset (ℕ × ℤ)
  | .receive (some skb) => if skb.isNew then {skb.ticket} else 0
  | .fetchCcb skb | .fetchEntry skb _ => {skb.ticket}
  | .call c => {c.skb.ticket}
  | _ => 0

/-- The packages on the queue that still have their turn. -/
def Dev.waiting (d : Dev) : Multiset (ℕ × ℤ) :=
  ((d.rpkgList.filter Skb.isNew).map Skb.ticket : List (ℕ × ℤ))

section Turns

variable {T : Type} {img : Image}

/-- A step of a thread: only a call takes a package its turn. -/
theorem VmStep.waiting {d d' : Dev} {th th' : VmThread} {a : VmAct} (t : T)
    (h : VmStep img d th a d' th') (hth : th.pc.HoldsSpent) :
    d'.waiting + th'.pc.waiting + (turns [Act.vm t a] : Multiset (ℕ × ℤ)) =
      d.waiting + th.pc.waiting := by
  cases h with
  | dequeue =>
    cases hq : d.rpkgList with
    | nil => simp [Dev.waiting, VmPc.waiting, turns, hq]
    | cons skb q =>
      cases hnew : skb.isNew with
      | true =>
        simp only [Dev.waiting, VmPc.waiting, turns, hq, List.head?_cons, List.tail_cons, hnew,
          List.filter_cons_of_pos, List.map_cons, if_true, List.filterMap_cons,
          List.filterMap_nil, Multiset.coe_nil, add_zero]
        rw [add_comm, Multiset.singleton_add, Multiset.cons_coe]
      | false => simp [Dev.waiting, VmPc.waiting, turns, hq, hnew]
  | @receive fba fba' skb skb' u h =>
    obtain ⟨hindex, hsession, -, -⟩ := tsmVmReceive_eq_ok h
    have hticket : skb'.ticket = skb.ticket := Prod.ext hindex hsession
    obtain hnew | hspent := (show skb.NewOrSpent from hth)
    · simp [VmPc.waiting, turns, hnew, hticket]
    · rw [tsmVmReceive_of_len_eq_zero hspent.len_eq] at h
      cases h
  | call hccb hcall hjump => simp [VmPc.waiting, turns, Dev.waiting, Dev.setCcb]
  | requeue =>
    have hold : Skb.isNew _ = false := (show Skb.Spent _ from hth).isNew_eq
    simp [Dev.waiting, VmPc.waiting, turns, hold]
  | _ => simp [Dev.waiting, VmPc.waiting, turns, Dev.setCcb]

/-- What the reader puts on the queue is new. -/
theorem ReaderStep.waiting {d d' : Dev} {pc pc' : ReaderPc} {a : ReaderAct}
    (h : ReaderStep d pc a d' pc') (hpc : pc.HoldsNew) :
    d'.waiting = d.waiting + (arrivals [(.reader a : Act T)] : Multiset (ℕ × ℤ)) := by
  cases h with
  | queueVm =>
    have hnew : Skb.isNew _ = true := hpc
    simp [Dev.waiting, arrivals, hnew, ← Multiset.coe_add]
  | _ => simp [Dev.waiting, arrivals]

variable [Fintype T] [DecidableEq T]

/-- The packages that still have their turn. -/
def Sys.waiting (s : Sys T) : Multiset (ℕ × ℤ) := s.dev.waiting + ∑ t, (s.vm t).pc.waiting

/-- A step of the system moves packages to those that had their turn. -/
theorem SysStep.waiting {s s' : Sys T} {l : Act T} (h : SysStep img s l s') (hinv : SpentInv s) :
    s'.waiting + (turns [l] : Multiset (ℕ × ℤ)) = s.waiting + (arrivals [l] : Multiset _) := by
  cases h with
  | @vm t a d th h =>
    have hthread := h.waiting t (hinv.vm t)
    have hsum := Families.sum_update (fun v : VmThread => v.pc.waiting) s.vm t th
    have harrivals : arrivals [Act.vm t a] = [] := rfl
    rw [harrivals, Multiset.coe_nil, add_zero]
    refine add_right_cancel (b := (s.vm t).pc.waiting) ?_
    calc d.waiting + (∑ i, (Function.update s.vm t th i).pc.waiting)
          + (turns [Act.vm t a] : Multiset _) + (s.vm t).pc.waiting
        = d.waiting + ((∑ i, (s.vm i).pc.waiting) + th.pc.waiting)
          + (turns [Act.vm t a] : Multiset _) := by
          rw [← hsum, ← add_assoc, add_right_comm]
      _ = d.waiting + th.pc.waiting + (turns [Act.vm t a] : Multiset _)
          + ∑ i, (s.vm i).pc.waiting := by
          rw [add_comm (∑ i, (s.vm i).pc.waiting), ← add_assoc, add_right_comm]
      _ = s.waiting + (s.vm t).pc.waiting := by
          rw [hthread, Sys.waiting, add_right_comm]
  | @reader a d pc h =>
    have hturns : turns [(.reader a : Act T)] = [] := rfl
    rw [hturns, Multiset.coe_nil, add_zero, Sys.waiting, Sys.waiting,
      h.waiting (T := T) hinv.reader, add_right_comm]
  | @writer a d pc h =>
    have hturns : turns [(.writer a : Act T)] = [] := rfl
    have harrivals : arrivals [(.writer a : Act T)] = [] := rfl
    rw [hturns, harrivals, Sys.waiting, Sys.waiting, Dev.waiting, Dev.waiting, h.dev_eq.1]

/-- **One bytecode for a package.** In every run the packages a bytecode was called for and
those that still have their turn are the packages that have come in, each once. So no
package gets a second bytecode, and a session executes at most as many entries of its
script as packages have come in for it. -/
theorem one_turn_each {ls : List (Act T)} {s : Sys T}
    (h : Lts.Run (tsmSystem img T) .start ls s) :
    s.waiting + (turns ls : Multiset (ℕ × ℤ)) = (arrivals ls : Multiset (ℕ × ℤ)) ∧
      ((arrivals ls).Nodup → (turns ls).Nodup) ∧
      ∀ session, (turns ls).countP (·.2 = session) ≤ (arrivals ls).countP (·.2 = session) := by
  have hrun : s.waiting + (turns ls : Multiset (ℕ × ℤ)) = (arrivals ls : Multiset (ℕ × ℤ)) := by
    induction h with
    | nil => simp [Sys.waiting, Dev.waiting, VmPc.waiting, turns, arrivals, Sys.start, Dev.start]
    | @snoc s s' ls l hrun hstep ih =>
      have hinv := spentInv_of_reachable ⟨_, ls, rfl, hrun⟩
      have hturns : turns (ls ++ [l]) = turns ls ++ turns [l] := List.filterMap_append
      have harrivals : arrivals (ls ++ [l]) = arrivals ls ++ arrivals [l] := List.filterMap_append
      rw [hturns, harrivals, ← Multiset.coe_add, ← Multiset.coe_add, ← ih,
        add_comm (turns ls : Multiset (ℕ × ℤ)), ← add_assoc, SysStep.waiting hstep hinv,
        add_right_comm]
  have hle : (turns ls : Multiset (ℕ × ℤ)) ≤ (arrivals ls : Multiset (ℕ × ℤ)) := by
    rw [← hrun]
    exact Multiset.le_add_left _ _
  refine ⟨hrun, fun hnodup => ?_, fun session => ?_⟩
  · exact Multiset.coe_nodup.mp (Multiset.nodup_of_le hle (Multiset.coe_nodup.mpr hnodup))
  · have hcount := Multiset.countP_le_of_le (fun p : ℕ × ℤ => p.2 = session) hle
    simpa using hcount

end Turns

/-- The package of `waitingDev`, put back by its only bytecode and taken again; behind the code
entry lies the readable operand slot of `plainUnspec`. -/
theorem one_turn_each_twice : ∃ (ls : List (Act Unit)) (s : Sys Unit),
    (s.vm ()).pc = .receive (some bootstrappedPackage) ∧
      s.waiting + (turns ls : Multiset (ℕ × ℤ)) = (arrivals ls : Multiset (ℕ × ℤ)) := by
  obtain ⟨ls, s, hrun, hpc⟩ := run_storeData_twice
  exact ⟨ls, s, hpc, (one_turn_each hrun).1⟩

/-! ## Only acknowledgements are sent -/

/-- The acknowledgements the reader has put on `wpkg_list`. -/
def acknowledgements {T : Type} (ls : List (Act T)) : List Skb :=
  ls.filterMap fun
    | .reader (.queueRouterW skb) => some skb
    | _ => none

/-- The packages the writer has taken to send. -/
def sent {T : Type} (ls : List (Act T)) : List Skb :=
  ls.filterMap fun
    | .writer (.dequeue skb) => skb
    | _ => none

section Acknowledgements

variable {T : Type} {img : Image}

/-- A thread that is not in the reply branch queues no reply. -/
theorem VmStep.wpkgList_eq {d d' : Dev} {th th' : VmThread} {a : VmAct}
    (h : VmStep img d th a d' th') (hth : ¬ th.pc.Replies) : d'.wpkgList = d.wpkgList := by
  cases h with
  | queueReply => exact absurd trivial hth
  | _ => rfl

/-- The reader puts its acknowledgements at the end of the queue. -/
theorem ReaderStep.acknowledged {d d' : Dev} {pc pc' : ReaderPc} {a : ReaderAct}
    (h : ReaderStep d pc a d' pc') :
    d'.wpkgList = d.wpkgList ++ acknowledgements [(.reader a : Act T)] := by
  cases h <;> simp [acknowledgements]

/-- The writer takes what it sends off the front. -/
theorem WriterStep.sent {d d' : Dev} {pc pc' : WriterPc} {a : WriterAct}
    (h : WriterStep d pc a d' pc') :
    TsmVm.sent [(.writer a : Act T)] ++ d'.wpkgList = d.wpkgList := by
  cases h with
  | dequeue =>
    cases hq : d.wpkgList with
    | nil => simp [TsmVm.sent]
    | cons skb q => simp [TsmVm.sent]
  | _ => rfl

variable [DecidableEq T]

/-- The queue holds what was put on it and is not taken yet. -/
theorem SysStep.acknowledged {s s' : Sys T} {l : Act T} (h : SysStep img s l s')
    (hinv : NoReplyInv s) :
    sent [l] ++ s'.dev.wpkgList = s.dev.wpkgList ++ acknowledgements [l] := by
  cases h with
  | @vm t a d th h =>
    have hsame := h.wpkgList_eq (hinv.threads t)
    simp [sent, acknowledgements, hsame]
  | @reader a d pc h =>
    have hsent : sent [(.reader a : Act T)] = [] := rfl
    rw [hsent, List.nil_append, h.acknowledged (T := T)]
  | @writer a d pc h =>
    have hacks : acknowledgements [(.writer a : Act T)] = [] := rfl
    rw [hacks, List.append_nil, h.sent]

/-- **Only acknowledgements are sent.** In every run, what the writer has taken to send, and
behind it what is still queued, are the acknowledgements of the reader in the order in which
they were made: each is sent at most once and in its turn, and nothing else ever is. -/
theorem only_acknowledgements_sent {ls : List (Act T)} {s : Sys T}
    (h : Lts.Run (tsmSystem img T) .start ls s) :
    sent ls ++ s.dev.wpkgList = acknowledgements ls := by
  induction h with
  | nil => rfl
  | @snoc s s' ls l hrun hstep ih =>
    have hinv := noReplyInv_of_reachable ⟨_, ls, rfl, hrun⟩
    have hsent : sent (ls ++ [l]) = sent ls ++ sent [l] := List.filterMap_append
    have hacks : acknowledgements (ls ++ [l]) = acknowledgements ls ++ acknowledgements [l] :=
      List.filterMap_append
    rw [hsent, hacks, List.append_assoc, SysStep.acknowledged hstep hinv, ← List.append_assoc, ih]

end Acknowledgements

/-- An agent has registered, and the writer has taken the acknowledgement. -/
theorem run_registered (img : Image) (ack : Skb) : ∃ s : Sys Unit,
    Lts.Run (tsmSystem img Unit) .start [.reader .registerAgent, .reader (.queueRouterW ack),
      .reader .postRouterW, .writer .semWait, .writer (.dequeue (some ack))] s ∧
      s.writer = .send (some ack) :=
  ⟨_, ((((Lts.Run.single (SysStep.reader .registerAgent)).snoc (SysStep.reader .queueRouterW)).snoc
    (SysStep.reader .postRouterW)).snoc (SysStep.writer (.semWait Nat.one_pos))).snoc
    (SysStep.writer .dequeue), rfl⟩

theorem only_acknowledgements_sent_registered : ∃ s : Sys Unit,
    s.writer = .send (some (newPackage 1 7 emptyResponse)) ∧
      sent [(.reader .registerAgent : Act Unit),
        .reader (.queueRouterW (newPackage 1 7 emptyResponse)), .reader .postRouterW,
        .writer .semWait, .writer (.dequeue (some (newPackage 1 7 emptyResponse)))] ++
          s.dev.wpkgList = [newPackage 1 7 emptyResponse] := by
  obtain ⟨s, hrun, hwriter⟩ := run_registered (plainImage .dataSet) (newPackage 1 7 emptyResponse)
  exact ⟨s, hwriter, only_acknowledgements_sent hrun⟩

end TsmVm
