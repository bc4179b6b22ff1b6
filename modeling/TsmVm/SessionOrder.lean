import TsmVm.Receive
import TsmVm.Semaphores

/-!
# The packages of one session

The queue hands the packages of a session out in the order they were put on it.
Nothing in the source keeps two threads from handling two of them at once, so
the order of the calls is the order of the queue only in runs where no thread
takes a package of a session that another thread is still handling.
-/

namespace TsmVm

open Lts (TokenQueue)

/-- The package a thread has taken and called no bytecode for yet. -/
def VmPc.pending? : VmPc → Option Skb
  | .receive skb => skb
  | .fetchCcb skb | .fetchEntry skb _ => some skb
  | .call c => some c.skb
  | _ => none

/-- The CCB a thread is at work on. -/
def VmPc.ccb? : VmPc → Option ℕ
  | .fetchEntry _ idx => some idx
  | .call c | .testWriteBack c | .reply c | .queueReply c _ | .postReply c | .testBootstrap c =>
    some c.idx
  | _ => none

/-- The thread is handling a package of the session. -/
def VmPc.Handles (pc : VmPc) (session : ℤ) : Prop := ∃ p ∈ pc.package?, p.session = session

/-- A pending package is being handled. -/
theorem VmPc.package?_of_pending? {pc : VmPc} {p : Skb} (h : p ∈ pc.pending?) :
    p ∈ pc.package? := by
  cases pc <;> first | exact h | cases h

section Steps

variable {img : Image} {d d' : Dev} {th th' : VmThread} {a : VmAct}

/-- What a thread handles it has just taken, or was handling before. -/
theorem VmStep.package? (h : VmStep img d th a d' th') {p : Skb} (hp : p ∈ th'.pc.package?) :
    a = .dequeue (some p) ∨
      ∃ q ∈ th.pc.package?, q.index = p.index ∧ q.session = p.session := by
  cases h with
  | dequeue =>
    have hhead : d.rpkgList.head? = some p := hp
    exact .inl (by rw [hhead])
  | @receive _ _ skb skb' u h =>
    obtain rfl : skb' = p := Option.some.inj hp
    obtain ⟨hindex, hsession, -⟩ := tsmVmReceive_eq_ok h
    exact .inr ⟨skb, rfl, hindex.symm, hsession.symm⟩
  | @bootstrap _ c ccb hccb hflag =>
    obtain rfl : { c.skb with reason := pkgReasonBootstrap } = p := Option.some.inj hp
    exact .inr ⟨c.skb, rfl, rfl, rfl⟩
  | semWait | noBootstrap | requeue | post => cases hp
  | _ => exact .inr ⟨p, hp, rfl, rfl⟩

/-- What is pending has just been taken, or was pending before. -/
theorem VmStep.pending? (h : VmStep img d th a d' th') {p : Skb} (hp : p ∈ th'.pc.pending?) :
    a = .dequeue (some p) ∨
      ∃ q ∈ th.pc.pending?, q.index = p.index ∧ q.session = p.session := by
  cases h with
  | dequeue =>
    have hhead : d.rpkgList.head? = some p := hp
    exact .inl (by rw [hhead])
  | @receive _ _ skb skb' u h =>
    obtain rfl : skb' = p := Option.some.inj hp
    obtain ⟨hindex, hsession, -⟩ := tsmVmReceive_eq_ok h
    exact .inr ⟨skb, rfl, hindex.symm, hsession.symm⟩
  | fetchCcb | fetchEntry => exact .inr ⟨p, hp, rfl, rfl⟩
  | _ => cases hp

/-- A call settles the pending package. -/
theorem VmStep.pending?_of_call {c : CallSite} {jump : Option ℤ}
    (h : VmStep img d th (.call c jump) d' th') :
    c.skb ∈ th.pc.pending? ∧ th'.pc.pending? = none := by
  cases h
  exact ⟨rfl, rfl⟩

/-- Nothing is pending before a package is taken. -/
theorem VmStep.pending?_of_dequeue {p : Option Skb} (h : VmStep img d th (.dequeue p) d' th') :
    th.pc.pending? = none := by
  cases h
  rfl

/-- The session of the CCB at a position. -/
def Dev.session (d : Dev) (idx : ℕ) : Option ℤ := d.ccbList[idx]?.map Ccb.session

/-- A VM thread changes the session of no CCB. -/
theorem VmStep.session_eq (h : VmStep img d th a d' th') (idx : ℕ) :
    d'.session idx = d.session idx := by
  cases h with
  | call hccb hcall hjump =>
    obtain ⟨t, -, heffect⟩ := call_effect hcall
    exact Dev.setCcb_map_of_eq hccb heffect.session_eq idx
  | writeBack hccb hflag hskb hfba => exact Dev.setCcb_map_of_eq hccb (by rfl) idx
  | reply hccb h => exact Dev.setCcb_map_of_eq hccb (by rfl) idx
  | bootstrap hccb hflag => exact Dev.setCcb_map_of_eq hccb (by rfl) idx
  | _ => rfl

/-- The reader changes the session of no CCB there is. -/
theorem ReaderStep.session_eq {pc pc' : ReaderPc} {a : ReaderAct} (h : ReaderStep d pc a d' pc')
    {idx : ℕ} {session : ℤ} (hold : d.session idx = some session) :
    d'.session idx = some session := by
  cases h with
  | createCcb hnew hccb =>
    obtain ⟨ccb, hget, rfl⟩ := Option.map_eq_some_iff.mp hold
    have hlt : idx < d.ccbList.length := (List.getElem?_eq_some_iff.mp hget).1
    simp [Dev.session, List.getElem?_append_left hlt, hget]
  | _ => exact hold

/-- `fetch_ccb` finds a CCB of the session. -/
theorem fetchCcb_eq_some {ccbList : List Ccb} {session : ℤ} {idx : ℕ}
    (h : fetchCcb ccbList session = some idx) :
    ∃ ccb, ccbList[idx]? = some ccb ∧ ccb.session = session := by
  obtain ⟨hlt, hsession, -⟩ := List.findIdx?_eq_some_iff_getElem.mp h
  exact ⟨ccbList[idx], List.getElem?_eq_getElem hlt, by simpa using hsession⟩

/-- The CCB a thread is at work on is one of the session of its package. -/
def VmPc.AtWork (d : Dev) (pc : VmPc) : Prop :=
  ∀ idx, pc.ccb? = some idx → ∃ p ∈ pc.package?, d.session idx = some p.session

/-- A VM thread stays with a CCB of the session of its package. -/
theorem VmStep.atWork (h : VmStep img d th a d' th') (hth : th.pc.AtWork d) :
    th'.pc.AtWork d' := by
  have hsession := h.session_eq
  intro idx hidx
  rw [hsession]
  cases h with
  | @fetchCcb _ skb idx' hfetch =>
    obtain rfl : idx' = idx := Option.some.inj hidx
    obtain ⟨ccb, hget, hccb⟩ := fetchCcb_eq_some hfetch
    exact ⟨skb, rfl, by simp [Dev.session, hget, hccb]⟩
  | fetchEntry | call | noWriteBack | writeBack | reply | queueReply | postReply =>
    exact hth idx hidx
  | _ => cases hidx

end Steps

section Histories

variable {T : Type}

/-- The packages of a session put on `rpkg_list`, by number. -/
def sessionPuts (session : ℤ) (ls : List (Act T)) : List ℕ :=
  ((TokenQueue.puts (ls.filterMap rpkgOp)).filter (·.session = session)).map Skb.index

/-- The packages of a session taken from `rpkg_list`, by number. -/
def sessionTakes (session : ℤ) (ls : List (Act T)) : List ℕ :=
  ((TokenQueue.takes (ls.filterMap rpkgOp)).filter (·.session = session)).map Skb.index

/-- The packages of a session a bytecode was called for, by number. -/
def sessionCalls (session : ℤ) (ls : List (Act T)) : List ℕ :=
  ls.filterMap fun
    | .vm _ (.call c _) => if c.skb.session = session then some c.skb.index else none
    | _ => none

/-- The packages of a session that lie on `rpkg_list`, by number. -/
def sessionQueue (session : ℤ) (d : Dev) : List ℕ :=
  (d.rpkgList.filter (·.session = session)).map Skb.index

theorem sessionTakes_concat (session : ℤ) (ls : List (Act T)) (l : Act T) :
    sessionTakes session (ls ++ [l]) = sessionTakes session ls ++ sessionTakes session [l] := by
  simp [sessionTakes]

theorem sessionCalls_concat (session : ℤ) (ls : List (Act T)) (l : Act T) :
    sessionCalls session (ls ++ [l]) = sessionCalls session ls ++ sessionCalls session [l] := by
  rw [sessionCalls, List.filterMap_append]
  rfl

/-- A package of a session is taken only when no other thread is still handling
one of that session. -/
def Exclusive (s : Sys T) : Act T → Prop
  | .vm t (.dequeue (some skb)) => ∀ t', t' ≠ t → ¬ (s.vm t').pc.Handles skb.session
  | _ => True

/-- With a single VM thread every run is exclusive. -/
theorem exclusive_of_subsingleton {T : Type} [Subsingleton T] (s : Sys T) (l : Act T) :
    Exclusive s l := by
  cases l with
  | vm t a =>
    cases a with
    | dequeue p =>
      cases p with
      | none => trivial
      | some p => exact fun t' ht => absurd (Subsingleton.elim t' t) ht
    | _ => trivial
  | _ => trivial

/-- What holds of a session after the actions `ls`. -/
structure SessionInv (session : ℤ) (ls : List (Act T)) (s : Sys T) : Prop where
  /-- One thread at most handles a package of the session. -/
  alone : ∀ t t', (s.vm t).pc.Handles session → (s.vm t').pc.Handles session → t = t'
  /-- The calls are in the order of the queue. -/
  order : (sessionCalls session ls).Sublist (sessionTakes session ls)
  /-- A pending package was taken last, and the calls are for the ones before. -/
  pending : ∀ t, ∀ p ∈ (s.vm t).pc.pending?, p.session = session →
    ∃ before, sessionTakes session ls = before ++ [p.index] ∧
      (sessionCalls session ls).Sublist before

variable {img : Image} {session : ℤ} {ls : List (Act T)} {s : Sys T}

/-- An action that takes and calls nothing of the session leaves its order as it
is. -/
theorem SessionInv.other (hinv : SessionInv session ls s) {s' : Sys T} {l : Act T}
    (htakes : sessionTakes session [l] = []) (hcalls : sessionCalls session [l] = [])
    (halone : ∀ t t', (s'.vm t).pc.Handles session → (s'.vm t').pc.Handles session → t = t')
    (hpending : ∀ t, ∀ p ∈ (s'.vm t).pc.pending?, p.session = session →
      ∃ q ∈ (s.vm t).pc.pending?, q.index = p.index ∧ q.session = p.session) :
    SessionInv session (ls ++ [l]) s' := by
  refine ⟨halone, ?_, ?_⟩
  · rw [sessionCalls_concat, sessionTakes_concat, hcalls, htakes, List.append_nil, List.append_nil]
    exact hinv.order
  · intro t p hp hp'
    obtain ⟨q, hq, hindex, hq'⟩ := hpending t p hp hp'
    rw [sessionCalls_concat, sessionTakes_concat, hcalls, htakes, List.append_nil, List.append_nil,
      ← hindex]
    exact hinv.pending t q hq (hq'.trans hp')

variable [DecidableEq T]

/-- Threads stay apart when one of them moves. -/
theorem SessionInv.alone_update (hinv : SessionInv session ls s) {t : T} {a : VmAct} {d : Dev}
    {th : VmThread} (hexcl : Exclusive s (.vm t a)) (h : VmStep img s.dev (s.vm t) a d th)
    {t₁ t₂ : T} (h₁ : (Function.update s.vm t th t₁).pc.Handles session)
    (h₂ : (Function.update s.vm t th t₂).pc.Handles session) : t₁ = t₂ := by
  -- what the moving thread handles, no other thread does
  have hself : th.pc.Handles session → ∀ t', t' ≠ t → ¬ (s.vm t').pc.Handles session := by
    rintro ⟨p, hp, rfl⟩ t' htt hhandles
    rcases h.package? hp with rfl | ⟨q, hq, -, hsession⟩
    · exact hexcl t' htt hhandles
    · exact htt (hinv.alone t' t hhandles ⟨q, hq, hsession⟩)
  exact Families.unique_update (P := fun th : VmThread => th.pc.Handles session) hinv.alone hself
    h₁ h₂

/-- Taking a package of the session. -/
theorem SessionInv.dequeue (hinv : SessionInv session ls s) {t : T} {p : Skb} {d : Dev}
    {th : VmThread} (hexcl : Exclusive s (.vm t (.dequeue (some p))))
    (hsession : p.session = session)
    (h : VmStep img s.dev (s.vm t) (.dequeue (some p)) d th) :
    SessionInv session (ls ++ [.vm t (.dequeue (some p))])
      { s with dev := d, vm := Function.update s.vm t th } := by
  have htakes : sessionTakes session [Act.vm t (.dequeue (some p))] = [p.index] := by
    simp [sessionTakes, rpkgOp, TokenQueue.takes, hsession]
  have hcalls : sessionCalls session [Act.vm t (.dequeue (some p))] = [] := by simp [sessionCalls]
  refine ⟨fun t₁ t₂ => hinv.alone_update hexcl h, ?_, ?_⟩
  · rw [sessionCalls_concat, sessionTakes_concat, hcalls, List.append_nil]
    exact hinv.order.trans (List.sublist_append_left ..)
  · intro t' q hq hq'
    rw [sessionCalls_concat, sessionTakes_concat, hcalls, htakes, List.append_nil]
    change q ∈ (Function.update s.vm t th t').pc.pending? at hq
    by_cases htt : t' = t
    · rw [htt, Function.update_self] at hq
      rcases h.pending? hq with hact | ⟨r, hr, hindex, hr'⟩
      · obtain rfl : p = q := by simpa using hact
        exact ⟨_, rfl, hinv.order⟩
      · rw [h.pending?_of_dequeue] at hr
        cases hr
    · rw [Function.update_of_ne htt] at hq
      exact absurd ⟨q, VmPc.package?_of_pending? hq, hq'.trans hsession.symm⟩ (hexcl t' htt)

/-- Calling a bytecode for a package of the session. -/
theorem SessionInv.call (hinv : SessionInv session ls s) {t : T} {c : CallSite}
    {jump : Option ℤ} {d : Dev} {th : VmThread} (hsession : c.skb.session = session)
    (h : VmStep img s.dev (s.vm t) (.call c jump) d th) :
    SessionInv session (ls ++ [.vm t (.call c jump)])
      { s with dev := d, vm := Function.update s.vm t th } := by
  have htakes : sessionTakes session [Act.vm t (.call c jump)] = [] := by
    simp [sessionTakes, rpkgOp, TokenQueue.takes]
  have hcalls : sessionCalls session [Act.vm t (.call c jump)] = [c.skb.index] := by
    simp [sessionCalls, hsession]
  obtain ⟨hpending, hsettled⟩ := h.pending?_of_call
  have hhandles : (s.vm t).pc.Handles session :=
    ⟨c.skb, VmPc.package?_of_pending? hpending, hsession⟩
  have hexcl : Exclusive s (.vm t (.call c jump)) := trivial
  refine ⟨fun t₁ t₂ => hinv.alone_update hexcl h, ?_, ?_⟩
  · obtain ⟨before, hbefore, hsub⟩ := hinv.pending t c.skb hpending hsession
    rw [sessionCalls_concat, sessionTakes_concat, hcalls, htakes, List.append_nil, hbefore]
    exact hsub.append (List.Sublist.refl _)
  · intro t' q hq hq'
    change q ∈ (Function.update s.vm t th t').pc.pending? at hq
    by_cases htt : t' = t
    · rw [htt, Function.update_self, hsettled] at hq
      cases hq
    · rw [Function.update_of_ne htt] at hq
      exact absurd (hinv.alone t' t ⟨q, VmPc.package?_of_pending? hq, hq'⟩ hhandles) htt

/-- Every step of an exclusive run keeps the invariant. -/
theorem SessionInv.step (hinv : SessionInv session ls s) {s' : Sys T} {l : Act T}
    (hexcl : Exclusive s l) (h : SysStep img s l s') : SessionInv session (ls ++ [l]) s' := by
  cases h with
  | @vm t a d th h =>
    by_cases hdeq : ∃ p, a = .dequeue (some p) ∧ p.session = session
    · obtain ⟨p, rfl, hp⟩ := hdeq
      exact hinv.dequeue hexcl hp h
    by_cases hcall : ∃ c jump, a = .call c jump ∧ c.skb.session = session
    · obtain ⟨c, jump, rfl, hc⟩ := hcall
      exact hinv.call hc h
    have htakes : sessionTakes session [Act.vm t a] = [] := by
      cases a with
      | dequeue p =>
        cases p with
        | none => simp [sessionTakes, rpkgOp, TokenQueue.takes]
        | some p =>
          have hne : p.session ≠ session := fun hp => hdeq ⟨p, rfl, hp⟩
          simp [sessionTakes, rpkgOp, TokenQueue.takes, hne]
      | _ => simp [sessionTakes, rpkgOp, TokenQueue.takes]
    have hcalls : sessionCalls session [Act.vm t a] = [] := by
      cases a with
      | call c jump =>
        have hne : c.skb.session ≠ session := fun hc => hcall ⟨c, jump, rfl, hc⟩
        simp [sessionCalls, hne]
      | _ => simp [sessionCalls]
    refine hinv.other htakes hcalls (fun t₁ t₂ => hinv.alone_update hexcl h) ?_
    intro t' p hp hp'
    change p ∈ (Function.update s.vm t th t').pc.pending? at hp
    by_cases htt : t' = t
    · rw [htt, Function.update_self] at hp
      rcases h.pending? hp with rfl | hold
      · exact absurd ⟨p, rfl, hp'⟩ hdeq
      · rwa [htt]
    · rw [Function.update_of_ne htt] at hp
      exact ⟨p, hp, rfl, rfl⟩
  | @reader a d pc h =>
    refine hinv.other ?_ (by simp [sessionCalls]) hinv.alone fun t p hp _ => ⟨p, hp, rfl, rfl⟩
    cases a <;> simp [sessionTakes, rpkgOp, TokenQueue.takes]
  | @writer a d pc h =>
    exact hinv.other (by simp [sessionTakes, rpkgOp, TokenQueue.takes]) (by simp [sessionCalls])
      hinv.alone fun t p hp _ => ⟨p, hp, rfl, rfl⟩

/-- The order within a session, after every exclusive run. -/
theorem sessionInv_of_run (h : Lts.Run (Lts.restrict (tsmSystem img T) Exclusive) .start ls s)
    (session : ℤ) : SessionInv session ls s := by
  induction h with
  | nil =>
    refine ⟨?_, List.Sublist.refl _, ?_⟩
    · rintro t t' ⟨p, hp, -⟩
      cases hp
    · intro t p hp
      cases hp
  | snoc _ hstep ih => exact ih.step hstep.1 hstep.2

/-- A thread at work stays with a CCB of the session of its package. -/
theorem atWork_of_reachable (h : Lts.Reachable (tsmSystem img T) s) (t : T) :
    (s.vm t).pc.AtWork s.dev := by
  refine h.invariant (P := fun s => ∀ t, (s.vm t).pc.AtWork s.dev) ?_ ?_ t
  · rintro s rfl t idx hidx
    cases hidx
  · intro s l s' hwork hstep t' idx hidx
    cases hstep with
    | @vm t a d th h =>
      change (Function.update s.vm t th t').pc.ccb? = _ at hidx
      by_cases htt : t' = t
      · rw [htt, Function.update_self] at hidx
        simpa [htt] using h.atWork (hwork t) idx hidx
      · rw [Function.update_of_ne htt] at hidx
        simpa [Function.update_of_ne htt, h.session_eq] using hwork t' idx hidx
    | reader h =>
      obtain ⟨p, hp, hsession⟩ := hwork t' idx hidx
      exact ⟨p, hp, h.session_eq hsession⟩
    | writer h =>
      obtain ⟨p, hp, hsession⟩ := hwork t' idx hidx
      exact ⟨p, hp, by simpa [Dev.session, h.dev_eq.2.1] using hsession⟩

variable [Fintype T]

/-- **Order within a session.** In every run the packages of a session leave the
queue in the order they were put on it. Where no thread takes a package of a
session that another thread is still handling, the bytecodes of the session are
called in that order, one thread at most handles a package of it, and one thread
at most is at work on a CCB. With a single thread it is so in every run. -/
theorem session_order (img : Image) (session : ℤ) :
    (∀ (ls : List (Act T)) (s : Sys T), Lts.Run (tsmSystem img T) .start ls s →
      sessionPuts session ls = sessionTakes session ls ++ sessionQueue session s.dev) ∧
    (∀ (ls : List (Act T)) (s : Sys T),
      Lts.Run (Lts.restrict (tsmSystem img T) Exclusive) .start ls s →
      (sessionCalls session ls).Sublist (sessionPuts session ls) ∧
      (∀ t t', (s.vm t).pc.Handles session → (s.vm t').pc.Handles session → t = t') ∧
      ∀ t t' idx, (s.vm t).pc.ccb? = some idx → (s.vm t').pc.ccb? = some idx → t = t') ∧
    (Subsingleton T → ∀ (s : Sys T) (l : Act T), Exclusive s l) := by
  have hfifo : ∀ (ls : List (Act T)) (s : Sys T), Lts.Run (tsmSystem img T) .start ls s →
      sessionPuts session ls = sessionTakes session ls ++ sessionQueue session s.dev := by
    intro ls s h
    have hqueue : TokenQueue.puts (ls.filterMap rpkgOp) =
        TokenQueue.takes (ls.filterMap rpkgOp) ++ s.dev.rpkgList :=
      TokenQueue.fifo ((rpkgSimulation img T).run h)
    rw [sessionPuts, hqueue, List.filter_append, List.map_append]
    rfl
  refine ⟨hfifo, ?_, fun hsingle => exclusive_of_subsingleton⟩
  intro ls s h
  have hinv := sessionInv_of_run h session
  refine ⟨?_, hinv.alone, ?_⟩
  · rw [hfifo ls s h.of_restrict]
    exact hinv.order.trans (List.sublist_append_left ..)
  · intro t t' idx ht ht'
    have hreach : Lts.Reachable (tsmSystem img T) s := ⟨_, ls, rfl, h.of_restrict⟩
    obtain ⟨p, hp, hsession⟩ := atWork_of_reachable hreach t idx ht
    obtain ⟨q, hq, hsession'⟩ := atWork_of_reachable hreach t' idx ht'
    have hsame : q.session = p.session := Option.some.inj (hsession'.symm.trans hsession)
    exact (sessionInv_of_run h p.session).alone t t' ⟨p, hp, rfl⟩ ⟨q, hq, hsame⟩

end Histories

/-- The device with one session and two packages for it. -/
def twoPackages : Dev :=
  { idleDev with rpkgList := [newPackage 1 7 emptyResponse, newPackage 2 7 emptyResponse],
                 semVm := 2 }

/-- The call that follows for such a package: the first entry, with the response
of one empty fragment. -/
def firstCall (index : ℕ) : CallSite :=
  { skb := { newPackage index 7 emptyResponse with isNew := false, data := 5, len := 0 },
    fba := .obj { addr := 1, size := 16, cnt := 1,
                  array := some ⟨0, 0, 1, []⟩ :: List.replicate 15 none },
    idx := 0, ccb := plainCcb 7 2, ce := ⟨0, 0, none⟩, fn := .dataSet }

/-- A thread that has taken such a package gets to its call, and beyond. -/
theorem vmRun_firstCall (index : ℕ) {d : Dev} (hccb : d.ccbList = [plainCcb 7 2])
    (fba : Ptr FmBytesArray) :
    Lts.Run (vmSystem (plainImage .dataSet))
      (d, ⟨.receive (some (newPackage index 7 emptyResponse)), fba⟩)
      [.receive (newPackage index 7 emptyResponse) (firstCall index).fba, .fetchCcb 0,
        .fetchEntry 0, .call (firstCall index) none]
      (d, ⟨.testWriteBack (firstCall index), (firstCall index).fba⟩) := by
  obtain ⟨rpkgList, wpkgList, semVm, semRouterW, ccbList, freed⟩ := d
  obtain rfl : ccbList = _ := hccb
  have hreceive : tsmVmReceive plainUnspec (newPackage index 7 emptyResponse) fba =
      .ok ((firstCall index).skb, (firstCall index).fba) := rfl
  have hfetch : VmStep (plainImage .dataSet)
      ⟨rpkgList, wpkgList, semVm, semRouterW, [plainCcb 7 2], freed⟩
      ⟨.fetchEntry (firstCall index).skb 0, (firstCall index).fba⟩ (.fetchEntry 0)
      ⟨rpkgList, wpkgList, semVm, semRouterW, [plainCcb 7 2], freed⟩
      ⟨.call (firstCall index), (firstCall index).fba⟩ := .fetchEntry rfl rfl rfl
  have hreturn : CallSite.call { firstCall index with ccb := plainCcb 7 2 } plainUnspec =
      .ok (0, plainCcb 7 2) := by
    change dataSet plainUnspec (plainCcb 7 2) (firstCall index).fba
      ((CodeEntry.mk 0 0 none).parametersAt [none]) = _
    rfl
  have hcall : VmStep (plainImage .dataSet)
      ⟨rpkgList, wpkgList, semVm, semRouterW, [plainCcb 7 2], freed⟩
      ⟨.call (firstCall index), (firstCall index).fba⟩ (.call (firstCall index) none)
      ⟨rpkgList, wpkgList, semVm, semRouterW, [plainCcb 7 2], freed⟩
      ⟨.testWriteBack (firstCall index), (firstCall index).fba⟩ :=
    .call rfl hreturn rfl
  exact vmRun_cons _ (.receive hreceive) <| vmRun_cons _ (.fetchCcb rfl) <|
    vmRun_cons _ hfetch <| vmRun_cons _ hcall .nil

/-- A thread takes the front package. -/
theorem vmRun_take (img : Image) {d : Dev} {skb : Skb} {rest : List Skb} (fba : Ptr FmBytesArray)
    (hsem : 0 < d.semVm) (hqueue : d.rpkgList = skb :: rest) :
    Lts.Run (vmSystem img) (d, ⟨.semWait, fba⟩) [.semWait, .dequeue (some skb)]
      ({ d with rpkgList := rest, semVm := d.semVm - 1 }, ⟨.receive (some skb), fba⟩) := by
  obtain ⟨rpkgList, wpkgList, semVm, semRouterW, ccbList, freed⟩ := d
  obtain rfl : rpkgList = _ := hqueue
  have hdeq : VmStep img ⟨skb :: rest, wpkgList, semVm - 1, semRouterW, ccbList, freed⟩
      ⟨.dequeue, fba⟩ (.dequeue (some skb))
      ⟨rest, wpkgList, semVm - 1, semRouterW, ccbList, freed⟩ ⟨.receive (some skb), fba⟩ := .dequeue
  exact vmRun_cons _ (.semWait hsem) <| vmRun_cons _ hdeq .nil

/-- The system after the first of two threads has taken the first package. -/
def oneTaken : Sys Bool :=
  { (atRest twoPackages .wild : Sys Bool) with
    dev := { idleDev with rpkgList := [newPackage 2 7 emptyResponse], semVm := 1 },
    vm := Function.update (fun _ => ⟨.semWait, .wild⟩) false
      ⟨.receive (some (newPackage 1 7 emptyResponse)), .wild⟩ }

/-- The system after the second thread has called its bytecode. -/
def secondCalled : Sys Bool :=
  { oneTaken with
    dev := idleDev
    vm := Function.update oneTaken.vm true ⟨.testWriteBack (firstCall 2), (firstCall 2).fba⟩ }

/-- Two threads take a package each, and the second calls its bytecode first. -/
theorem run_reordered : ∃ (ls : List (Act Bool)) (s : Sys Bool),
    Lts.Run (tsmSystem (plainImage .dataSet) Bool) .start ls s ∧
      sessionPuts 7 ls = [1, 2] ∧ sessionCalls 7 ls = [2, 1] := by
  have hcreate : Lts.Run (tsmSystem (plainImage .dataSet) Bool) .start _
      (atRest waitingDev .wild) :=
    run_createCcb _ (newPackage 1 7 emptyResponse) rfl (plainCcb_fresh 7 2)
  have hreceive : Lts.Run (tsmSystem (plainImage .dataSet) Bool) (atRest waitingDev .wild) _
      (atRest twoPackages .wild) := run_receiveData _ (newPackage 2 7 emptyResponse) rfl
  have htake : Lts.Run (tsmSystem (plainImage .dataSet) Bool) (atRest twoPackages .wild) _
      oneTaken :=
    run_of_vmRun (s := (atRest twoPackages .wild : Sys Bool)) (t := false)
      (vmRun_take (plainImage .dataSet) (d := twoPackages) .wild (by decide) rfl)
  have hsecond : Lts.Run (tsmSystem (plainImage .dataSet) Bool) oneTaken _ secondCalled :=
    run_of_vmRun (s := oneTaken) (t := true)
      ((vmRun_take (plainImage .dataSet) (d := oneTaken.dev) .wild (by decide) rfl).append
        (vmRun_firstCall 2 rfl .wild))
  have hfirst := run_of_vmRun (s := secondCalled) (t := false)
    (vmRun_firstCall 1 (d := secondCalled.dev) rfl .wild)
  refine ⟨_, _, (((hcreate.append hreceive).append htake).append hsecond).append hfirst, ?_, ?_⟩
  · rfl
  · rfl

/-- With two VM threads the bytecodes of a session may be called out of order. -/
theorem session_order_fails : ¬ ∀ (T : Type) [DecidableEq T] (img : Image) (ls : List (Act T))
    (s : Sys T), Lts.Run (tsmSystem img T) .start ls s →
      ∀ session, (sessionCalls session ls).Sublist (sessionPuts session ls) := by
  intro h
  obtain ⟨ls, s, hrun, hputs, hcalls⟩ := run_reordered
  have hsub := h Bool _ ls s hrun 7
  rw [hputs, hcalls] at hsub
  exact absurd hsub (by decide)

end TsmVm
