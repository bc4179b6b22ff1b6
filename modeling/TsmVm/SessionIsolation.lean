import TsmVm.CcbSteps

/-!
# Sessions kept apart

The router creates a CCB for every request, whether or not its session has one,
and hands on every data message, whether or not its session has one. Where all
sessions that are created are new and all messages are for sessions there are,
each package is executed against the one CCB of its session, and no other CCB
changes.
-/

namespace TsmVm

/-- There is a CCB of the session. -/
def Dev.Knows (d : Dev) (session : ℤ) : Prop := ∃ ccb ∈ d.ccbList, ccb.session = session

/-- The thread gets back to the top of its loop and leaves the CCBs and the
replies as they are. -/
def Discards (img : Image) (d : Dev) (th : VmThread) : Prop :=
  ∃ ls d' fba, Lts.Run (vmSystem img) (d, th) ls (d', ⟨.semWait, fba⟩) ∧
    d'.ccbList = d.ccbList ∧ d'.wpkgList = d.wpkgList

/-- What keeps two sessions apart, in one state. -/
structure IsolatedSessions {T : Type} (img : Image) (s : Sys T) : Prop where
  /-- No two CCBs have the same session. -/
  nodup : (s.dev.ccbList.map Ccb.session).Nodup
  /-- A package is executed against a CCB of its session. -/
  own : ∀ t, (s.vm t).pc.AtWork s.dev
  /-- Only a CCB of that session changes. -/
  others : ∀ t a d th, VmStep img s.dev (s.vm t) a d th → ∀ idx,
    d.ccbList[idx]? = s.dev.ccbList[idx]? ∨
      ∃ p ∈ (s.vm t).pc.package?, s.dev.session idx = some p.session
  /-- A package of a session without a CCB is discarded. -/
  unknown : ∀ t skb, (s.vm t).pc = .fetchCcb skb → ¬ s.dev.Knows skb.session →
    Discards img s.dev (s.vm t)

/-- The session of a CCB that is created is new, and the session of a data
message has a CCB. -/
def KeepsSessions {T : Type} (s : Sys T) (l : Act T) (s' : Sys T) : Prop :=
  (∀ ccb, l = .reader .createCcb → s'.dev.ccbList = s.dev.ccbList ++ [ccb] →
    ¬ s.dev.Knows ccb.session) ∧
  ∀ skb, l = .reader .receiveData → s'.reader = .queueVm skb → s.dev.Knows skb.session

/-! ## Packages -/

/-- The package is on its way to a VM thread, or at one. -/
def Sys.Holds {T : Type} (s : Sys T) (p : Skb) : Prop :=
  p ∈ s.dev.rpkgList ∨ (∃ t, p ∈ (s.vm t).pc.package?) ∨ s.reader = .queueVm p

section Steps

variable {img : Image} {d d' : Dev} {th th' : VmThread} {a : VmAct}

/-- What a thread puts on the queue it was handling. -/
theorem VmStep.mem_rpkgList (h : VmStep img d th a d' th') {p : Skb} (hp : p ∈ d'.rpkgList) :
    p ∈ d.rpkgList ∨ p ∈ th.pc.package? := by
  cases h with
  | dequeue => exact .inl (List.mem_of_mem_tail hp)
  | requeue =>
    obtain hp | hp := List.mem_append.mp hp
    · exact .inl hp
    · obtain rfl := List.mem_singleton.mp hp
      exact .inr rfl
  | _ => exact .inl hp

/-- The package a thread takes was on the queue. -/
theorem VmStep.mem_of_dequeue {p : Skb} (h : VmStep img d th (.dequeue (some p)) d' th') :
    p ∈ d.rpkgList := by
  generalize ha : VmAct.dequeue (some p) = a at h
  cases h with
  | dequeue => exact List.mem_of_mem_head? (VmAct.dequeue.inj ha).symm
  | _ => cases ha

/-- A thread that looks up the session of its package gets on if there is a CCB. -/
theorem VmStep.knows_of_fetchCcb {skb : Skb} {fba : Ptr FmBytesArray}
    (h : VmStep img d ⟨.fetchCcb skb, fba⟩ a d' th') : d.Knows skb.session := by
  cases h with
  | fetchCcb hfetch =>
    obtain ⟨ccb, hget, hsession⟩ := fetchCcb_eq_some hfetch
    exact ⟨ccb, List.mem_of_getElem? hget, hsession⟩

/-- So a package of a session without a CCB is never discarded: the thread goes
through `NULL`. -/
theorem not_discards {skb : Skb} {fba : Ptr FmBytesArray} (h : ¬ d.Knows skb.session) :
    ¬ Discards img d ⟨.fetchCcb skb, fba⟩ := by
  rintro ⟨ls, d', fba', hrun, -⟩
  have hstuck : (d', (⟨.semWait, fba'⟩ : VmThread)) = (d, ⟨.fetchCcb skb, fba⟩) := by
    refine hrun.invariant (P := fun q => q = (d, ⟨.fetchCcb skb, fba⟩)) rfl ?_
    rintro q a q' rfl hstep
    exact absurd (VmStep.knows_of_fetchCcb hstep) h
  cases hstuck

/-- The sessions stay as they are, each at its place. -/
theorem VmStep.sessions_eq (h : VmStep img d th a d' th') :
    d'.ccbList.map Ccb.session = d.ccbList.map Ccb.session := by
  apply List.ext_getElem?
  intro idx
  rw [List.getElem?_map, List.getElem?_map]
  exact h.session_eq idx

/-- The package of a request that created a CCB is for the session of that CCB. -/
theorem ReaderStep.knows_of_createCcb {pc : ReaderPc} {p : Skb}
    (h : ReaderStep d pc .createCcb d' (.queueVm p)) : d'.Knows p.session := by
  cases h with
  | @createCcb skb ccb hnew hccb => exact ⟨ccb, by simp, rfl⟩

/-- What the reader has put on the queue it was about to queue. -/
theorem ReaderStep.mem_rpkgList {pc pc' : ReaderPc} {a : ReaderAct} (h : ReaderStep d pc a d' pc')
    {p : Skb} (hp : p ∈ d'.rpkgList) : p ∈ d.rpkgList ∨ pc = .queueVm p := by
  cases h with
  | queueVm =>
    obtain hp | hp := List.mem_append.mp hp
    · exact .inl hp
    · obtain rfl := List.mem_singleton.mp hp
      exact .inr rfl
  | _ => exact .inl hp

/-- What the reader is about to queue it has just accepted. -/
theorem ReaderStep.accepted {pc : ReaderPc} {a : ReaderAct} {p : Skb}
    (h : ReaderStep d pc a d' (.queueVm p)) : a = .receiveData ∨ a = .createCcb := by
  cases h with
  | receiveData => exact .inl rfl
  | createCcb => exact .inr rfl

variable {T : Type} [DecidableEq T] {s s' : Sys T} {l : Act T}

/-- Every package there is was there before, up to its cursors, or has just been
accepted. -/
theorem SysStep.holds (h : SysStep img s l s') {p : Skb} (hp : s'.Holds p) :
    (∃ q, s.Holds q ∧ q.session = p.session) ∨
      (l = .reader .receiveData ∧ s'.reader = .queueVm p) ∨
      (l = .reader .createCcb ∧ s'.dev.Knows p.session) := by
  cases h with
  | @vm t a d th h =>
    rcases hp with hp | ⟨t', hp⟩ | hp
    · rcases h.mem_rpkgList hp with hold | hold
      · exact .inl ⟨p, .inl hold, rfl⟩
      · exact .inl ⟨p, .inr (.inl ⟨t, hold⟩), rfl⟩
    · change p ∈ (Function.update s.vm t th t').pc.package? at hp
      by_cases htt : t' = t
      · rw [htt, Function.update_self] at hp
        rcases h.package? hp with rfl | ⟨q, hq, -, hsession⟩
        · exact .inl ⟨p, .inl h.mem_of_dequeue, rfl⟩
        · exact .inl ⟨q, .inr (.inl ⟨t, hq⟩), hsession⟩
      · rw [Function.update_of_ne htt] at hp
        exact .inl ⟨p, .inr (.inl ⟨t', hp⟩), rfl⟩
    · exact .inl ⟨p, .inr (.inr hp), rfl⟩
  | @reader a d pc h =>
    rcases hp with hp | ⟨t', hp⟩ | hp
    · rcases h.mem_rpkgList hp with hold | hold
      · exact .inl ⟨p, .inl hold, rfl⟩
      · exact .inl ⟨p, .inr (.inr hold), rfl⟩
    · exact .inl ⟨p, .inr (.inl ⟨t', hp⟩), rfl⟩
    · have hpc : pc = .queueVm p := hp
      subst hpc
      rcases h.accepted with rfl | rfl
      · exact .inr (.inl ⟨rfl, rfl⟩)
      · exact .inr (.inr ⟨rfl, h.knows_of_createCcb⟩)
  | writer h =>
    rcases hp with hp | hp
    · exact .inl ⟨p, .inl (h.dev_eq.1 ▸ hp), rfl⟩
    · exact .inl ⟨p, .inr hp, rfl⟩

/-- A session keeps its CCB. -/
theorem SysStep.knows (h : SysStep img s l s') {session : ℤ} (hknows : s.dev.Knows session) :
    s'.dev.Knows session := by
  obtain ⟨ccb, hmem, rfl⟩ := hknows
  obtain ⟨idx, hget⟩ := List.mem_iff_getElem?.mp hmem
  obtain ⟨ccb', hget', hsession, -⟩ := h.ccb_some hget
  exact ⟨ccb', List.mem_of_getElem? hget', hsession⟩

/-- What holds in every state of a run that keeps to the condition. -/
structure SessionsInv (s : Sys T) : Prop where
  /-- No two CCBs have the same session. -/
  nodup : (s.dev.ccbList.map Ccb.session).Nodup
  /-- Every package is for a session with a CCB. -/
  known : ∀ p, s.Holds p → s.dev.Knows p.session

omit [DecidableEq T] in
/-- A new session does not repeat another. -/
theorem nodup_append_session {ccbList : List Ccb} {ccb : Ccb}
    (h : (ccbList.map Ccb.session).Nodup) (hnew : ∀ old ∈ ccbList, old.session ≠ ccb.session) :
    ((ccbList ++ [ccb]).map Ccb.session).Nodup := by
  rw [List.map_append, List.nodup_append]
  refine ⟨h, by simp, ?_⟩
  intro x hx y hy
  obtain ⟨old, hold, rfl⟩ := List.mem_map.mp hx
  obtain rfl : y = ccb.session := by simpa using hy
  exact hnew old hold

/-- A step under the condition keeps the invariant. -/
theorem SessionsInv.step (hinv : SessionsInv s) (hkeeps : KeepsSessions s l s')
    (h : SysStep img s l s') : SessionsInv s' := by
  constructor
  · cases h with
    | vm h => exact h.sessions_eq ▸ hinv.nodup
    | reader h =>
      rcases h.ccb_cases with hsame | ⟨ccb, rfl, -, happ⟩
      · exact hsame ▸ hinv.nodup
      · have hnew := hkeeps.1 ccb rfl happ
        have hnodup : ((s.dev.ccbList ++ [ccb]).map Ccb.session).Nodup :=
          nodup_append_session hinv.nodup fun old hold hsession => hnew ⟨old, hold, hsession⟩
        exact happ ▸ hnodup
    | writer h => exact h.dev_eq.2.1 ▸ hinv.nodup
  · intro p hp
    rcases h.holds hp with ⟨q, hq, hsession⟩ | ⟨rfl, hreader⟩ | ⟨-, hknows⟩
    · exact hsession ▸ h.knows (hinv.known q hq)
    · exact h.knows (hkeeps.2 p rfl hreader)
    · exact hknows

/-- **Sessions.** In every run in which every session that is created is new and
every data message is for a session there is, the sessions stay apart. A package
of another session is never discarded, whatever the state. -/
theorem sessions_isolated (img : Image) (s : Sys T)
    (h : Lts.Reachable (Lts.restrictSteps (tsmSystem img T) KeepsSessions) s) :
    IsolatedSessions img s ∧ ∀ (d : Dev) (skb : Skb) (fba : Ptr FmBytesArray),
      ¬ d.Knows skb.session → ¬ Discards img d ⟨.fetchCcb skb, fba⟩ := by
  have hinv : SessionsInv s := by
    refine h.invariant ?_ fun hinv hstep => hinv.step hstep.1 hstep.2
    rintro s rfl
    refine ⟨List.nodup_nil, ?_⟩
    rintro p (hp | ⟨t, hp⟩ | hp) <;> cases hp
  have hwork := atWork_of_reachable h.of_restrictSteps
  refine ⟨⟨hinv.nodup, hwork, ?_, ?_⟩, fun d skb fba => not_discards⟩
  · intro t a d th hstep idx
    rcases hstep.ccb_cases with hsame | ⟨i, ccb, ccb', hth, hget, hset, -⟩
    · exact .inl (by rw [hsame])
    · by_cases hi : i = idx
      · subst hi
        exact .inr (hwork t i hth)
      · exact .inl (by rw [hset, List.getElem?_set_ne hi])
  · intro t skb hpc hunknown
    have hholds : s.Holds skb := .inr (.inl ⟨t, by rw [hpc]; rfl⟩)
    exact absurd (hinv.known skb hholds) hunknown

end Steps

/-- One session, and a data message for it. -/
theorem sessions_isolated_one :
    Lts.Reachable (Lts.restrictSteps (tsmSystem (plainImage .dataSet) Unit) KeepsSessions)
      { (atRest waitingDev .wild : Sys Unit) with
        reader := .queueVm (newPackage 2 7 emptyResponse) } ∧
    IsolatedSessions (plainImage .dataSet)
      { (atRest waitingDev .wild : Sys Unit) with
        reader := .queueVm (newPackage 2 7 emptyResponse) } := by
  have hreach : Lts.Reachable
      (Lts.restrictSteps (tsmSystem (plainImage .dataSet) Unit) KeepsSessions)
      { (atRest waitingDev .wild : Sys Unit) with
        reader := .queueVm (newPackage 2 7 emptyResponse) } := by
    have hnew : (newPackage 1 7 emptyResponse).isNew = true := rfl
    have hcreate : SysStep (plainImage .dataSet) (.start : Sys Unit) (.reader .createCcb)
        { (.start : Sys Unit) with
          dev := idleDev, reader := .queueVm (newPackage 1 7 emptyResponse) } :=
      SysStep.reader (.createCcb hnew (plainCcb_fresh 7 2))
    have hqueue : Lts.Run (tsmSystem (plainImage .dataSet) Unit)
        { (.start : Sys Unit) with
          dev := idleDev, reader := .queueVm (newPackage 1 7 emptyResponse) }
        [.reader (.queueVm (newPackage 1 7 emptyResponse)), .reader .postVm]
        (atRest waitingDev .wild) :=
      .cons (SysStep.reader .queueVm) <| .single (SysStep.reader .postVm)
    have hmessage : SysStep (plainImage .dataSet) (atRest waitingDev .wild : Sys Unit)
        (.reader .receiveData)
        { (atRest waitingDev .wild : Sys Unit) with
          reader := .queueVm (newPackage 2 7 emptyResponse) } :=
      SysStep.reader (.receiveData rfl)
    have hfirst : KeepsSessions (.start : Sys Unit) (.reader .createCcb)
        { (.start : Sys Unit) with
          dev := idleDev, reader := .queueVm (newPackage 1 7 emptyResponse) } := by
      refine ⟨?_, fun skb hl => absurd hl (by simp)⟩
      rintro ccb - - ⟨old, hold, -⟩
      cases hold
    have hlast : KeepsSessions (atRest waitingDev .wild : Sys Unit) (.reader .receiveData)
        { (atRest waitingDev .wild : Sys Unit) with
          reader := .queueVm (newPackage 2 7 emptyResponse) } := by
      refine ⟨fun ccb hl => absurd hl (by simp), fun skb _ hskb => ?_⟩
      obtain rfl := ReaderPc.queueVm.inj hskb
      exact ⟨plainCcb 7 2, List.mem_singleton.mpr rfl, rfl⟩
    have hok : ∀ l ∈ [Act.reader (.queueVm (newPackage 1 7 emptyResponse)), .reader .postVm],
        ∀ a b : Sys Unit, SysStep (plainImage .dataSet) a l b → KeepsSessions a l b := by
      intro l hl a b _
      refine ⟨fun ccb hcreate => ?_, fun skb hdata => ?_⟩
      · subst hcreate
        simp at hl
      · subst hdata
        simp at hl
    have hrest := hqueue.restrictSteps hok
    have hrun := Lts.Run.cons
      (m := Lts.restrictSteps (tsmSystem (plainImage .dataSet) Unit) KeepsSessions)
      ⟨hfirst, hcreate⟩ hrest
    exact ⟨.start, _, rfl, hrun.snoc ⟨hlast, hmessage⟩⟩
  exact ⟨hreach, (sessions_isolated _ _ hreach).1⟩

/-- A second request for a session gets a second CCB. -/
theorem sessions_not_isolated : ¬ ∀ (img : Image) (s : Sys Unit),
    Lts.Reachable (tsmSystem img Unit) s → IsolatedSessions img s := by
  intro h
  have hfirst : Lts.Run (tsmSystem (plainImage .dataSet) Unit) .start _ (atRest waitingDev .wild) :=
    run_createCcb _ (newPackage 1 7 emptyResponse) rfl (plainCcb_fresh 7 2)
  have hsecond : Lts.Run (tsmSystem (plainImage .dataSet) Unit) (atRest waitingDev .wild) _ _ :=
    run_createCcb _ (newPackage 2 7 emptyResponse) rfl (plainCcb_fresh 7 2)
  have hisolated := h _ _ ⟨.start, _, rfl, hfirst.append hsecond⟩
  exact absurd hisolated.nodup (by decide)

end TsmVm
