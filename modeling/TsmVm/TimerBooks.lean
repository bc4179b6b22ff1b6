import TsmVm.Timers

/-!
# The counters of the timers

Each of the two lists has a counter, and a tick goes by the counter of the expired
timers when it decides whether to post the semaphore. Every operation keeps both
counters but one: the handler takes the expired timers off their list and leaves their
counter as it is. Here the handler may be called again and again, in any order with the
other operations.
-/

namespace TsmVm

/-- One step of the threads, where `to_handler` may be called again once it has ended. -/
def timerStepAgain (s : TimerState) : Option TimerAct → Option TimerState
  | some l => timerStep s l
  | none => if s.handler = .done then some { s with handler := .semWait } else none

/-- The timers after `fmtimer_init`, with any number of calls of `to_handler`. -/
def timersAgain (interval : ℤ) : Lts.System TimerState (Option TimerAct) :=
  Lts.ofFun (fun s => ∃ timerID : ℤ, s = timerInit interval timerID) timerStepAgain

/-- The counters are right, and a tick about to post has a timer waiting. -/
structure TimerBooks (s : TimerState) : Prop where
  active_eq : s.tl.activeCnt = s.tl.activeList.length
  expire_eq : s.tl.expireCnt = s.tl.expireList.length
  /-- No node is in both lists. -/
  apart : ∀ a ∈ s.tl.activeList, ∀ e ∈ s.tl.expireList, a.uid ≠ e.uid
  posted : 0 < s.posting → s.tl.expireList ≠ []

/-- The handler meets no timer that waits. -/
def HandlesNone (s : TimerState) : Option TimerAct → Prop
  | some .handlerRun => s.tl.expireList = []
  | _ => True

/-- How many timers a step takes off the list of the expired ones. -/
def takenOff (s : TimerState) : TimerAct → ℕ
  | .handlerRun => s.tl.expireList.length
  | _ => 0

/-- A tick leaves every timer in one of the lists. -/
theorem clocktickLoop_length (overflow : TimerNode → ℤ) (interval : ℤ) (l : List TimerNode) :
    (clocktickLoop overflow interval l).1.length + (clocktickLoop overflow interval l).2.length =
      l.length := by
  induction l with
  | nil => rfl
  | cons node l ih =>
    rw [clocktickLoop]
    dsimp only
    split <;> simp only [List.length_cons] <;> omega

/-- By how much a step changes what the counters differ from the lengths: only the
handler does, by the timers it takes. -/
theorem timerStep_counts {s s' : TimerState} {l : TimerAct} (hstep : timerStep s l = some s') :
    s'.tl.activeCnt - s'.tl.activeList.length = s.tl.activeCnt - s.tl.activeList.length ∧
      s'.tl.expireCnt - s'.tl.expireList.length =
        s.tl.expireCnt - s.tl.expireList.length + takenOff s l := by
  cases l with
  | addDraw timeout function data =>
    obtain rfl := Option.some.inj hstep
    exact ⟨rfl, (add_zero _).symm⟩
  | addLink node =>
    obtain ⟨-, hstep⟩ := Option.ite_none_right_eq_some.mp hstep
    obtain rfl := Option.some.inj hstep
    refine ⟨?_, (add_zero _).symm⟩
    simp only [fmtimerAdd, List.length_append, List.length_singleton]
    omega
  | rearm timerID newExpire =>
    obtain rfl := Option.some.inj hstep
    obtain ⟨active, heq, hactive⟩ := fmtimerRearm_eq timerID newExpire.toInt s.tl
    have hlength : active.length = s.tl.activeList.length := by
      obtain rfl | hloop := hactive
      · rfl
      · simpa using congrArg List.length (rearmLoop_uid hloop)
    rw [heq, ← hlength]
    exact ⟨rfl, (add_zero _).symm⟩
  | del timerID =>
    obtain rfl := Option.some.inj hstep
    have hsplit := List.length_eq_countP_add_countP (fun node : TimerNode => node.timerID = timerID)
      (l := s.tl.activeList)
    have hkept : (s.tl.activeList.filter (·.timerID ≠ timerID)).length =
        s.tl.activeList.countP fun node => ¬ node.timerID = timerID := by
      rw [← List.countP_eq_length_filter]
    refine ⟨?_, ?_⟩
    · simp only [fmtimerDel, hkept]
      simp only [decide_eq_true_eq] at hsplit
      omega
    · simp [fmtimerDel, takenOff]
  | tick overflow =>
    obtain rfl := Option.some.inj hstep
    have hmove := clocktickLoop_length overflow s.tl.interval s.tl.activeList
    simp only [clocktickHandler, List.length_append, List.length_map]
    refine ⟨by omega, ?_⟩
    simp only [takenOff]
    omega
  | handlerRun =>
    obtain ⟨-, hstep⟩ := Option.ite_none_right_eq_some.mp hstep
    obtain rfl := Option.some.inj hstep
    refine ⟨rfl, ?_⟩
    simp only [takenOff, List.length_nil]
    omega
  | _ =>
    obtain ⟨-, hstep⟩ := Option.ite_none_right_eq_some.mp hstep
    obtain rfl := Option.some.inj hstep
    exact ⟨rfl, (add_zero _).symm⟩

/-- Only the handler takes timers off the list of the expired ones, and a tick is about
to post only if it has found some counted. -/
theorem timerStep_posting {s s' : TimerState} {l : TimerAct} (hstep : timerStep s l = some s') :
    s.tl.expireList.length ≤ s'.tl.expireList.length + takenOff s l ∧
      (0 < s'.posting → 0 < s.posting ∨ 0 < s.tl.expireCnt) := by
  cases l with
  | addDraw timeout function data =>
    obtain rfl := Option.some.inj hstep
    exact ⟨le_rfl, .inl⟩
  | addLink node =>
    obtain ⟨-, hstep⟩ := Option.ite_none_right_eq_some.mp hstep
    obtain rfl := Option.some.inj hstep
    exact ⟨le_rfl, .inl⟩
  | rearm timerID newExpire =>
    obtain rfl := Option.some.inj hstep
    obtain ⟨active, heq, -⟩ := fmtimerRearm_eq timerID newExpire.toInt s.tl
    rw [heq]
    exact ⟨le_rfl, .inl⟩
  | del timerID =>
    obtain rfl := Option.some.inj hstep
    exact ⟨by simp [fmtimerDel], .inl⟩
  | tick overflow =>
    obtain rfl := Option.some.inj hstep
    refine ⟨?_, .inl⟩
    simp only [clocktickHandler, List.length_append, List.length_map]
    omega
  | tickTest =>
    obtain ⟨-, hstep⟩ := Option.ite_none_right_eq_some.mp hstep
    obtain rfl := Option.some.inj hstep
    refine ⟨le_rfl, fun hpos => ?_⟩
    by_cases hcount : 0 < s.tl.expireCnt
    · exact .inr hcount
    · dsimp only at hpos
      rw [if_neg hcount] at hpos
      exact .inl hpos
  | tickPost =>
    obtain ⟨hpos, hstep⟩ := Option.ite_none_right_eq_some.mp hstep
    obtain rfl := Option.some.inj hstep
    exact ⟨le_rfl, fun _ => .inl hpos⟩
  | handlerWait =>
    obtain ⟨-, hstep⟩ := Option.ite_none_right_eq_some.mp hstep
    obtain rfl := Option.some.inj hstep
    exact ⟨le_rfl, .inl⟩
  | handlerRun =>
    obtain ⟨-, hstep⟩ := Option.ite_none_right_eq_some.mp hstep
    obtain rfl := Option.some.inj hstep
    exact ⟨Nat.le_add_left _ _, .inl⟩

/-- Distinct timers are in one list only. -/
theorem TimersDistinct.apart {s : TimerState} (h : TimersDistinct s) :
    ∀ a ∈ s.tl.activeList, ∀ e ∈ s.tl.expireList, a.uid ≠ e.uid := by
  intro a ha e he hsame
  have hactive := List.count_pos_iff.mpr (List.mem_map_of_mem (f := TimerNode.uid) ha)
  have hexpire := List.count_pos_iff.mpr (List.mem_map_of_mem (f := TimerNode.uid) he)
  rw [← hsame] at hexpire
  have hcount := h a.uid
  simp only [timerUids, List.count_append] at hcount
  split at hcount <;> omega

/-- A step of the handler that takes nothing, or another step, keeps the books. -/
theorem TimerBooks.step {s s' : TimerState} {l : Option TimerAct}
    (h : TimerBooks s ∧ TimersDistinct s) (hok : HandlesNone s l)
    (hstep : timerStepAgain s l = some s') : TimerBooks s' ∧ TimersDistinct s' := by
  obtain ⟨h, hdistinct⟩ := h
  cases l with
  | none =>
    obtain ⟨-, hstep⟩ := Option.ite_none_right_eq_some.mp hstep
    obtain rfl := Option.some.inj hstep
    exact ⟨⟨h.active_eq, h.expire_eq, h.apart, h.posted⟩, hdistinct⟩
  | some l =>
    have hdistinct' := hdistinct.step hstep
    obtain ⟨hactive, hexpire⟩ := timerStep_counts hstep
    obtain ⟨hlength, hposting⟩ := timerStep_posting hstep
    have hnone : takenOff s l = 0 := by
      cases l with
      | handlerRun => exact List.length_eq_zero_iff.mpr hok
      | _ => rfl
    have hactive_eq := h.active_eq
    have hexpire_eq := h.expire_eq
    rw [hnone] at hexpire hlength
    refine ⟨⟨by omega, by omega, hdistinct'.apart, fun hpos => ?_⟩, hdistinct'⟩
    -- what waited when the tick found it counted is still there
    have hwaits : 0 < s.tl.expireList.length := by
      obtain hpos | hcount := hposting hpos
      · exact List.length_pos_iff.mpr (h.posted hpos)
      · omega
    exact List.length_pos_iff.mp (by omega)

/-- The counter of the expired timers is never lowered once it is too large. -/
theorem overcounted_step {s s' : TimerState} {l : Option TimerAct}
    (h : (s.tl.expireList.length : ℤ) < s.tl.expireCnt) (hstep : timerStepAgain s l = some s') :
    (s'.tl.expireList.length : ℤ) < s'.tl.expireCnt := by
  cases l with
  | none =>
    obtain ⟨-, hstep⟩ := Option.ite_none_right_eq_some.mp hstep
    obtain rfl := Option.some.inj hstep
    exact h
  | some l =>
    have hexpire := (timerStep_counts hstep).2
    omega

/-- When the handler takes timers, more stay counted than wait. -/
theorem TimerBooks.overcounted {s s' : TimerState} {l : Option TimerAct} (h : TimerBooks s)
    (hstep : timerStepAgain s l = some s') (hhandles : ¬ HandlesNone s l) :
    (s'.tl.expireList.length : ℤ) < s'.tl.expireCnt := by
  cases l with
  | none => exact absurd trivial hhandles
  | some l =>
    have hexpire := (timerStep_counts hstep).2
    have hexpire_eq := h.expire_eq
    have htaken : 0 < takenOff s l := by
      cases l with
      | handlerRun => exact List.length_pos_iff.mpr hhandles
      | _ => exact absurd trivial hhandles
    omega

/-- **The books of the timers.** As long as the handler meets no timer that waits, the
counters are right, no timer is in both lists, and a tick posts the semaphore only if a
timer waits. The first timer it takes makes the counter wrong for good. -/
theorem timer_books (interval : ℤ) (s : TimerState) :
    (Lts.Reachable (Lts.restrict (timersAgain interval) HandlesNone) s → TimerBooks s) ∧
    (TimerBooks s → ∀ l s', (timersAgain interval).step s l s' → ¬ HandlesNone s l →
      ∀ ls s'', Lts.Run (timersAgain interval) s' ls s'' → ¬ TimerBooks s'') := by
  constructor
  · intro hs
    refine (hs.invariant (P := fun u => TimerBooks u ∧ TimersDistinct u) ?_ ?_).1
    · rintro u ⟨timerID, rfl⟩
      refine ⟨⟨rfl, rfl, fun a ha => ?_, fun hpos => ?_⟩, fun u => ?_⟩
      · cases ha
      · cases hpos
      · simp [timerUids, timerInit, fmtimerInit]
    · intro a l b ha hstep
      exact TimerBooks.step ha hstep.1 hstep.2
  · intro hbooks l s' hstep hhandles ls s'' hrun hbooks''
    have htaken := hbooks.overcounted hstep hhandles
    have hfinal := hrun.invariant (P := fun u => (u.tl.expireList.length : ℤ) < u.tl.expireCnt)
      htaken fun ha hstep => overcounted_step ha hstep
    have hexpire_eq := hbooks''.expire_eq
    omega

/-- The threads of the program, where `to_handler` runs once, are among them. -/
theorem timersAgain_run {interval : ℤ} {s t : TimerState} {ls : List TimerAct}
    (h : Lts.Run (timers interval) s ls t) :
    Lts.Run (timersAgain interval) s (ls.map some) t := by
  induction h with
  | nil => exact Lts.Run.nil
  | snoc _ hstep ih =>
    rw [List.map_append]
    exact Lts.Run.snoc ih hstep

/-- One timer that has been handled is still counted. -/
theorem timer_books_fail :
    ¬ ∀ interval s, Lts.Reachable (timersAgain interval) s → TimerBooks s := by
  intro h
  have hrun : ∃ s, [TimerAct.addDraw 5 (some 1) 0, .addLink (fmtimerNode 5 (some 1) 0 0 0),
      .tick fun _ => 0, .tickTest, .tickPost, .handlerWait, .handlerRun].foldlM timerStep
        (timerInit 10 0) = some s ∧ s.tl.expireList = [] ∧ s.tl.expireCnt = 1 :=
    ⟨_, rfl, rfl, rfl⟩
  obtain ⟨s, hfold, hnil, hcount⟩ := hrun
  have hbooks := h 10 s ⟨timerInit 10 0, _, ⟨0, rfl⟩, timersAgain_run (Lts.run_of_foldlM hfold)⟩
  have hexpire := hbooks.expire_eq
  rw [hnil, hcount] at hexpire
  cases hexpire

end TsmVm
