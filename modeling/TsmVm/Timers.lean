import TsmVm.FmTimer

/-!
# What becomes of a timer

Two promises to the user of a timer: once it has expired the handler thread will
call it, and it is called once at most, in time, and not after it was deleted. The
handler thread runs one critical section and ends, a large timeout turns negative
as an `int`, and a timer that waits to be called is out of reach of `fmtimer_del`.
-/

namespace TsmVm

/-! ## Expired timers and the handler -/

/-- If a timer waits to be called, the handler is past its semaphore or will get
past it: it has not run, and the semaphore is posted, or a tick is about to post it. -/
def NotStranded (s : TimerState) : Prop :=
  s.tl.expireList ≠ [] → s.handler = .lock ∨
    (s.handler = .semWait ∧ (0 < s.tl.semTimer ∨ 0 < s.posting ∨
      (0 < s.testing ∧ 0 < s.tl.expireCnt)))

/-- A tick that expires a timer comes before the handler has ended. -/
def ExpiresBeforeEnd (s : TimerState) : TimerAct → Prop
  | .tick overflow => s.handler = .done →
      ∀ node ∈ s.tl.activeList, 0 < (takeInterval overflow s.tl.interval node).expires
  | _ => True

/-- The counter covers the timers that wait, and the handler will find them. -/
structure Awaited (s : TimerState) : Prop where
  counted : (s.tl.expireList.length : ℤ) ≤ s.tl.expireCnt
  notStranded : NotStranded s

/-- Nothing has expired in a tick after which every timer has time left. -/
theorem clocktickLoop_none {overflow : TimerNode → ℤ} {interval : ℤ} {l : List TimerNode}
    (h : ∀ node ∈ l, 0 < (takeInterval overflow interval node).expires) :
    (clocktickLoop overflow interval l).2 = [] := by
  rw [clocktickLoop_expired, List.filter_eq_nil_iff]
  intro node hnode
  obtain ⟨old, hold, rfl⟩ := List.mem_map.mp hnode
  have hleft := h old hold
  simpa using hleft

/-- Timers that wait are counted. -/
theorem Awaited.expireCnt_pos {s : TimerState} (h : Awaited s) (hne : s.tl.expireList ≠ []) :
    0 < s.tl.expireCnt := by
  have hlength := List.length_pos_iff.mpr hne
  have hcounted := h.counted
  omega

/-- Once the handler has ended nothing waits. -/
theorem NotStranded.expireList_eq_nil {s : TimerState} (h : NotStranded s)
    (hdone : s.handler = .done) : s.tl.expireList = [] := by
  by_contra hwait
  obtain hlock | ⟨hwaits, -⟩ := h hwait
  · rw [hdone] at hlock
    cases hlock
  · rw [hdone] at hwaits
    cases hwaits

/-- A tick keeps the count of the timers that wait. -/
theorem clocktickHandler_counted {tl : TimerList} (overflow : TimerNode → ℤ)
    (h : (tl.expireList.length : ℤ) ≤ tl.expireCnt) :
    ((clocktickHandler overflow tl).expireList.length : ℤ) ≤
      (clocktickHandler overflow tl).expireCnt := by
  simp only [clocktickHandler, List.length_append, List.length_map]
  push_cast
  omega

/-- One step keeps the timers awaited. -/
theorem Awaited.step {s s' : TimerState} {l : TimerAct} (h : Awaited s)
    (hok : ExpiresBeforeEnd s l) (hstep : timerStep s l = some s') : Awaited s' := by
  obtain ⟨hcounted, hnot⟩ := h
  cases l with
  | addDraw timeout function data =>
    obtain rfl := Option.some.inj hstep
    exact ⟨hcounted, hnot⟩
  | addLink node =>
    obtain ⟨-, hstep⟩ := Option.ite_none_right_eq_some.mp hstep
    obtain rfl := Option.some.inj hstep
    exact ⟨hcounted, hnot⟩
  | rearm timerID newExpire =>
    obtain rfl := Option.some.inj hstep
    obtain ⟨active, heq, -⟩ := fmtimerRearm_eq timerID newExpire.toInt s.tl
    rw [heq]
    exact ⟨hcounted, hnot⟩
  | del timerID =>
    obtain rfl := Option.some.inj hstep
    refine ⟨by simpa [fmtimerDel] using hcounted, fun hne => hnot fun hnil => hne ?_⟩
    simp [fmtimerDel, hnil]
  | tick overflow =>
    obtain rfl := Option.some.inj hstep
    have hcount := clocktickHandler_counted overflow hcounted
    refine ⟨hcount, fun hne => ?_⟩
    have hpos : 0 < (clocktickHandler overflow s.tl).expireCnt := by
      have hlength := List.length_pos_iff.mpr hne
      dsimp only at hlength
      omega
    cases hpc : s.handler with
    | semWait => exact .inr ⟨rfl, .inr (.inr ⟨Nat.succ_pos s.testing, hpos⟩)⟩
    | lock => exact .inl rfl
    | done =>
      -- nothing waits and nothing expires any more
      have hnil := hnot.expireList_eq_nil hpc
      refine absurd ?_ hne
      simp only [clocktickHandler, hnil, clocktickLoop_none (hok hpc), List.map_nil,
        List.append_nil]
  | tickTest =>
    obtain ⟨-, hstep⟩ := Option.ite_none_right_eq_some.mp hstep
    obtain rfl := Option.some.inj hstep
    refine ⟨hcounted, fun hne => ?_⟩
    have hpos := Awaited.expireCnt_pos ⟨hcounted, hnot⟩ hne
    obtain hlock | ⟨hwaits, -⟩ := hnot hne
    · exact .inl hlock
    · refine .inr ⟨hwaits, .inr (.inl ?_)⟩
      dsimp only
      rw [if_pos hpos]
      exact Nat.succ_pos s.posting
  | tickPost =>
    obtain ⟨-, hstep⟩ := Option.ite_none_right_eq_some.mp hstep
    obtain rfl := Option.some.inj hstep
    refine ⟨hcounted, fun hne => ?_⟩
    obtain hlock | ⟨hwaits, -⟩ := hnot hne
    · exact .inl hlock
    · exact .inr ⟨hwaits, .inl (Nat.succ_pos s.tl.semTimer)⟩
  | handlerWait =>
    obtain ⟨-, hstep⟩ := Option.ite_none_right_eq_some.mp hstep
    obtain rfl := Option.some.inj hstep
    exact ⟨hcounted, fun _ => .inl rfl⟩
  | handlerRun =>
    obtain ⟨-, hstep⟩ := Option.ite_none_right_eq_some.mp hstep
    obtain rfl := Option.some.inj hstep
    refine ⟨?_, fun hne => absurd rfl hne⟩
    have hlength : (0 : ℤ) ≤ s.tl.expireList.length := Int.natCast_nonneg _
    simp only [List.length_nil]
    omega

/-- A timer waits, and the handler has ended. -/
def Stranded (s : TimerState) : Prop := s.handler = .done ∧ s.tl.expireList ≠ []

/-- A timer that is stranded stays so. -/
theorem Stranded.step {s s' : TimerState} {l : TimerAct} (h : Stranded s)
    (hstep : timerStep s l = some s') : Stranded s' := by
  obtain ⟨hdone, hne⟩ := h
  cases l with
  | addDraw timeout function data =>
    obtain rfl := Option.some.inj hstep
    exact ⟨hdone, hne⟩
  | rearm timerID newExpire =>
    obtain rfl := Option.some.inj hstep
    obtain ⟨active, heq, -⟩ := fmtimerRearm_eq timerID newExpire.toInt s.tl
    rw [heq]
    exact ⟨hdone, hne⟩
  | del timerID =>
    obtain rfl := Option.some.inj hstep
    exact ⟨hdone, by simpa [fmtimerDel] using hne⟩
  | tick overflow =>
    obtain rfl := Option.some.inj hstep
    exact ⟨hdone, by simp [clocktickHandler, hne]⟩
  | handlerWait =>
    obtain ⟨⟨hwaits, -⟩, -⟩ := Option.ite_none_right_eq_some.mp hstep
    rw [hdone] at hwaits
    cases hwaits
  | handlerRun =>
    obtain ⟨hlock, -⟩ := Option.ite_none_right_eq_some.mp hstep
    rw [hdone] at hlock
    cases hlock
  | _ =>
    obtain ⟨-, hstep⟩ := Option.ite_none_right_eq_some.mp hstep
    obtain rfl := Option.some.inj hstep
    exact ⟨hdone, hne⟩

/-- A tick that comes too late strands the timer it expires. -/
theorem stranded_of_late {s s' : TimerState} {l : TimerAct} (hlate : ¬ ExpiresBeforeEnd s l)
    (hstep : timerStep s l = some s') : Stranded s' := by
  cases l with
  | tick overflow =>
    obtain rfl := Option.some.inj hstep
    obtain ⟨hdone, hsome⟩ := Classical.not_imp.mp hlate
    refine ⟨hdone, fun hnil => hsome fun node hnode => ?_⟩
    have hexpired : (clocktickLoop overflow s.tl.interval s.tl.activeList).2 = [] := by
      simp only [clocktickHandler, List.append_eq_nil_iff] at hnil
      exact hnil.2
    rw [clocktickLoop_expired, List.filter_eq_nil_iff] at hexpired
    have hleft := hexpired _ (List.mem_map_of_mem hnode)
    simpa using hleft
  | _ => exact absurd trivial hlate

/-- **Expired timers.** As long as no tick expires a timer after the handler has ended,
no timer is stranded. The first tick that does strands it for good. -/
theorem no_timer_stranded (interval : ℤ) (s : TimerState) :
    (Lts.Reachable (Lts.restrict (timers interval) ExpiresBeforeEnd) s → NotStranded s) ∧
    (∀ l s', (timers interval).step s l s' → ¬ ExpiresBeforeEnd s l →
      ∀ ls s'', Lts.Run (timers interval) s' ls s'' → ¬ NotStranded s'') := by
  constructor
  · intro hs
    refine (hs.invariant (P := Awaited) ?_ ?_).notStranded
    · rintro u ⟨timerID, rfl⟩
      exact ⟨le_refl 0, fun hne => absurd rfl hne⟩
    · intro a l b ha hstep
      exact ha.step hstep.1 hstep.2
  · intro l s' hstep hlate ls s'' hrun hnot
    obtain ⟨hdone, hne⟩ := hrun.invariant (P := Stranded) (stranded_of_late hlate hstep)
      fun ha hstep => ha.step hstep
    exact hne (hnot.expireList_eq_nil hdone)

/-- Two timers, one after the other: nobody handles the second one. -/
theorem timer_stranded :
    ¬ ∀ interval s, Lts.Reachable (timers interval) s → NotStranded s := by
  intro h
  have hrun : ∃ s, [TimerAct.addDraw 5 (some 1) 0, .addLink (fmtimerNode 5 (some 1) 0 0 0),
      .tick fun _ => 0, .tickTest, .tickPost, .handlerWait, .handlerRun, .addDraw 5 (some 1) 0,
      .addLink (fmtimerNode 5 (some 1) 0 1 1), .tick fun _ => 0].foldlM timerStep (timerInit 10 0) =
        some s ∧ s.handler = .done ∧ s.tl.expireList ≠ [] :=
    ⟨_, rfl, rfl, List.cons_ne_nil _ _⟩
  obtain ⟨s, hfold, hdone, hne⟩ := hrun
  have hreach : Lts.Reachable (timers 10) s :=
    ⟨timerInit 10 0, _, ⟨0, rfl⟩, Lts.run_of_foldlM hfold⟩
  exact hne ((h 10 s hreach).expireList_eq_nil hdone)

/-! ## What a call keeps -/

/-- No timer has been called twice, too early, or after it was deleted. -/
structure TimerSafe (s : TimerState) : Prop where
  once : (s.calls.map TimerCall.uid).Nodup
  inTime : ∀ c ∈ s.calls, c.timeout ≤ c.ticks * s.tl.interval
  notDeleted : ∀ c ∈ s.calls, c.deleted = false

/-- While the handler has not ended, no timer with a function is added with a
timeout that is no `int`, nor deleted while it waits to be called. -/
def WithinReach (s : TimerState) : TimerAct → Prop
  | .addDraw timeout function _ => s.handler = .done ∨ function = none ∨
      timeout.toNat < 2147483648
  | .del timerID => s.handler = .done ∨
      ∀ node ∈ s.tl.expireList, node.timerID = timerID → node.function = none
  | _ => True

instance (s : TimerState) : (l : TimerAct) → Decidable (WithinReach s l)
  | .addDraw timeout function _ => inferInstanceAs
      (Decidable (s.handler = .done ∨ function = none ∨ timeout.toNat < 2147483648))
  | .del timerID => inferInstanceAs (Decidable (s.handler = .done ∨
      ∀ node ∈ s.tl.expireList, node.timerID = timerID → node.function = none))
  | .addLink _ | .rearm _ _ | .tick _ | .tickTest | .tickPost | .handlerWait | .handlerRun =>
    inferInstanceAs (Decidable True)

/-! ### Called once -/

/-- The timers there are and those that have been called. -/
def timerUids (s : TimerState) : List ℕ :=
  s.adding.map TimerNode.uid ++ (s.tl.activeList.map TimerNode.uid ++
    (s.tl.expireList.map TimerNode.uid ++ s.calls.map TimerCall.uid))

/-- A tick moves timers from one list to the other. -/
theorem clocktickLoop_count (overflow : TimerNode → ℤ) (interval : ℤ) (l : List TimerNode)
    (u : ℕ) :
    ((clocktickLoop overflow interval l).1.map TimerNode.uid).count u +
      ((clocktickLoop overflow interval l).2.map TimerNode.uid).count u =
        (l.map TimerNode.uid).count u := by
  induction l with
  | nil => rfl
  | cons node l ih =>
    have huid : (takeInterval overflow interval node).uid = node.uid := rfl
    rw [clocktickLoop]
    dsimp only
    split <;> simp only [List.map_cons, List.count_cons, huid] <;> omega

/-- The handler calls each timer that waits once at most. -/
theorem call_uid_sublist (l : List TimerNode) :
    ((l.filterMap TimerNode.call?).map TimerCall.uid).Sublist (l.map TimerNode.uid) := by
  induction l with
  | nil => exact List.Sublist.refl _
  | cons node l ih =>
    cases hfunction : node.function with
    | none =>
      have hcall : node.call? = none := by simp [TimerNode.call?, hfunction]
      rw [List.filterMap_cons_none hcall]
      exact ih.cons _
    | some f =>
      obtain ⟨c, hc, huid⟩ : ∃ c, node.call? = some c ∧ c.uid = node.uid := by
        simp [TimerNode.call?, hfunction]
      rw [List.filterMap_cons_some hc, List.map_cons, List.map_cons, huid]
      exact ih.cons_cons _

/-- One step makes at most the next timer. -/
theorem timerUids_step {s s' : TimerState} {l : TimerAct} (hstep : timerStep s l = some s') :
    (s'.added = s.added ∧ ∀ u, (timerUids s').count u ≤ (timerUids s).count u) ∨
      (s'.added = s.added + 1 ∧
        ∀ u, (timerUids s').count u = (timerUids s).count u + if u = s.added then 1 else 0) := by
  cases l with
  | addDraw timeout function data =>
    obtain rfl := Option.some.inj hstep
    refine .inr ⟨rfl, fun u => ?_⟩
    simp only [timerUids, fmtimerNode, List.map_append, List.map_singleton, List.count_append,
      List.count_singleton, beq_iff_eq, eq_comm (a := u)]
    omega
  | addLink node =>
    obtain ⟨hnode, hstep⟩ := Option.ite_none_right_eq_some.mp hstep
    obtain rfl := Option.some.inj hstep
    refine .inl ⟨rfl, fun u => ?_⟩
    have hperm := ((List.perm_cons_erase hnode).map TimerNode.uid).count_eq u
    simp only [List.map_cons, List.count_cons] at hperm
    simp only [timerUids, fmtimerAdd, List.map_append, List.map_singleton, List.count_append,
      List.count_singleton, hperm]
    omega
  | rearm timerID newExpire =>
    obtain rfl := Option.some.inj hstep
    refine .inl ⟨rfl, fun u => ?_⟩
    obtain ⟨active, heq, hactive⟩ := fmtimerRearm_eq timerID newExpire.toInt s.tl
    have hsame : active.map TimerNode.uid = s.tl.activeList.map TimerNode.uid := by
      obtain rfl | hloop := hactive
      · rfl
      · exact rearmLoop_uid hloop
    simp only [timerUids, heq, hsame, le_refl]
  | del timerID =>
    obtain rfl := Option.some.inj hstep
    refine .inl ⟨rfl, fun u => ?_⟩
    have hactive := ((List.filter_sublist (p := fun node : TimerNode => node.timerID ≠ timerID)
      (l := s.tl.activeList)).map TimerNode.uid).count_le u
    have hexpire : ((fmtimerDel timerID s.tl).expireList.map TimerNode.uid) =
        s.tl.expireList.map TimerNode.uid := by
      simp [fmtimerDel]
    simp only [timerUids, hexpire, List.count_append]
    simp only [fmtimerDel]
    omega
  | tick overflow =>
    obtain rfl := Option.some.inj hstep
    refine .inl ⟨rfl, fun u => ?_⟩
    have hmove := clocktickLoop_count overflow s.tl.interval s.tl.activeList u
    have hexpire : (s.tl.expireList.map fun node => { node with ticks := node.ticks + 1 }).map
        TimerNode.uid = s.tl.expireList.map TimerNode.uid := by
      simp
    simp only [timerUids, clocktickHandler, List.map_append, hexpire, List.count_append]
    omega
  | handlerRun =>
    obtain ⟨-, hstep⟩ := Option.ite_none_right_eq_some.mp hstep
    obtain rfl := Option.some.inj hstep
    refine .inl ⟨rfl, fun u => ?_⟩
    have hcalls := (call_uid_sublist s.tl.expireList).count_le u
    simp only [timerUids, List.map_nil, List.map_append, List.count_append,
      List.count_nil]
    omega
  | _ =>
    obtain ⟨-, hstep⟩ := Option.ite_none_right_eq_some.mp hstep
    obtain rfl := Option.some.inj hstep
    exact .inl ⟨rfl, fun u => le_refl _⟩

/-- Every timer is in one place, and the next one in none. -/
def TimersDistinct (s : TimerState) : Prop :=
  ∀ u, (timerUids s).count u ≤ if u < s.added then 1 else 0

/-- One step keeps them so. -/
theorem TimersDistinct.step {s s' : TimerState} {l : TimerAct} (h : TimersDistinct s)
    (hstep : timerStep s l = some s') : TimersDistinct s' := by
  intro u
  have hu := h u
  obtain ⟨hadded, hcount⟩ | ⟨hadded, hcount⟩ := timerUids_step hstep
  · rw [hadded]
    exact (hcount u).trans hu
  · rw [hadded, hcount u]
    split at hu <;> split <;> split <;> omega

/-! ### In time, and not after deletion -/

/-- An active timer, if it has a function, has the time left that it was promised. -/
def Promised (interval : ℤ) (node : TimerNode) : Prop :=
  node.function = none ∨ (node.deleted = false ∧
    (node.timeout ≤ 0 ∨ (0 < node.expires ∧ node.expires < 2147483648 ∧
      node.timeout ≤ node.expires + node.ticks * interval)))

/-- An expired timer, if it has a function, may be called. -/
def Due (interval : ℤ) (node : TimerNode) : Prop :=
  node.function = none ∨ (node.deleted = false ∧ node.timeout ≤ node.ticks * interval)

/-- What holds of the timers in a state. -/
structure TimersDue (s : TimerState) : Prop where
  positive : 0 < s.tl.interval ∧ s.tl.interval < 2147483648
  waiting : s.handler = .done ∨ ((∀ node ∈ s.adding, Promised s.tl.interval node) ∧
    (∀ node ∈ s.tl.activeList, Promised s.tl.interval node) ∧
    ∀ node ∈ s.tl.expireList, Due s.tl.interval node)
  called : ∀ c ∈ s.calls, c.deleted = false ∧ c.timeout ≤ c.ticks * s.tl.interval

/-- The time passed after one more tick. -/
theorem succ_mul_interval (ticks : ℕ) (interval : ℤ) :
    ((ticks + 1 : ℕ) : ℤ) * interval = ticks * interval + interval := by
  push_cast
  rw [Int.add_mul, Int.one_mul]

/-- Time goes on. -/
theorem Due.later {interval : ℤ} {node : TimerNode} (h : Due interval node) (hpos : 0 < interval) :
    Due interval { node with ticks := node.ticks + 1 } := by
  obtain hnone | ⟨hdeleted, htime⟩ := h
  · exact .inl hnone
  · refine .inr ⟨hdeleted, ?_⟩
    have hnext := succ_mul_interval node.ticks interval
    dsimp only
    omega

/-- A tick takes from the time left what it adds to the time passed. -/
theorem Promised.tick {interval : ℤ} {node : TimerNode} (h : Promised interval node)
    (hpos : 0 < interval) (hmax : interval < 2147483648) (overflow : TimerNode → ℤ) :
    (0 < (takeInterval overflow interval node).expires →
      Promised interval (takeInterval overflow interval node)) ∧
    ((takeInterval overflow interval node).expires ≤ 0 →
      Due interval (takeInterval overflow interval node)) := by
  obtain hnone | ⟨hdeleted, htime⟩ := h
  · exact ⟨fun _ => .inl hnone, fun _ => .inl hnone⟩
  have hnext := succ_mul_interval node.ticks interval
  obtain hzero | ⟨hleft, hint, htime⟩ := htime
  · have hpassed : 0 ≤ (node.ticks : ℤ) * interval :=
      Int.mul_nonneg (Int.natCast_nonneg _) hpos.le
    refine ⟨fun _ => .inr ⟨hdeleted, .inl hzero⟩, fun _ => .inr ⟨hdeleted, ?_⟩⟩
    unfold takeInterval
    dsimp only
    omega
  · -- nothing overflows where time is left
    have hexpires : (takeInterval overflow interval node).expires = node.expires - interval := by
      unfold takeInterval
      rw [if_pos (by omega)]
    refine ⟨fun hsome => .inr ⟨hdeleted, .inr ⟨hsome, ?_, ?_⟩⟩,
      fun hzero => .inr ⟨hdeleted, ?_⟩⟩
    · omega
    · rw [hexpires]
      unfold takeInterval
      dsimp only
      omega
    · rw [hexpires] at hzero
      unfold takeInterval
      dsimp only
      omega

/-- A new timer with a timeout that is an `int` has it left. -/
theorem fmtimerNode_promised {timeout : UInt32} {function : Option ℕ} {data timerID : ℤ} {uid : ℕ}
    {interval : ℤ} (h : function = none ∨ timeout.toNat < 2147483648) :
    Promised interval (fmtimerNode timeout function data timerID uid) := by
  obtain hnone | hsmall := h
  · exact .inl hnone
  · have hint : u32ToInt timeout = timeout.toNat := by
      unfold u32ToInt
      rw [Int.bmod_eq_emod]
      split <;> omega
    refine .inr ⟨rfl, ?_⟩
    simp only [fmtimerNode, hint]
    omega

/-- A rearmed timer has the new timeout left. -/
theorem promised_rearm {interval : ℤ} {node : TimerNode} (h : Promised interval node)
    (newExpire : Int32) :
    Promised interval
      { node with expires := newExpire.toInt, timeout := newExpire.toInt, ticks := 0 } := by
  obtain hnone | ⟨hdeleted, -⟩ := h
  · exact .inl hnone
  · have hint := newExpire.toInt_lt
    refine .inr ⟨hdeleted, ?_⟩
    dsimp only
    omega

/-- What stays active in a tick has the time left that it was promised. -/
theorem clocktickHandler_promised {tl : TimerList} (hpos : 0 < tl.interval)
    (hmax : tl.interval < 2147483648) (hactive : ∀ node ∈ tl.activeList, Promised tl.interval node)
    (overflow : TimerNode → ℤ) :
    ∀ node ∈ (clocktickHandler overflow tl).activeList, Promised tl.interval node := by
  intro node hnode
  simp only [clocktickHandler, clocktickLoop_active] at hnode
  obtain ⟨hmem, hleft⟩ := List.mem_filter.mp hnode
  obtain ⟨old, hold, rfl⟩ := List.mem_map.mp hmem
  apply ((hactive old hold).tick hpos hmax overflow).1
  simpa using hleft

/-- What has expired after a tick may be called. -/
theorem clocktickHandler_due {tl : TimerList} (hpos : 0 < tl.interval)
    (hmax : tl.interval < 2147483648) (hactive : ∀ node ∈ tl.activeList, Promised tl.interval node)
    (hexpire : ∀ node ∈ tl.expireList, Due tl.interval node) (overflow : TimerNode → ℤ) :
    ∀ node ∈ (clocktickHandler overflow tl).expireList, Due tl.interval node := by
  intro node hnode
  obtain hwaits | hexpires := List.mem_append.mp hnode
  · obtain ⟨old, hold, rfl⟩ := List.mem_map.mp hwaits
    exact (hexpire old hold).later hpos
  · rw [clocktickLoop_expired] at hexpires
    obtain ⟨hmem, hleft⟩ := List.mem_filter.mp hexpires
    obtain ⟨old, hold, rfl⟩ := List.mem_map.mp hmem
    apply ((hactive old hold).tick hpos hmax overflow).2
    simpa using hleft

/-- Rearming keeps the promises to the active timers. -/
theorem rearmLoop_promised {interval timerID : ℤ} {newExpire : Int32} {l active : List TimerNode}
    (hactive : ∀ node ∈ l, Promised interval node)
    (hloop : rearmLoop timerID newExpire.toInt l = some active) :
    ∀ node ∈ active, Promised interval node := by
  intro node hnode
  obtain ⟨old, hold, rfl | rfl⟩ := mem_rearmLoop hloop hnode
  · exact hactive node hold
  · exact promised_rearm (hactive old hold) newExpire

/-- Where no timer with a function is deleted too late, what has expired may still be
called. -/
theorem fmtimerDel_due {interval timerID : ℤ} {tl : TimerList}
    (hexpire : ∀ node ∈ tl.expireList, Due interval node)
    (hnone : ∀ node ∈ tl.expireList, node.timerID = timerID → node.function = none) :
    ∀ node ∈ (fmtimerDel timerID tl).expireList, Due interval node := by
  intro node hnode
  obtain ⟨old, hold, rfl⟩ := List.mem_map.mp hnode
  obtain hfunction | ⟨hdeleted, htime⟩ := hexpire old hold
  · exact .inl hfunction
  · by_cases hid : old.timerID = timerID
    · exact .inl (hnone old hold hid)
    · exact .inr ⟨by simp [hdeleted, hid], htime⟩

/-- What the handler calls was due. -/
theorem call_of_due {interval : ℤ} {node : TimerNode} {c : TimerCall} (h : Due interval node)
    (hc : node.call? = some c) : c.deleted = false ∧ c.timeout ≤ c.ticks * interval := by
  obtain ⟨f, hf, rfl⟩ := Option.map_eq_some_iff.mp hc
  obtain hnone | hdue := h
  · rw [hnone] at hf
    cases hf
  · exact hdue

/-- One step within reach keeps the timers due. -/
theorem TimersDue.step {s s' : TimerState} {l : TimerAct} (h : TimersDue s) (hok : WithinReach s l)
    (hstep : timerStep s l = some s') : TimersDue s' := by
  obtain ⟨⟨hpos, hmax⟩, hwaiting, hcalled⟩ := h
  cases l with
  | addDraw timeout function data =>
    obtain rfl := Option.some.inj hstep
    refine ⟨⟨hpos, hmax⟩, ?_, hcalled⟩
    obtain hdone | ⟨hadding, hactive, hexpire⟩ := hwaiting
    · exact .inl hdone
    obtain hdone | hsmall := hok
    · exact .inl hdone
    · refine .inr ⟨?_, hactive, hexpire⟩
      exact List.forall_mem_append.mpr
        ⟨hadding, List.forall_mem_singleton.mpr (fmtimerNode_promised hsmall)⟩
  | addLink node =>
    obtain ⟨hnode, hstep⟩ := Option.ite_none_right_eq_some.mp hstep
    obtain rfl := Option.some.inj hstep
    refine ⟨⟨hpos, hmax⟩, ?_, hcalled⟩
    obtain hdone | ⟨hadding, hactive, hexpire⟩ := hwaiting
    · exact .inl hdone
    · refine .inr ⟨fun other hother => hadding other (List.mem_of_mem_erase hother), ?_, hexpire⟩
      exact List.forall_mem_append.mpr
        ⟨hactive, List.forall_mem_singleton.mpr (hadding node hnode)⟩
  | rearm timerID newExpire =>
    obtain rfl := Option.some.inj hstep
    obtain ⟨active, heq, hloop⟩ := fmtimerRearm_eq timerID newExpire.toInt s.tl
    rw [heq]
    refine ⟨⟨hpos, hmax⟩, ?_, hcalled⟩
    obtain hdone | ⟨hadding, hactive, hexpire⟩ := hwaiting
    · exact .inl hdone
    · refine .inr ⟨hadding, ?_, hexpire⟩
      obtain rfl | hloop := hloop
      · exact hactive
      · exact rearmLoop_promised hactive hloop
  | del timerID =>
    obtain rfl := Option.some.inj hstep
    refine ⟨⟨hpos, hmax⟩, ?_, hcalled⟩
    obtain hdone | ⟨hadding, hactive, hexpire⟩ := hwaiting
    · exact .inl hdone
    obtain hdone | hnone := hok
    · exact .inl hdone
    · refine .inr ⟨hadding, ?_, fmtimerDel_due hexpire hnone⟩
      intro node hnode
      exact hactive node (List.mem_filter.mp hnode).1
  | tick overflow =>
    obtain rfl := Option.some.inj hstep
    refine ⟨⟨hpos, hmax⟩, ?_, hcalled⟩
    obtain hdone | ⟨hadding, hactive, hexpire⟩ := hwaiting
    · exact .inl hdone
    · exact .inr ⟨hadding, clocktickHandler_promised hpos hmax hactive overflow,
        clocktickHandler_due hpos hmax hactive hexpire overflow⟩
  | handlerRun =>
    obtain ⟨hlock, hstep⟩ := Option.ite_none_right_eq_some.mp hstep
    obtain rfl := Option.some.inj hstep
    refine ⟨⟨hpos, hmax⟩, .inl rfl, List.forall_mem_append.mpr ⟨hcalled, ?_⟩⟩
    intro c hc
    obtain ⟨node, hnode, hcall⟩ := List.mem_filterMap.mp hc
    obtain hdone | ⟨-, -, hexpire⟩ := hwaiting
    · rw [hlock] at hdone
      cases hdone
    · exact call_of_due (hexpire node hnode) hcall
  | handlerWait =>
    obtain ⟨⟨hwaits, -⟩, hstep⟩ := Option.ite_none_right_eq_some.mp hstep
    obtain rfl := Option.some.inj hstep
    refine ⟨⟨hpos, hmax⟩, ?_, hcalled⟩
    obtain hdone | hwaiting := hwaiting
    · rw [hwaits] at hdone
      cases hdone
    · exact .inr hwaiting
  | _ =>
    obtain ⟨-, hstep⟩ := Option.ite_none_right_eq_some.mp hstep
    obtain rfl := Option.some.inj hstep
    exact ⟨⟨hpos, hmax⟩, hwaiting, hcalled⟩

/-! ### Out of reach -/

/-- A run makes the call, with the interval as it is. -/
def Callable (interval : ℤ) (s : TimerState) (c : TimerCall) : Prop :=
  ∃ ls s', Lts.Run (timers interval) s ls s' ∧ c ∈ s'.calls ∧ s'.tl.interval = s.tl.interval

/-- A step towards a call. -/
theorem Callable.of_step {interval : ℤ} {s t : TimerState} {l : TimerAct} {c : TimerCall}
    (hstep : timerStep s l = some t) (h : Callable interval t c)
    (hinterval : t.tl.interval = s.tl.interval) : Callable interval s c := by
  obtain ⟨ls, s', hrun, hcall, hsame⟩ := h
  exact ⟨l :: ls, s', Lts.Run.cons hstep hrun, hcall, hsame.trans hinterval⟩

section Waiting

variable {interval : ℤ} {s : TimerState} {node : TimerNode} {c : TimerCall}

/-- The handler, before its critical section, calls the timers that wait. -/
theorem callable_of_lock (hnode : node ∈ s.tl.expireList) (hc : node.call? = some c)
    (hpc : s.handler = .lock) : Callable interval s c := by
  have hmem : c ∈ s.calls ++ (toHandler s.tl).2 :=
    List.mem_append_right s.calls (List.mem_filterMap.mpr ⟨node, hnode, hc⟩)
  exact ⟨[.handlerRun], _, Lts.Run.single (if_pos hpc), hmem, rfl⟩

/-- The semaphore is posted. -/
theorem callable_of_posted (hnode : node ∈ s.tl.expireList) (hc : node.call? = some c)
    (hpc : s.handler = .semWait) (hsem : 0 < s.tl.semTimer) : Callable interval s c := by
  refine Callable.of_step (l := .handlerWait) (if_pos ⟨hpc, hsem⟩) ?_ rfl
  exact callable_of_lock hnode hc rfl

/-- A tick is about to post the semaphore. -/
theorem callable_of_posting (hnode : node ∈ s.tl.expireList) (hc : node.call? = some c)
    (hpc : s.handler = .semWait) (hposting : 0 < s.posting) : Callable interval s c := by
  refine Callable.of_step (l := .tickPost) (if_pos hposting) ?_ rfl
  exact callable_of_posted hnode hc hpc (Nat.succ_pos s.tl.semTimer)

/-- A tick is about to find that timers wait. -/
theorem callable_of_testing (hnode : node ∈ s.tl.expireList) (hc : node.call? = some c)
    (hpc : s.handler = .semWait) (htesting : 0 < s.testing) (hcount : 0 < s.tl.expireCnt) :
    Callable interval s c := by
  refine Callable.of_step (l := .tickTest) (if_pos htesting) ?_ rfl
  rw [if_pos hcount]
  exact callable_of_posting hnode hc hpc (Nat.succ_pos s.posting)

/-- A timer that is awaited can be called as it is. -/
theorem Awaited.callable (h : Awaited s) (hnode : node ∈ s.tl.expireList)
    (hc : node.call? = some c) : Callable interval s c := by
  obtain hlock | ⟨hpc, hsem | hposting | ⟨htesting, hcount⟩⟩ :=
    h.notStranded (List.ne_nil_of_mem hnode)
  · exact callable_of_lock hnode hc hlock
  · exact callable_of_posted hnode hc hpc hsem
  · exact callable_of_posting hnode hc hpc hposting
  · exact callable_of_testing hnode hc hpc htesting hcount

end Waiting

/-- The interval stays, and a handler that has ended. -/
theorem timerStep_frame {s s' : TimerState} {l : TimerAct} (hstep : timerStep s l = some s') :
    s'.tl.interval = s.tl.interval ∧ (s.handler = .done → s'.handler = .done) := by
  cases l with
  | rearm timerID newExpire =>
    obtain rfl := Option.some.inj hstep
    obtain ⟨active, heq, -⟩ := fmtimerRearm_eq timerID newExpire.toInt s.tl
    rw [heq]
    exact ⟨rfl, id⟩
  | handlerWait =>
    obtain ⟨⟨hpc, -⟩, hstep⟩ := Option.ite_none_right_eq_some.mp hstep
    obtain rfl := Option.some.inj hstep
    refine ⟨rfl, fun hdone => ?_⟩
    rw [hpc] at hdone
    cases hdone
  | handlerRun =>
    obtain ⟨-, hstep⟩ := Option.ite_none_right_eq_some.mp hstep
    obtain rfl := Option.some.inj hstep
    exact ⟨rfl, fun _ => rfl⟩
  | addLink node =>
    obtain ⟨-, hstep⟩ := Option.ite_none_right_eq_some.mp hstep
    obtain rfl := Option.some.inj hstep
    exact ⟨rfl, id⟩
  | tickTest =>
    obtain ⟨-, hstep⟩ := Option.ite_none_right_eq_some.mp hstep
    obtain rfl := Option.some.inj hstep
    exact ⟨rfl, id⟩
  | tickPost =>
    obtain ⟨-, hstep⟩ := Option.ite_none_right_eq_some.mp hstep
    obtain rfl := Option.some.inj hstep
    exact ⟨rfl, id⟩
  | _ =>
    obtain rfl := Option.some.inj hstep
    exact ⟨rfl, id⟩

/-- The interval is that of `fmtimer_init`, and until the handler has ended the timers
are awaited. -/
theorem timers_reachable {interval : ℤ} {s : TimerState}
    (hs : Lts.Reachable (timers interval) s) :
    s.tl.interval = interval ∧ (s.handler = .done ∨ Awaited s) := by
  refine hs.invariant
    (P := fun u => u.tl.interval = interval ∧ (u.handler = .done ∨ Awaited u)) ?_ ?_
  · rintro u ⟨timerID, rfl⟩
    exact ⟨rfl, .inr ⟨le_refl 0, fun hne => absurd rfl hne⟩⟩
  · rintro a l b ⟨hinterval, ha⟩ hstep
    obtain ⟨hsame, hends⟩ := timerStep_frame hstep
    refine ⟨hsame.trans hinterval, ?_⟩
    by_cases hdone : a.handler = .done
    · exact .inl (hends hdone)
    · have hok : ExpiresBeforeEnd a l := by
        cases l with
        | tick overflow => exact fun hpc => absurd hpc hdone
        | _ => trivial
      exact .inr ((ha.resolve_left hdone).step hok hstep)

/-- A timer deleted while it waits to be called can still be called. -/
theorem unsafe_of_del {interval timerID : ℤ} {s s' : TimerState} (h : Awaited s)
    (hreach : ¬ WithinReach s (.del timerID)) (hstep : timerStep s (.del timerID) = some s') :
    ∃ ls s'', Lts.Run (timers interval) s' ls s'' ∧ ¬ TimerSafe s'' := by
  have hawaited : Awaited s' := h.step (l := .del timerID) trivial hstep
  obtain rfl := Option.some.inj hstep
  obtain ⟨node, hnode, hid, hfunction⟩ : ∃ node ∈ s.tl.expireList, node.timerID = timerID ∧
      node.function ≠ none := by
    simpa [WithinReach] using (not_or.mp hreach).2
  obtain ⟨f, hf⟩ := Option.ne_none_iff_exists'.mp hfunction
  obtain ⟨ls, s'', hrun, hcall, -⟩ : Callable interval _ _ :=
    hawaited.callable (List.mem_map_of_mem hnode) (by rw [TimerNode.call?, hf]; rfl)
  refine ⟨ls, s'', hrun, fun hsafe => ?_⟩
  have hdeleted := hsafe.notDeleted _ hcall
  simp [hid] at hdeleted

/-- A timer that the next tick expires can be called then. -/
theorem Awaited.callable_of_tick {interval : ℤ} {s : TimerState} {node : TimerNode}
    {c : TimerCall} (h : Awaited s) (hdone : s.handler ≠ .done) (hnode : node ∈ s.tl.activeList)
    {overflow : TimerNode → ℤ}
    (hexpires : (takeInterval overflow s.tl.interval node).expires ≤ 0)
    (hc : (takeInterval overflow s.tl.interval node).call? = some c) : Callable interval s c := by
  have hok : ExpiresBeforeEnd s (.tick overflow) := fun hpc => absurd hpc hdone
  refine Callable.of_step (l := .tick overflow) rfl ?_ rfl
  refine (h.step hok rfl).callable (List.mem_append_right _ ?_) hc
  rw [clocktickLoop_expired]
  exact List.mem_filter.mpr ⟨List.mem_map_of_mem hnode, by simpa using hexpires⟩

/-- A timer about to be linked that the next tick expires can be called then. -/
theorem Awaited.callable_of_link {interval : ℤ} {s : TimerState} {node : TimerNode}
    {c : TimerCall} (h : Awaited s) (hdone : s.handler ≠ .done) (hnode : node ∈ s.adding)
    {overflow : TimerNode → ℤ}
    (hexpires : (takeInterval overflow s.tl.interval node).expires ≤ 0)
    (hc : (takeInterval overflow s.tl.interval node).call? = some c) : Callable interval s c := by
  have hlinked := h.step (l := .addLink node) trivial (if_pos hnode)
  have hlast : node ∈ s.tl.activeList ++ [node] :=
    List.mem_append_right _ (List.mem_singleton_self node)
  refine Callable.of_step (l := .addLink node) (if_pos hnode) ?_ rfl
  exact hlinked.callable_of_tick hdone hlast hexpires hc

/-- A timer with a timeout that is no `int` expires at the first tick, or has C leave
open whether it does. -/
theorem expires_at_once {timeout : UInt32} {function : Option ℕ} {data timerID interval : ℤ}
    {uid : ℕ} (hpos : 0 < interval) (hlarge : 2147483648 ≤ timeout.toNat) :
    (takeInterval (fun _ => 0) interval
      (fmtimerNode timeout function data timerID uid)).expires ≤ 0 := by
  have hmax := timeout.toNat_lt
  have hint : u32ToInt timeout = timeout.toNat - 4294967296 := by
    unfold u32ToInt
    rw [Int.bmod_eq_emod]
    split <;> omega
  simp only [takeInterval, fmtimerNode, hint]
  split <;> omega

/-- A timer with a timeout that is no `int` can be called after the first tick. -/
theorem unsafe_of_add {interval : ℤ} {s s' : TimerState} {timeout : UInt32} {function : Option ℕ}
    {data : ℤ} (h : Awaited s) (hpos : 0 < s.tl.interval) (hmax : s.tl.interval < 2147483648)
    (hreach : ¬ WithinReach s (.addDraw timeout function data))
    (hstep : timerStep s (.addDraw timeout function data) = some s') :
    ∃ ls s'', Lts.Run (timers interval) s' ls s'' ∧ ¬ TimerSafe s'' := by
  have hawaited : Awaited s' := h.step (l := .addDraw timeout function data) trivial hstep
  obtain rfl := Option.some.inj hstep
  obtain ⟨hdone, hbad⟩ := not_or.mp hreach
  obtain ⟨hfunction, hlarge⟩ := not_or.mp hbad
  obtain ⟨f, rfl⟩ := Option.ne_none_iff_exists'.mp hfunction
  set node := fmtimerNode timeout (some f) data s.timerID s.added
  have hexpires : (takeInterval (fun _ => 0) s.tl.interval node).expires ≤ 0 :=
    expires_at_once hpos (Nat.le_of_not_lt hlarge)
  obtain ⟨c, hc, htimeout, hticks⟩ : ∃ c, (takeInterval (fun _ => 0) s.tl.interval node).call? =
      some c ∧ c.timeout = timeout.toNat ∧ c.ticks = 1 := ⟨_, rfl, rfl, rfl⟩
  have hadded := List.mem_append_right s.adding (List.mem_singleton_self node)
  have hcallable : Callable interval _ c := hawaited.callable_of_link hdone hadded hexpires hc
  obtain ⟨ls, s'', hrun, hcall, hsame⟩ := hcallable
  refine ⟨ls, s'', hrun, fun hsafe => ?_⟩
  have htime := hsafe.inTime c hcall
  rw [htimeout, hticks, hsame] at htime
  dsimp only at htime
  omega

/-- **Timers.** As long as every timer is within reach, none is called twice, too early,
or after it was deleted. Once one is added or deleted out of reach, such a call can
follow. -/
theorem timer_safety (interval : ℤ) (hpos : 0 < interval) (hmax : interval < 2147483648)
    (s : TimerState) :
    (Lts.Reachable (Lts.restrict (timers interval) WithinReach) s → TimerSafe s) ∧
    (Lts.Reachable (timers interval) s → ∀ l s', (timers interval).step s l s' →
      ¬ WithinReach s l →
        ∃ ls s'', Lts.Run (timers interval) s' ls s'' ∧ ¬ TimerSafe s'') := by
  constructor
  · intro hs
    obtain ⟨hdistinct, hdue⟩ : TimersDistinct s ∧ TimersDue s := by
      refine hs.invariant (P := fun u => TimersDistinct u ∧ TimersDue u) ?_ ?_
      · rintro u ⟨timerID, rfl⟩
        refine ⟨fun u => by simp [timerUids, timerInit, fmtimerInit], ⟨hpos, hmax⟩, .inr ?_, ?_⟩
        · refine ⟨?_, ?_, ?_⟩ <;> simp [timerInit, fmtimerInit]
        · simp [timerInit]
      · rintro a l b ⟨hdistinct, hdue⟩ ⟨hok, hstep⟩
        exact ⟨hdistinct.step hstep, hdue.step hok hstep⟩
    refine ⟨?_, fun c hc => (hdue.called c hc).2, fun c hc => (hdue.called c hc).1⟩
    rw [List.nodup_iff_count]
    intro u
    have hu := hdistinct u
    simp only [timerUids, List.count_append] at hu
    split at hu <;> omega
  · intro hs l s' hstep hreach
    obtain ⟨hinterval, hstate⟩ := timers_reachable hs
    have hawaited : Awaited s := by
      refine hstate.resolve_left fun hdone => hreach ?_
      cases l with
      | addDraw timeout function data => exact .inl hdone
      | del timerID => exact .inl hdone
      | _ => trivial
    cases l with
    | addDraw timeout function data =>
      exact unsafe_of_add hawaited (by omega) (by omega) hreach hstep
    | del timerID => exact unsafe_of_del hawaited hreach hstep
    | _ => exact absurd trivial hreach

/-- A timer of 15 with an interval of 10, called after the second tick. -/
theorem timer_safety_ten : ∃ s, s.calls ≠ [] ∧ TimerSafe s := by
  have hrun : ∃ s, [TimerAct.addDraw 15 (some 1) 0, .addLink (fmtimerNode 15 (some 1) 0 0 0),
      .tick fun _ => 0, .tick fun _ => 0, .tickTest, .tickPost, .handlerWait, .handlerRun].foldlM
        (fun s l => if WithinReach s l then timerStep s l else none) (timerInit 10 0) = some s ∧
      s.calls ≠ [] :=
    ⟨_, rfl, List.cons_ne_nil _ _⟩
  obtain ⟨s, hfold, hne⟩ := hrun
  exact ⟨s, hne, (timer_safety 10 (by decide) (by decide) s).1
    ⟨timerInit 10 0, _, ⟨0, rfl⟩, Lts.run_restrict_of_foldlM hfold⟩⟩

/-- A timeout of 3000000000 is over at the first tick. -/
theorem timer_called_early :
    ¬ ∀ interval : ℤ, 0 < interval → interval < 2147483648 →
      ∀ s, Lts.Reachable (timers interval) s → TimerSafe s := by
  intro h
  have hrun : ∃ s, [TimerAct.addDraw 3000000000 (some 1) 0,
      .addLink (fmtimerNode 3000000000 (some 1) 0 0 0), .tick fun _ => 0, .tickTest, .tickPost,
      .handlerWait, .handlerRun].foldlM timerStep (timerInit 10 0) = some s ∧
        s.calls = [⟨1, 0, 0, 3000000000, 1, false⟩] ∧ s.tl.interval = 10 :=
    ⟨_, rfl, rfl, rfl⟩
  obtain ⟨s, hfold, hcalls, hinterval⟩ := hrun
  have hsafe := h 10 (by decide) (by decide) s
    ⟨timerInit 10 0, _, ⟨0, rfl⟩, Lts.run_of_foldlM hfold⟩
  have htime := hsafe.inTime ⟨1, 0, 0, 3000000000, 1, false⟩ (by simp [hcalls])
  rw [hinterval] at htime
  exact absurd htime (by decide)

end TsmVm
