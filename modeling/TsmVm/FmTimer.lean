import TsmVm.Base
import TsmVm.Lib.Lts

/-!
# Timers (`fm_timer.c`)

The timers wait in `active_list`. Every clock tick takes the interval off each of
them and moves the expired ones to `expire_list`, where the handler thread finds
them once it has got past its semaphore. What runs under `tl.lock` is one step.

A node carries, besides the fields of the source, which one it is and what its user
is promised: the timeout it was added or rearmed with last, the ticks since then,
and whether it was deleted.
-/

namespace TsmVm

/-- `fmtimer_node`. A function is given by its address, `none` is `NULL`. -/
structure TimerNode where
  expires : ℤ
  function : Option ℕ
  data : ℤ
  timerID : ℤ
  /-- The how-manieth timer it is. -/
  uid : ℕ
  /-- The timeout it was added or rearmed with last. -/
  timeout : ℤ
  /-- The ticks since then. -/
  ticks : ℕ
  /-- `fmtimer_del` was called for it. -/
  deleted : Bool
deriving DecidableEq

/-- `fmtimer_list`, as far as it is used after `fmtimer_init`. -/
structure TimerList where
  activeList : List TimerNode
  expireList : List TimerNode
  activeCnt : ℤ
  expireCnt : ℤ
  interval : ℤ
  /-- The value of `sem_timer`. -/
  semTimer : ℕ

/-- A call of a timer's function, with what its user is promised at that time. -/
structure TimerCall where
  function : ℕ
  data : ℤ
  uid : ℕ
  timeout : ℤ
  ticks : ℕ
  deleted : Bool

/-- `node->expires -= tl.interval`. Where this overflows C leaves the value open. -/
def takeInterval (overflow : TimerNode → ℤ) (interval : ℤ) (node : TimerNode) : TimerNode :=
  { node with
    expires :=
      if -2147483648 ≤ node.expires - interval ∧ node.expires - interval < 2147483648 then
        node.expires - interval
      else overflow node
    ticks := node.ticks + 1 }

/-- The loop of `clocktick_handler`: what stays active, and what has expired. -/
def clocktickLoop (overflow : TimerNode → ℤ) (interval : ℤ) :
    List TimerNode → List TimerNode × List TimerNode
  | [] => ([], [])
  | node :: rest =>
    let node := takeInterval overflow interval node
    let (active, expired) := clocktickLoop overflow interval rest
    if node.expires ≤ 0 then (active, node :: expired) else (node :: active, expired)

/-- `clocktick_handler`, up to `UNLOCK`. -/
def clocktickHandler (overflow : TimerNode → ℤ) (tl : TimerList) : TimerList :=
  let (active, expired) := clocktickLoop overflow tl.interval tl.activeList
  { tl with
    activeList := active
    activeCnt := tl.activeCnt - expired.length
    expireList := tl.expireList.map (fun node => { node with ticks := node.ticks + 1 }) ++ expired
    expireCnt := tl.expireCnt + expired.length }

/-- `node->function(node->data)`, unless it is `NULL`. -/
def TimerNode.call? (node : TimerNode) : Option TimerCall :=
  node.function.map fun function =>
    { function := function, data := node.data, uid := node.uid, timeout := node.timeout,
      ticks := node.ticks, deleted := node.deleted }

/-- `to_handler`, from `LOCK` to `UNLOCK`: the calls it makes. It leaves the counter
as it is. -/
def toHandler (tl : TimerList) : TimerList × List TimerCall :=
  ({ tl with expireList := [] }, tl.expireList.filterMap TimerNode.call?)

/-- `fmtimer_init`: the list as it is when the handler thread starts. -/
def fmtimerInit (interval : ℤ) : TimerList :=
  { activeList := [], expireList := [], activeCnt := 0, expireCnt := 0, interval := interval,
    semTimer := 0 }

/-- The assignment of a `u32` to an `int`. -/
def u32ToInt (v : UInt32) : ℤ := (v.toNat : ℤ).bmod 4294967296

/-- `fmtimer_add`, before `LOCK`. -/
def fmtimerNode (timeout : UInt32) (function : Option ℕ) (data timerID : ℤ) (uid : ℕ) : TimerNode :=
  { expires := u32ToInt timeout, function := function, data := data, timerID := timerID, uid := uid,
    timeout := timeout.toNat, ticks := 0, deleted := false }

/-- `fmtimer_add`, from `LOCK` to `UNLOCK`. -/
def fmtimerAdd (node : TimerNode) (tl : TimerList) : TimerList :=
  { tl with activeList := tl.activeList ++ [node], activeCnt := tl.activeCnt + 1 }

/-- The loop of `fmtimer_rearm`: the list where it finds the timer. -/
def rearmLoop (timerID newExpire : ℤ) : List TimerNode → Option (List TimerNode)
  | [] => none
  | node :: rest =>
    if node.timerID = timerID then
      some ({ node with expires := newExpire, timeout := newExpire, ticks := 0 } :: rest)
    else (rearmLoop timerID newExpire rest).map (node :: ·)

/-- `fmtimer_rearm`, with what it returns. -/
def fmtimerRearm (timerID newExpire : ℤ) (tl : TimerList) : TimerList × ℤ :=
  match rearmLoop timerID newExpire tl.activeList with
  | some active => ({ tl with activeList := active }, 0)
  | none => (tl, -1)

/-- `fmtimer_del`. A timer that has expired is not looked for; that it was to be
deleted is noted in the node. -/
def fmtimerDel (timerID : ℤ) (tl : TimerList) : TimerList :=
  { tl with
    activeList := tl.activeList.filter (·.timerID ≠ timerID)
    activeCnt := tl.activeCnt - tl.activeList.countP (·.timerID = timerID)
    expireList := tl.expireList.map fun node =>
      { node with deleted := node.deleted || node.timerID = timerID } }

/-! ## The threads -/

/-- Where the handler thread is. -/
inductive HandlerPc
  /-- Before `sem_wait`. -/
  | semWait
  /-- Past `sem_wait`, before `LOCK`. -/
  | lock
  /-- Past `UNLOCK`: `to_handler` has no loop. -/
  | done
deriving DecidableEq

/-- A state of the timers outside the critical sections. -/
structure TimerState where
  tl : TimerList
  /-- The next `timerID`. -/
  timerID : ℤ
  /-- The nodes of the calls of `fmtimer_add` that have not got to `LOCK`. -/
  adding : List TimerNode
  /-- The ticks between `UNLOCK` and `tl.expire_cnt > 0`. -/
  testing : ℕ
  /-- The ticks about to post `sem_timer`. -/
  posting : ℕ
  handler : HandlerPc
  /-- The calls made so far. -/
  calls : List TimerCall
  /-- The timers made so far. -/
  added : ℕ

/-- The steps of the timers. -/
inductive TimerAct
  /-- `fmtimer_add` makes a node. -/
  | addDraw (timeout : UInt32) (function : Option ℕ) (data : ℤ)
  /-- `fmtimer_add` links its node. -/
  | addLink (node : TimerNode)
  /-- `fmtimer_rearm`. -/
  | rearm (timerID : ℤ) (newExpire : Int32)
  /-- `fmtimer_del`. -/
  | del (timerID : ℤ)
  /-- `clocktick_handler`, up to `UNLOCK`. -/
  | tick (overflow : TimerNode → ℤ)
  /-- `if(tl.expire_cnt > 0)`. -/
  | tickTest
  /-- `sem_post(&tl.sem_timer)`. -/
  | tickPost
  /-- `sem_wait(&tl.sem_timer)` of the handler. -/
  | handlerWait
  /-- The critical section of the handler. -/
  | handlerRun

/-- One step, where it can be made. -/
def timerStep (s : TimerState) : TimerAct → Option TimerState
  | .addDraw timeout function data =>
    some { s with
      adding := s.adding ++ [fmtimerNode timeout function data s.timerID s.added]
      timerID := (s.timerID + 1).bmod 4294967296
      added := s.added + 1 }
  | .addLink node =>
    if node ∈ s.adding then
      some { s with adding := s.adding.erase node, tl := fmtimerAdd node s.tl }
    else none
  | .rearm timerID newExpire =>
    some { s with tl := (fmtimerRearm timerID newExpire.toInt s.tl).1 }
  | .del timerID => some { s with tl := fmtimerDel timerID s.tl }
  | .tick overflow =>
    some { s with tl := clocktickHandler overflow s.tl, testing := s.testing + 1 }
  | .tickTest =>
    if 0 < s.testing then
      some { s with
        testing := s.testing - 1
        posting := if 0 < s.tl.expireCnt then s.posting + 1 else s.posting }
    else none
  | .tickPost =>
    if 0 < s.posting then
      some { s with
        posting := s.posting - 1
        tl := { s.tl with semTimer := s.tl.semTimer + 1 } }
    else none
  | .handlerWait =>
    if s.handler = .semWait ∧ 0 < s.tl.semTimer then
      some { s with handler := .lock, tl := { s.tl with semTimer := s.tl.semTimer - 1 } }
    else none
  | .handlerRun =>
    if s.handler = .lock then
      let (tl, calls) := toHandler s.tl
      some { s with handler := .done, tl := tl, calls := s.calls ++ calls }
    else none

/-- The state `fmtimer_init` leaves. -/
def timerInit (interval timerID : ℤ) : TimerState :=
  { tl := fmtimerInit interval, timerID := timerID, adding := [], testing := 0, posting := 0,
    handler := .semWait, calls := [], added := 0 }

/-- The timers after `fmtimer_init`. -/
def timers (interval : ℤ) : Lts.System TimerState TimerAct :=
  Lts.ofFun (fun s => ∃ timerID : ℤ, s = timerInit interval timerID) timerStep

/-! ## What the operations do to the lists -/

/-- A tick parts the timers by whether their time is over. -/
theorem clocktickLoop_eq (overflow : TimerNode → ℤ) (interval : ℤ) (l : List TimerNode) :
    clocktickLoop overflow interval l =
      ((l.map (takeInterval overflow interval)).filter fun node => 0 < node.expires,
        (l.map (takeInterval overflow interval)).filter fun node => node.expires ≤ 0) := by
  induction l with
  | nil => rfl
  | cons node l ih =>
    rw [clocktickLoop, ih, List.map_cons]
    dsimp only
    split
    · have hover : ¬ 0 < (takeInterval overflow interval node).expires := by omega
      rw [List.filter_cons_of_neg (by simpa using ‹_›),
        List.filter_cons_of_pos (by simpa using ‹_›)]
    · have hleft : 0 < (takeInterval overflow interval node).expires := by omega
      rw [List.filter_cons_of_pos (by simpa using hleft),
        List.filter_cons_of_neg (by simpa using hleft)]

/-- What stays active after a tick. -/
theorem clocktickLoop_active (overflow : TimerNode → ℤ) (interval : ℤ) (l : List TimerNode) :
    (clocktickLoop overflow interval l).1 =
      (l.map (takeInterval overflow interval)).filter fun node => 0 < node.expires :=
  congrArg Prod.fst (clocktickLoop_eq overflow interval l)

/-- What has expired after a tick. -/
theorem clocktickLoop_expired (overflow : TimerNode → ℤ) (interval : ℤ) (l : List TimerNode) :
    (clocktickLoop overflow interval l).2 =
      (l.map (takeInterval overflow interval)).filter fun node => node.expires ≤ 0 :=
  congrArg Prod.snd (clocktickLoop_eq overflow interval l)

/-- One node of a rearmed list gets the new timeout. -/
theorem rearmLoop_eq_some {timerID newExpire : ℤ} {l active : List TimerNode}
    (h : rearmLoop timerID newExpire l = some active) :
    ∃ before old behind, l = before ++ old :: behind ∧ active = before ++
      { old with expires := newExpire, timeout := newExpire, ticks := 0 } :: behind := by
  induction l generalizing active with
  | nil => cases h
  | cons first rest ih =>
    rw [rearmLoop] at h
    split at h
    · exact ⟨[], first, rest, rfl, (Option.some.inj h).symm⟩
    · obtain ⟨active', hactive', rfl⟩ := Option.map_eq_some_iff.mp h
      obtain ⟨before, old, behind, rfl, rfl⟩ := ih hactive'
      exact ⟨first :: before, old, behind, rfl, rfl⟩

/-- A rearmed list has the nodes it had, one of them with the new timeout. -/
theorem mem_rearmLoop {timerID newExpire : ℤ} {l active : List TimerNode}
    (h : rearmLoop timerID newExpire l = some active) {node : TimerNode} (hnode : node ∈ active) :
    ∃ old ∈ l, node = old ∨
      node = { old with expires := newExpire, timeout := newExpire, ticks := 0 } := by
  obtain ⟨before, old, behind, rfl, rfl⟩ := rearmLoop_eq_some h
  rw [List.mem_append, List.mem_cons] at hnode
  obtain hbefore | rfl | hbehind := hnode
  · exact ⟨node, List.mem_append_left _ hbefore, .inl rfl⟩
  · exact ⟨old, List.mem_append_right _ List.mem_cons_self, .inr rfl⟩
  · exact ⟨node, List.mem_append_right _ (List.mem_cons_of_mem old hbehind), .inl rfl⟩

/-- They are the same timers. -/
theorem rearmLoop_uid {timerID newExpire : ℤ} {l active : List TimerNode}
    (h : rearmLoop timerID newExpire l = some active) :
    active.map TimerNode.uid = l.map TimerNode.uid := by
  obtain ⟨before, old, behind, rfl, rfl⟩ := rearmLoop_eq_some h
  rw [List.map_append, List.map_append, List.map_cons, List.map_cons]

/-- Rearming changes at most the active timers. -/
theorem fmtimerRearm_eq (timerID newExpire : ℤ) (tl : TimerList) :
    ∃ active, (fmtimerRearm timerID newExpire tl).1 = { tl with activeList := active } ∧
      (active = tl.activeList ∨ rearmLoop timerID newExpire tl.activeList = some active) := by
  unfold fmtimerRearm
  cases hloop : rearmLoop timerID newExpire tl.activeList with
  | none => exact ⟨tl.activeList, rfl, .inl rfl⟩
  | some active => exact ⟨active, rfl, .inr rfl⟩

end TsmVm
