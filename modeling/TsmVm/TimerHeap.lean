import TsmVm.FmList
import TsmVm.Timers

/-!
# Timers in memory (`fm_timer.c`)

The timers as they lie in memory: nodes from `fm_malloc` linked into the lists at
`&tl.active_list` and `&tl.expire_list`, walked with `list_for_each_safe` while
nodes are taken out, moved and freed. A node has the fields of the source only.
Where `fm_malloc` puts a node is part of the step that calls it.
-/

namespace TsmVm

open Rings

/-- The fields of `fmtimer_node` behind `entry`. -/
structure TimerFields where
  expires : ℤ
  function : Option ℕ
  data : ℤ
  timerID : ℤ
  deriving DecidableEq

/-- `tl`, and the nodes there are. A node and its `entry` have one address. -/
structure TimerHeap where
  links : Links
  nodes : ℕ → Option TimerFields
  activeCnt : ℤ
  expireCnt : ℤ
  interval : ℤ
  semTimer : ℕ

/-- The address of a list head of `tl`. -/
structure TimerHeads where
  active : ℕ
  expire : ℕ
  /-- They are different variables. -/
  ne : active ≠ expire

namespace TimerHeap

/-- Reading the fields of a node. -/
def read (h : TimerHeap) (node : ℕ) : Res TimerFields :=
  match h.nodes node with
  | some fields => .ok fields
  | none => .error (if node = 0 then .nullDeref else .wildAccess)

/-- Storing to the fields of a node that was read. -/
def store (h : TimerHeap) (node : ℕ) (fields : TimerFields) : TimerHeap :=
  { h with nodes := Function.update h.nodes node (some fields) }

/-- `fm_malloc(sizeof(fmtimer_node))` at an address, and the fields stored to it. The
entry is what was there. -/
def alloc (h : TimerHeap) (node : ℕ) (entry : Rings.Cell ℕ) (fields : TimerFields) : TimerHeap :=
  { h with
    links := Function.update h.links node (some entry)
    nodes := Function.update h.nodes node (some fields) }

/-- `fm_free(node)`. -/
def free (h : TimerHeap) (node : ℕ) : Res TimerHeap := do
  let _ ← h.read node
  return { h with
    links := Function.update h.links node none
    nodes := Function.update h.nodes node none }

/-- `node->expires -= tl.interval`. Where this overflows C leaves the value open. -/
def takeInterval (overflow : ℤ → ℤ) (interval : ℤ) (fields : TimerFields) : TimerFields :=
  { fields with
    expires :=
      if -2147483648 ≤ fields.expires - interval ∧ fields.expires - interval < 2147483648 then
        fields.expires - interval
      else overflow (fields.expires - interval) }

variable (tl : TimerHeads)

/-- The body of the loop of `clocktick_handler`. -/
def clocktickBody (overflow : ℤ → ℤ) (pos : ℕ) (h : TimerHeap) : Res TimerHeap := do
  let fields := takeInterval overflow h.interval (← h.read pos)
  let h := h.store pos fields
  if fields.expires ≤ 0 then
    let links ← listDel h.links pos
    let links ← listAddTail links pos tl.expire
    return { h with
      links := links
      activeCnt := h.activeCnt - 1
      expireCnt := h.expireCnt + 1 }
  else return h

/-- `clocktick_handler`, up to `UNLOCK`. -/
def clocktickHandler (overflow : ℤ → ℤ) (fuel : ℕ) (h : TimerHeap) : Res TimerHeap :=
  forEachSafe links (clocktickBody tl overflow) fuel tl.active h

/-- The body of the loop of `to_handler`, with the calls it makes. -/
def toHandlerBody (pos : ℕ) (s : TimerHeap × List (ℕ × ℤ)) : Res (TimerHeap × List (ℕ × ℤ)) := do
  let links ← listDel s.1.links pos
  let h := { s.1 with links := links }
  let fields ← h.read pos
  let calls := match fields.function with
    | some function => s.2 ++ [(function, fields.data)]
    | none => s.2
  return (← h.free pos, calls)

/-- `to_handler`, from `LOCK` to `UNLOCK`. -/
def toHandler (fuel : ℕ) (h : TimerHeap) : Res (TimerHeap × List (ℕ × ℤ)) :=
  forEachSafe (fun s => s.1.links) toHandlerBody fuel tl.expire (h, [])

/-- `fmtimer_add`, from `LOCK` to `UNLOCK`. -/
def fmtimerAdd (node : ℕ) (h : TimerHeap) : Res TimerHeap := do
  let links ← listAddTail h.links node tl.active
  return { h with links := links, activeCnt := h.activeCnt + 1 }

/-- The loop of `fmtimer_rearm`, with what it returns. -/
def rearmLoop (timerID newExpire : ℤ) : ℕ → ℕ → ℕ → TimerHeap → Res (TimerHeap × ℤ)
  | 0, _, _, _ => .error .hang
  | fuel + 1, pos, n, h =>
    if pos = tl.active then .ok (h, -1) else do
      let fields ← h.read pos
      if fields.timerID = timerID then return (h.store pos { fields with expires := newExpire }, 0)
      rearmLoop timerID newExpire fuel n (← nextOf h.links n) h

/-- `fmtimer_rearm`. -/
def fmtimerRearm (timerID newExpire : ℤ) (fuel : ℕ) (h : TimerHeap) : Res (TimerHeap × ℤ) := do
  let pos ← nextOf h.links tl.active
  rearmLoop tl timerID newExpire fuel pos (← nextOf h.links pos) h

/-- The body of the loop of `fmtimer_del`. -/
def delBody (timerID : ℤ) (pos : ℕ) (h : TimerHeap) : Res TimerHeap := do
  let fields ← h.read pos
  if fields.timerID = timerID then
    let links ← listDel h.links pos
    { h with links := links, activeCnt := h.activeCnt - 1 }.free pos
  else return h

/-- `fmtimer_del`. -/
def fmtimerDel (timerID : ℤ) (fuel : ℕ) (h : TimerHeap) : Res TimerHeap :=
  forEachSafe links (delBody timerID) fuel tl.active h

/-- The body of the loop of `fmtimer_deinit`. It takes out the entry of `node` before
`node` is set to the entry the loop is at; `none` is a variable without a value. -/
def deinitBody (pos : ℕ) (s : TimerHeap × Option ℕ) : Res (TimerHeap × Option ℕ) := do
  match s.2 with
  | none => .error .wildAccess
  | some node =>
    let links ← listDel s.1.links node
    return (← { s.1 with links := links }.free pos, some pos)

/-- `fmtimer_deinit`. -/
def fmtimerDeinit (fuel : ℕ) (h : TimerHeap) : Res (TimerHeap × Option ℕ) :=
  forEachSafe (fun s => s.1.links) deinitBody fuel tl.active (h, none)

/-- `fmtimer_init`: the heads are linked to themselves; no node is there. -/
def fmtimerInit (interval : ℤ) : Res TimerHeap := do
  let links : Links := fun a => if a = tl.active ∨ a = tl.expire then some ⟨0, 0⟩ else none
  let links ← initListHead links tl.active
  let links ← initListHead links tl.expire
  return { links := links, nodes := fun _ => none, activeCnt := 0, expireCnt := 0,
           interval := interval, semTimer := 0 }

end TimerHeap

/-! ## The threads -/

/-- A state of the timers outside the critical sections. -/
structure TimerHeapState where
  heap : TimerHeap
  /-- The next `timerID`. -/
  timerID : ℤ
  /-- The nodes of the calls of `fmtimer_add` that have not got to `LOCK`. -/
  adding : List ℕ
  /-- The ticks between `UNLOCK` and `tl.expire_cnt > 0`. -/
  testing : ℕ
  /-- The ticks about to post `sem_timer`. -/
  posting : ℕ
  handler : HandlerPc
  /-- The calls made so far: the function and its argument. -/
  calls : List (ℕ × ℤ)

/-- The steps of the timers. -/
inductive TimerHeapAct
  /-- `fmtimer_add` makes a node, where `fm_malloc` has room for one. -/
  | addDraw (node : Option (ℕ × Rings.Cell ℕ)) (timeout : UInt32) (function : Option ℕ) (data : ℤ)
  /-- `fmtimer_add` links its node. -/
  | addLink (node : ℕ)
  /-- `fmtimer_rearm`. -/
  | rearm (timerID : ℤ) (newExpire : Int32)
  /-- `fmtimer_del`. -/
  | del (timerID : ℤ)
  /-- `clocktick_handler`, up to `UNLOCK`. -/
  | tick (overflow : ℤ → ℤ)
  /-- `if(tl.expire_cnt > 0)`. -/
  | tickTest
  /-- `sem_post(&tl.sem_timer)`. -/
  | tickPost
  /-- `sem_wait(&tl.sem_timer)` of the handler. -/
  | handlerWait
  /-- The critical section of the handler. -/
  | handlerRun

/-- One step, where it can be made; what is done under the lock may stop. -/
def timerHeapStep (tl : TimerHeads) (fuel : ℕ) (s : TimerHeapState) :
    TimerHeapAct → Option (Res TimerHeapState)
  | .addDraw none _ _ _ => some (.error .nullDeref)
  | .addDraw (some (node, entry)) timeout function data =>
    if s.heap.links node = none ∧ s.heap.nodes node = none then
      some (.ok { s with
        heap := s.heap.alloc node entry
          { expires := u32ToInt timeout, function := function, data := data, timerID := s.timerID }
        adding := s.adding ++ [node]
        timerID := (s.timerID + 1).bmod 4294967296 })
    else none
  | .addLink node =>
    if node ∈ s.adding then
      some (do
        let heap ← s.heap.fmtimerAdd tl node
        return { s with heap := heap, adding := s.adding.erase node })
    else none
  | .rearm timerID newExpire =>
    some (do
      let (heap, _) ← s.heap.fmtimerRearm tl timerID newExpire.toInt fuel
      return { s with heap := heap })
  | .del timerID =>
    some (do
      let heap ← s.heap.fmtimerDel tl timerID fuel
      return { s with heap := heap })
  | .tick overflow =>
    some (do
      let heap ← s.heap.clocktickHandler tl overflow fuel
      return { s with heap := heap, testing := s.testing + 1 })
  | .tickTest =>
    if 0 < s.testing then
      some (.ok { s with
        testing := s.testing - 1
        posting := if 0 < s.heap.expireCnt then s.posting + 1 else s.posting })
    else none
  | .tickPost =>
    if 0 < s.posting then
      some (.ok { s with
        posting := s.posting - 1
        heap := { s.heap with semTimer := s.heap.semTimer + 1 } })
    else none
  | .handlerWait =>
    if s.handler = .semWait ∧ 0 < s.heap.semTimer then
      some (.ok { s with
        handler := .lock
        heap := { s.heap with semTimer := s.heap.semTimer - 1 } })
    else none
  | .handlerRun =>
    if s.handler = .lock then
      some (do
        let (heap, calls) ← s.heap.toHandler tl fuel
        return { s with handler := .done, heap := heap, calls := s.calls ++ calls })
    else none

/-- The timers in memory after `fmtimer_init`. A loop may take as many rounds as it
needs. -/
def timerHeaps (tl : TimerHeads) (interval : ℤ) : Lts.System TimerHeapState TimerHeapAct where
  init s := ∃ heap timerID, TimerHeap.fmtimerInit tl interval = .ok heap ∧
    s = { heap := heap, timerID := timerID, adding := [], testing := 0, posting := 0,
          handler := .semWait, calls := [] }
  step s l s' := ∃ fuel, timerHeapStep tl fuel s l = some (.ok s')

end TsmVm
