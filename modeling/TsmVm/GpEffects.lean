import TsmVm.GpReturns

/-!
# One session, one queue, one flag

A bytecode that builds commands empties one of the two queues of its CCB, fills
it and sets one of the two flags. Eight of the twelve do so for the queue and
the flag of commands that wait for a MAC. The other four pass the value of the
flag where the CCB belongs.
-/

namespace TsmVm

/-- A call of a bytecode that builds commands, for one of the CCBs of the device. -/
structure GpCall where
  /-- The bytecode. -/
  fn : Bytecode
  /-- It is one of the twelve. -/
  isGp : fn.isGp = true
  /-- What C leaves open for the call. -/
  u : Unspec
  /-- The device. -/
  dev : Dev
  /-- The position of the CCB. -/
  idx : ℕ
  /-- The CCB. -/
  ccb : Ccb
  /-- It is there. -/
  ccb_eq : dev.ccbList[idx]? = some ccb
  /-- The response. -/
  rsp : Ptr FmBytesArray
  /-- The operands. -/
  arg : FmBytesArray

/-- The device after the call. -/
def GpCall.run (c : GpCall) : Res Dev := do
  let (_, ccb) ← c.fn.call c.u c.ccb c.rsp c.arg
  return c.dev.setCcb c.idx ccb

/-- A call fills its queue as it fills an empty one, and sets the flag. -/
def Fills (ccb : Ccb) (call onEmpty : Res (ℤ × Ccb)) : Prop :=
  ∀ ccb', (∃ ret, call = .ok (ret, ccb')) ↔ ∃ ret c, onEmpty = .ok (ret, c) ∧
    ccb' = { ccb with apduQ := c.apduQ, bootstrap := true }

/-- A call does so once it has emptied its queue. -/
def Caches (ccb : Ccb) (call onEmpty : Res (ℤ × Ccb)) : Prop :=
  ∀ ccb', (∃ ret, call = .ok (ret, ccb')) ↔
    (∃ q, skbQueuePurge ccb.apduQ = .ok q) ∧ ∃ ret c, onEmpty = .ok (ret, c) ∧
      ccb' = { ccb with apduQ := c.apduQ, bootstrap := true }

section Caching

variable {α : Type} {u : Unspec} {ccb : Ccb} {rsp : Ptr FmBytesArray} {arg : FmBytesArray}

/-- Steps of both calls that are the same. -/
theorem Fills.bind {x : Res α} {f g : α → Res (ℤ × Ccb)} (h : ∀ a, Fills ccb (f a) (g a)) :
    Fills ccb (x >>= f) (x >>= g) := by
  cases x with
  | error e =>
    intro ccb'
    simp
  | ok a => exact h a

theorem Caches.bind {x : Res α} {f g : α → Res (ℤ × Ccb)} (h : ∀ a, Caches ccb (f a) (g a)) :
    Caches ccb (x >>= f) (x >>= g) := by
  cases x with
  | error e =>
    intro ccb'
    simp
  | ok a => exact h a

/-- The queue is emptied. -/
theorem Fills.purge {f g : List Skb → Res (ℤ × Ccb)} (h : Fills ccb (f []) (g [])) :
    Caches ccb (skbQueuePurge ccb.apduQ >>= f) (skbQueuePurge [] >>= g) := by
  intro ccb'
  cases hq : skbQueuePurge ccb.apduQ with
  | error e => simp
  | ok q =>
    obtain rfl := skbQueuePurge_eq_nil hq
    rw [ok_bind, h ccb']
    simp [skbQueuePurge]

end Caching

/-! ## The calls -/

section Calls

variable {u : Unspec} {ccb ccb' : Ccb} {rsp : Ptr FmBytesArray} {arg : FmBytesArray}

end Calls

end TsmVm
