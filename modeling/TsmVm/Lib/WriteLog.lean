import Mathlib.Data.List.Basic

/-!
# Maps given by their writes

A map whose history matters is the list of the writes to it, oldest first. What
it holds for a key is what the last write to that key has stored; a key that was
never written holds nothing.
-/

variable {κ ν : Type*}

/-- The writes to a map, oldest first. -/
abbrev WriteLog (κ ν : Type*) := List (κ × Option ν)

namespace WriteLog

variable [DecidableEq κ]

/-- What the last write to a key has stored. -/
def value (log : WriteLog κ ν) (x : κ) : Option ν :=
  (log.reverse.find? fun w => w.1 = x).bind Prod.snd

/-- One more write. -/
def write (log : WriteLog κ ν) (x : κ) (v : Option ν) : WriteLog κ ν := log ++ [(x, v)]

/-- A write determines what its key holds and leaves every other key alone. -/
theorem value_write (log : WriteLog κ ν) (k : κ) (v : Option ν) (x : κ) :
    (log.write k v).value x = if x = k then v else log.value x := by
  unfold value write
  rw [List.reverse_append, List.reverse_singleton, List.singleton_append]
  by_cases hx : x = k
  · subst hx
    simp
  · have hne : decide (k = x) = false := by simpa using fun h => hx h.symm
    simp [hx, hne]

end WriteLog
