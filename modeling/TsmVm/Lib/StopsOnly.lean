import Mathlib.Data.List.Basic

/-!
# Why a computation may stop

A computation that stops does so for a reason. That every reason it can have is
of some kind is shown along the computation: a sequence stops for the reasons of
its first part, and for those of its second part on what the first returned.
-/

universe v

variable {ε : Type*} {α β : Type v}

/-- Every reason the computation can stop for is of the kind. -/
def StopsOnly (kind : ε → Prop) (x : Except ε α) : Prop := ∀ e, x = .error e → kind e

namespace StopsOnly

variable {kind : ε → Prop}

/-- A result is no reason. -/
theorem ok (a : α) : StopsOnly kind (.ok a : Except ε α) := by
  rintro e ⟨⟩

/-- The reason of a computation that does nothing but stop. -/
theorem error {e : ε} (h : kind e) : StopsOnly kind (.error e : Except ε α) := by
  rintro e' ⟨⟩
  exact h

/-- A sequence. -/
theorem bind {x : Except ε α} {f : α → Except ε β} (hx : StopsOnly kind x)
    (hf : ∀ a, x = .ok a → StopsOnly kind (f a)) : StopsOnly kind (x >>= f) := by
  intro e he
  cases x with
  | error e' =>
    obtain rfl : e' = e := Except.error.inj he
    exact hx e' rfl
  | ok a => exact hf a rfl e he

/-- A sequence whose second part does not depend on what the first returns. -/
theorem seq {x : Except ε α} {f : α → Except ε β} (hx : StopsOnly kind x)
    (hf : ∀ a, StopsOnly kind (f a)) : StopsOnly kind (x >>= f) :=
  hx.bind fun a _ => hf a

/-- What is not of the kind is no reason. -/
theorem ne {x : Except ε α} {e : ε} (h : StopsOnly kind x) (he : ¬ kind e) : x ≠ .error e :=
  fun heq => he (h e heq)

end StopsOnly
