import TsmVm.Lib.Lts

/-!
# A queue guarded by a counting semaphore

Producers append an item and later post one token; consumers wait for a token
and later take the front item. Nothing orders the two halves of different
producers and consumers, so tokens and items are related only by a count: each
item is matched by a token, by a producer that still owes one, or by a consumer
that has already been granted one.
-/

namespace Lts

/-- The state of the protocol: the queued items, the value of the semaphore,
and how many producers and consumers are between their two halves. -/
structure TokenQueue (α : Type*) where
  /-- The queued items, front first. -/
  items : List α
  /-- The value of the semaphore. -/
  tokens : ℕ
  /-- Producers that have appended their item but not posted yet. -/
  owed : ℕ
  /-- Consumers that have passed the wait but not taken an item yet. -/
  granted : ℕ

namespace TokenQueue

variable {α : Type*}

/-- The four halves. Taking reports what it found, `none` on an empty queue. -/
inductive Op (α : Type*)
  | put (a : α)
  | post
  | wait
  | take (a : Option α)

/-- The step relation; posting and taking need their first half. -/
def Step (q : TokenQueue α) (l : Op α) (q' : TokenQueue α) : Prop :=
  match l with
  | .put a => q'.items = q.items ++ [a] ∧ q'.tokens = q.tokens ∧ q'.owed = q.owed + 1 ∧
      q'.granted = q.granted
  | .post => q'.items = q.items ∧ q'.tokens = q.tokens + 1 ∧ q'.owed + 1 = q.owed ∧
      q'.granted = q.granted
  | .wait => q'.items = q.items ∧ q'.tokens + 1 = q.tokens ∧ q'.owed = q.owed ∧
      q'.granted = q.granted + 1
  | .take a => a = q.items.head? ∧ q'.items = q.items.tail ∧ q'.tokens = q.tokens ∧
      q'.owed = q.owed ∧ q'.granted + 1 = q.granted

/-- A step of one party, seen with that party's own debts and grants only, is a
step of the whole when the totals change by the same differences. -/
theorem Step.of_local {q q' : TokenQueue α} {l : Op α} {o o' g g' : ℕ}
    (h : Step ⟨q.items, q.tokens, o, g⟩ l ⟨q'.items, q'.tokens, o', g'⟩)
    (howed : q'.owed + o = q.owed + o') (hgranted : q'.granted + g = q.granted + g') :
    Step q l q' := by
  cases l with
  | put a =>
    obtain ⟨hi, ht, ho, hg⟩ := h
    exact ⟨hi, ht, by simp only at ho; omega, by simp only at hg; omega⟩
  | post =>
    obtain ⟨hi, ht, ho, hg⟩ := h
    exact ⟨hi, ht, by simp only at ho; omega, by simp only at hg; omega⟩
  | wait =>
    obtain ⟨hi, ht, ho, hg⟩ := h
    exact ⟨hi, ht, by simp only at ho; omega, by simp only at hg; omega⟩
  | take a =>
    obtain ⟨ha, hi, ht, ho, hg⟩ := h
    exact ⟨ha, hi, ht, by simp only at ho; omega, by simp only at hg; omega⟩

/-- The protocol, started with nothing queued, posted, owed or granted. -/
def system (α : Type*) : System (TokenQueue α) (Op α) where
  init q := q = ⟨[], 0, 0, 0⟩
  step := Step

/-- Every queued item is accounted for by exactly one token, debt or grant. -/
def Balanced (q : TokenQueue α) : Prop := q.items.length = q.tokens + q.owed + q.granted

/-- One step keeps the accounts balanced. -/
theorem Balanced.step {q q' : TokenQueue α} {l : Op α} (hq : Balanced q) (h : Step q l q') :
    Balanced q' := by
  unfold Balanced at hq ⊢
  cases l with
  | put a =>
    obtain ⟨hi, ht, ho, hg⟩ := h
    rw [hi, List.length_append, List.length_singleton]
    omega
  | post =>
    obtain ⟨hi, ht, ho, hg⟩ := h
    rw [hi]
    omega
  | wait =>
    obtain ⟨hi, ht, ho, hg⟩ := h
    rw [hi]
    omega
  | take a =>
    obtain ⟨-, hi, ht, ho, hg⟩ := h
    rw [hi, List.length_tail]
    omega

/-- The accounts are balanced in every reachable state. -/
theorem balanced_of_reachable {q : TokenQueue α} (h : Reachable (system α) q) : Balanced q := by
  refine h.invariant ?_ (fun hq hstep => Balanced.step hq hstep)
  rintro s rfl
  rfl

/-- A granted consumer of a balanced queue finds an item. -/
theorem Balanced.take_isSome {q q' : TokenQueue α} {a : Option α} (hq : Balanced q)
    (h : Step q (.take a) q') : a.isSome := by
  obtain ⟨rfl, -, -, -, hg⟩ := h
  unfold Balanced at hq
  cases hi : q.items with
  | nil => rw [hi, List.length_nil] at hq; omega
  | cons a items => rfl

/-- The items appended along a run. -/
def puts : List (Op α) → List α := List.filterMap fun
  | .put a => some a
  | _ => none

/-- The items taken along a run. -/
def takes : List (Op α) → List α := List.filterMap fun
  | .take a => a
  | _ => none

@[simp] theorem puts_append (ks ls : List (Op α)) : puts (ks ++ ls) = puts ks ++ puts ls := by
  simp [puts]

@[simp] theorem takes_append (ks ls : List (Op α)) : takes (ks ++ ls) = takes ks ++ takes ls := by
  simp [takes]

/-- **First in, first out.** What was queued at the start and what was put
since is what was taken, in that order, followed by what is still queued. -/
theorem fifo {q q' : TokenQueue α} {ls : List (Op α)} (h : Run (system α) q ls q') :
    q.items ++ puts ls = takes ls ++ q'.items := by
  induction h with
  | nil => simp [puts, takes]
  | @snoc t u ls l _ hstep ih =>
    rw [puts_append, ← List.append_assoc, ih, takes_append]
    cases l with
    | put a => simp [puts, takes, hstep.1]
    | post => simp [puts, takes, hstep.1]
    | wait => simp [puts, takes, hstep.1]
    | take a =>
      obtain ⟨rfl, hi, -⟩ := hstep
      rw [hi]
      cases t.items <;> simp [puts, takes]

end TokenQueue

end Lts
