import Mathlib.Logic.Function.Basic
import TsmVm.Lib.Lts

/-!
# Threads around one mutex

Threads with program counters work on shared data, and some of their steps lock or
unlock a mutex that is not recursive. A lock step waits until the mutex is free,
whoever owns it, and only the owner may unlock. An annotation says at which
program counters a thread owns the mutex; it is checked step by step, and holds in
every state that can be reached.
-/

namespace Mutex

variable {θ ι π δ : Type*}

/-- What a step does to the mutex. -/
inductive Effect
  | plain
  | lock
  | unlock
deriving DecidableEq

/-- The mutex and its threads. -/
structure State (θ π δ : Type*) where
  /-- The thread that owns the mutex. -/
  owner : Option θ
  /-- The program counters. -/
  pc : θ → π
  /-- What the threads share. -/
  data : δ

variable [DecidableEq θ]

/-- The owner after a step of thread `t`, where the step can be made. -/
def Effect.apply (t : θ) (owner : Option θ) : Effect → Option (Option θ)
  | .plain => some owner
  | .lock => if owner = none then some (some t) else none
  | .unlock => if owner = some t then some none else none

/-- The threads as a transition system: `next t l p d` is what thread `t` does at
`p` with the data `d` by the action `l`. -/
def system (init : State θ π δ → Prop) (next : θ → ι → π → δ → Option (Effect × π × δ)) :
    Lts.System (State θ π δ) (θ × ι) where
  init := init
  step s l s' := ∃ e p d owner, next l.1 l.2 (s.pc l.1) s.data = some (e, p, d) ∧
    e.apply l.1 s.owner = some owner ∧
    s' = { owner := owner, pc := Function.update s.pc l.1 p, data := d }

/-- `holds` annotates the program counters at which a thread owns the mutex. -/
structure Annotation (next : θ → ι → π → δ → Option (Effect × π × δ)) (holds : π → Bool) :
    Prop where
  /-- A lock step leads to where the mutex is owned. -/
  lock : ∀ {t l p d p' d'}, next t l p d = some (.lock, p', d') → holds p = false →
    holds p' = true
  /-- An unlock step leads to where it is not. -/
  unlock : ∀ {t l p d p' d'}, next t l p d = some (.unlock, p', d') → holds p = true →
    holds p' = false
  /-- Other steps change nothing about it. -/
  plain : ∀ {t l p d p' d'}, next t l p d = some (.plain, p', d') → holds p' = holds p

section Annotated

variable {init : State θ π δ → Prop} {next : θ → ι → π → δ → Option (Effect × π × δ)}
  {holds : π → Bool}

/-- One step keeps an annotation right. -/
theorem Annotation.step (h : Annotation next holds) {s s' : State θ π δ} {l : θ × ι}
    (hs : ∀ t, s.owner = some t ↔ holds (s.pc t) = true) (hstep : (system init next).step s l s') :
    ∀ t, s'.owner = some t ↔ holds (s'.pc t) = true := by
  obtain ⟨e, p, d, owner, hnext, howner, rfl⟩ := hstep
  intro t
  dsimp only
  cases e with
  | plain =>
    obtain rfl : s.owner = owner := Option.some.inj howner
    rw [hs t]
    by_cases ht : t = l.1
    · subst t
      rw [Function.update_self, h.plain hnext]
    · rw [Function.update_of_ne ht]
  | lock =>
    obtain ⟨hfree, howner⟩ := Option.ite_none_right_eq_some.mp howner
    obtain rfl : some l.1 = owner := Option.some.inj howner
    have hnone : ∀ u, holds (s.pc u) = false := by
      intro u
      have hu := hs u
      rw [hfree] at hu
      simpa using hu
    by_cases ht : t = l.1
    · subst t
      rw [Function.update_self, h.lock hnext (hnone l.1)]
      simp
    · rw [Function.update_of_ne ht, hnone t]
      simpa using Ne.symm ht
  | unlock =>
    obtain ⟨howns, howner⟩ := Option.ite_none_right_eq_some.mp howner
    obtain rfl : none = owner := Option.some.inj howner
    by_cases ht : t = l.1
    · subst t
      rw [Function.update_self, h.unlock hnext ((hs l.1).mp howns)]
      simp
    · have hother : ¬ holds (s.pc t) = true := by
        intro hholds
        rw [← hs t, howns] at hholds
        exact ht (Option.some.inj hholds).symm
      rw [Function.update_of_ne ht]
      simpa using hother

/-- Where the mutex is free at the start, an annotation is right in every state. -/
theorem Annotation.owner_iff (h : Annotation next holds)
    (hinit : ∀ {s}, init s → s.owner = none ∧ ∀ t, holds (s.pc t) = false) {s : State θ π δ}
    (hs : Lts.Reachable (system init next) s) :
    ∀ t, s.owner = some t ↔ holds (s.pc t) = true := by
  apply hs.invariant
  · intro s hs t
    obtain ⟨howner, hpc⟩ := hinit hs
    rw [howner, hpc t]
    simp
  · intro a l b ha hstep
    exact h.step ha hstep

omit [DecidableEq θ] in
/-- Where no thread is at a place that owns the mutex, it is free. -/
theorem owner_eq_none {s : State θ π δ} (hs : ∀ t, s.owner = some t ↔ holds (s.pc t) = true)
    (hpc : ∀ t, holds (s.pc t) = false) : s.owner = none := by
  cases howner : s.owner with
  | none => rfl
  | some t =>
    have hholds := (hs t).mp howner
    rw [hpc t] at hholds
    cases hholds

/-- A thread that is about to lock the mutex it owns stays where it is, whatever
the threads do. -/
theorem self_deadlock {s s' : State θ π δ} {l : θ × ι} {t : θ} (howner : s.owner = some t)
    (hlock : ∀ l d e p d', next t l (s.pc t) d = some (e, p, d') → e = .lock)
    (hstep : (system init next).step s l s') : s'.owner = some t ∧ s'.pc t = s.pc t := by
  obtain ⟨e, p, d, owner, hnext, happly, rfl⟩ := hstep
  by_cases ht : t = l.1
  · subst t
    obtain rfl := hlock _ _ _ _ _ hnext
    obtain ⟨hfree, -⟩ := Option.ite_none_right_eq_some.mp happly
    rw [howner] at hfree
    cases hfree
  · have hsame : owner = s.owner := by
      cases e with
      | plain => exact (Option.some.inj happly).symm
      | lock =>
        obtain ⟨hfree, -⟩ := Option.ite_none_right_eq_some.mp happly
        rw [howner] at hfree
        cases hfree
      | unlock =>
        obtain ⟨howns, -⟩ := Option.ite_none_right_eq_some.mp happly
        rw [howner] at howns
        exact absurd (Option.some.inj howns) ht
    exact ⟨hsame.trans howner, Function.update_of_ne ht _ _⟩

end Annotated

end Mutex
