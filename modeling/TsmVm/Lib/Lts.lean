import Mathlib.Data.List.Induction
import Mathlib.Data.List.Forall2

/-!
# Labelled transition systems and their runs

A system is given by its initial states and a labelled step relation. Runs
keep the list of labels they performed, so a statement about the history of a
run and a statement about the state it reaches are proved by one induction. A
simulation maps states and labels of one system to those of another; steps it
maps to no label leave the image unchanged.
-/

namespace Lts

/-- A transition system over states `σ` whose steps carry labels `ι`. -/
structure System (σ ι : Type*) where
  /-- The states a run may start from. -/
  init : σ → Prop
  /-- `step s l t`: the system moves from `s` to `t` by the action `l`. -/
  step : σ → ι → σ → Prop

variable {σ ι τ κ : Type*}

/-- Finite runs from `s`, with the labels of their steps in the order performed. -/
inductive Run (m : System σ ι) (s : σ) : List ι → σ → Prop
  | nil : Run m s [] s
  | snoc {t u : σ} {ls : List ι} {l : ι} : Run m s ls t → m.step t l u → Run m s (ls ++ [l]) u

/-- The states some run from an initial state ends in. -/
def Reachable (m : System σ ι) (t : σ) : Prop := ∃ s ls, m.init s ∧ Run m s ls t

/-- A single step is a run. -/
theorem Run.single {m : System σ ι} {s t : σ} {l : ι} (h : m.step s l t) : Run m s [l] t :=
  Run.snoc Run.nil h

/-- Runs compose. -/
theorem Run.append {m : System σ ι} {s t u : σ} {ks ls : List ι} (h : Run m s ks t)
    (h' : Run m t ls u) : Run m s (ks ++ ls) u := by
  induction h' with
  | nil => simpa using h
  | snoc _ hstep ih => simpa [List.append_assoc] using Run.snoc ih hstep

/-- A step followed by a run is a run. -/
theorem Run.cons {m : System σ ι} {s t u : σ} {l : ι} {ls : List ι} (h : m.step s l t)
    (h' : Run m t ls u) : Run m s (l :: ls) u :=
  (Run.single h).append h'

/-- A property kept by every step is kept by every run. -/
theorem Run.invariant {m : System σ ι} {P : σ → Prop} {s t : σ} {ls : List ι} (h : Run m s ls t)
    (hs : P s) (hstep : ∀ {a l b}, P a → m.step a l b → P b) : P t := by
  induction h with
  | nil => exact hs
  | snoc _ hl ih => exact hstep ih hl

/-- A property of initial states kept by every step holds of every reachable state. -/
theorem Reachable.invariant {m : System σ ι} {P : σ → Prop} {t : σ} (h : Reachable m t)
    (hinit : ∀ {s}, m.init s → P s) (hstep : ∀ {a l b}, P a → m.step a l b → P b) : P t := by
  obtain ⟨s, ls, hs, hrun⟩ := h
  exact hrun.invariant (hinit hs) hstep

/-- Reachability is closed under runs. -/
theorem Reachable.run {m : System σ ι} {t u : σ} {ls : List ι} (h : Reachable m t)
    (hrun : Run m t ls u) : Reachable m u := by
  obtain ⟨s, ks, hs, hks⟩ := h
  exact ⟨s, ks ++ ls, hs, hks.append hrun⟩

/-- The system of a step function. -/
def ofFun (init : σ → Prop) (f : σ → ι → Option σ) : System σ ι where
  init := init
  step s l t := f s l = some t

/-- What a function computes that only makes steps of a system is a run. -/
theorem run_of_foldlM_steps {m : System σ ι} {f : σ → ι → Option σ}
    (hf : ∀ {s l u}, f s l = some u → m.step s l u) {s t : σ} {ls : List ι}
    (h : ls.foldlM f s = some t) : Run m s ls t := by
  induction ls generalizing s with
  | nil =>
    obtain rfl := Option.some.inj h
    exact Run.nil
  | cons l ls ih =>
    rw [List.foldlM_cons] at h
    obtain ⟨u, hu, hrest⟩ := Option.bind_eq_some_iff.mp h
    exact Run.cons (hf hu) (ih hrest)

/-- What the step function computes is a run. -/
theorem run_of_foldlM {init : σ → Prop} {f : σ → ι → Option σ} {s t : σ} {ls : List ι}
    (h : ls.foldlM f s = some t) : Run (ofFun init f) s ls t :=
  run_of_foldlM_steps (fun hu => hu) h

/-- The part of a system whose steps all satisfy a condition on the state
before the step and on its label. -/
def restrict (m : System σ ι) (ok : σ → ι → Prop) : System σ ι where
  init := m.init
  step s l t := ok s l ∧ m.step s l t

/-- What the step function computes while the condition holds is a run of the
restricted system. -/
theorem run_restrict_of_foldlM {init : σ → Prop} {f : σ → ι → Option σ} {ok : σ → ι → Prop}
    [∀ s l, Decidable (ok s l)] {s t : σ} {ls : List ι}
    (h : ls.foldlM (fun s l => if ok s l then f s l else none) s = some t) :
    Run (restrict (ofFun init f) ok) s ls t :=
  run_of_foldlM_steps (fun hu => Option.ite_none_right_eq_some.mp hu) h

/-- A run of the restricted system is a run of the whole system. -/
theorem Run.of_restrict {m : System σ ι} {ok : σ → ι → Prop} {s t : σ} {ls : List ι}
    (h : Run (restrict m ok) s ls t) : Run m s ls t := by
  induction h with
  | nil => exact Run.nil
  | snoc _ hstep ih => exact Run.snoc ih hstep.2

/-- A run all of whose steps satisfy the condition anyway is one of the restricted
system. -/
theorem Run.restrict {m : System σ ι} {ok : σ → ι → Prop} {s t : σ} {ls : List ι}
    (h : Run m s ls t) (hok : ∀ {a l b}, m.step a l b → ok a l) :
    Run (Lts.restrict m ok) s ls t := by
  induction h with
  | nil => exact Run.nil
  | snoc _ hstep ih => exact Run.snoc ih ⟨hok hstep, hstep⟩

/-- The part of a system whose steps all satisfy a condition on the states before
and after the step and on its label. -/
def restrictSteps (m : System σ ι) (ok : σ → ι → σ → Prop) : System σ ι where
  init := m.init
  step s l t := ok s l t ∧ m.step s l t

/-- A run all of whose labels satisfy the condition, from wherever they lead, is
one of the restricted system. -/
theorem Run.restrictSteps {m : System σ ι} {ok : σ → ι → σ → Prop} {s t : σ} {ls : List ι}
    (h : Run m s ls t) (hok : ∀ l ∈ ls, ∀ a b, m.step a l b → ok a l b) :
    Run (Lts.restrictSteps m ok) s ls t := by
  induction h with
  | nil => exact Run.nil
  | @snoc t u ls l _ hstep ih =>
    have hlast : ok t l u := hok l (by simp) t u hstep
    exact Run.snoc (ih fun k hk => hok k (by simp [hk])) ⟨hlast, hstep⟩

/-- What the restricted system reaches, the whole system reaches. -/
theorem Reachable.of_restrictSteps {m : System σ ι} {ok : σ → ι → σ → Prop} {t : σ}
    (h : Reachable (restrictSteps m ok) t) : Reachable m t := by
  obtain ⟨s, ls, hs, hrun⟩ := h
  refine ⟨s, ls, hs, ?_⟩
  induction hrun with
  | nil => exact Run.nil
  | snoc _ hstep ih => exact Run.snoc ih hstep.2

/-- A functional simulation: every concrete step is an abstract step with the
image label, or leaves the abstract state as it is when it has no image. -/
structure Simulation (c : System σ ι) (a : System τ κ) where
  /-- The abstract state a concrete state stands for. -/
  state : σ → τ
  /-- The abstract action a concrete one performs, if any. -/
  label : ι → Option κ
  /-- Initial states stand for initial states. -/
  init : ∀ {s}, c.init s → a.init (state s)
  /-- A step with an image is a step of the abstract system. -/
  step : ∀ {s l k t}, c.step s l t → label l = some k → a.step (state s) k (state t)
  /-- A step without an image is invisible to the abstract system. -/
  stutter : ∀ {s l t}, c.step s l t → label l = none → state t = state s

/-- A concrete run maps to an abstract run over the images of its labels. -/
theorem Simulation.run {c : System σ ι} {a : System τ κ} (f : Simulation c a) {s t : σ}
    {ls : List ι} (h : Run c s ls t) : Run a (f.state s) (ls.filterMap f.label) (f.state t) := by
  induction h with
  | nil => exact Run.nil
  | @snoc t u ls l _ hstep ih =>
    rw [List.filterMap_append]
    cases hl : f.label l with
    | none => simpa [hl, f.stutter hstep hl] using ih
    | some k => simpa [hl] using Run.snoc ih (f.step hstep hl)

/-- Reachable concrete states stand for reachable abstract states. -/
theorem Simulation.reachable {c : System σ ι} {a : System τ κ} (f : Simulation c a) {t : σ}
    (h : Reachable c t) : Reachable a (f.state t) := by
  obtain ⟨s, ls, hs, hrun⟩ := h
  exact ⟨f.state s, _, f.init hs, f.run hrun⟩

/-- A simulation by a relation: where every concrete step is matched by an abstract
one, a concrete run is matched by an abstract run. -/
theorem Run.simulated {c : System σ ι} {a : System τ κ} {R : σ → τ → Prop} {M : ι → κ → Prop}
    (hstep : ∀ {s t l s'}, R s t → c.step s l s' → ∃ k t', M l k ∧ a.step t k t' ∧ R s' t')
    {s s' : σ} {t : τ} {ls : List ι} (hrun : Run c s ls s') (hst : R s t) :
    ∃ ks t', List.Forall₂ M ls ks ∧ Run a t ks t' ∧ R s' t' := by
  induction hrun with
  | nil => exact ⟨[], t, .nil, Run.nil, hst⟩
  | snoc _ hl ih =>
    obtain ⟨ks, t₁, hmatch, hrun', hst₁⟩ := ih
    obtain ⟨k, t₂, hlk, hk, hst₂⟩ := hstep hst₁ hl
    exact ⟨ks ++ [k], t₂, List.rel_append hmatch (.cons hlk .nil), Run.snoc hrun' hk, hst₂⟩

end Lts
