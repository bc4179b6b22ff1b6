import TsmVm.Lib.Mutex
import TsmVm.SessionStart

/-!
# The lock of `agent_list`

The reader registers and unregisters agents, the writer looks them up. Each of
these operations locks `agent_list.lock` itself or through `list_add_entry` and
`list_del_entry`. An operation is split where it locks and unlocks; what it does
to the list in between is one step, as nobody else gets at the list then.
-/

namespace TsmVm

/-- `router_unregister_agent`: the agents that are left. -/
def routerUnregisterAgent (fd : ℤ) (agents : List AgentEntry) : List AgentEntry :=
  agents.eraseP fun ae => ae.fd = fd

/-- The threads of the router. -/
inductive RouterThread
  | reader
  | writer
deriving DecidableEq

/-- The operations on `agent_list`. -/
inductive ListOp
  /-- `list_add_entry(&router->agent_list,…)`, as if it were given the address of the entry. -/
  | register (ae : AgentEntry)
  /-- `router_unregister_agent`. -/
  | unregister (fd : ℤ)
  /-- `router_get_des_wfd`. -/
  | getDesWfd (name : List UInt8)

/-- Where a thread is. -/
inductive ListPc
  /-- In no operation. -/
  | idle
  /-- `LOCK`, `list_add_tail` and `UNLOCK` of `list_add_entry`. -/
  | addLock (ae : AgentEntry) | addTail (ae : AgentEntry) | addUnlock
  /-- `LOCK`, the search, and `UNLOCK` of `router_get_des_wfd`. -/
  | getLock (name : List UInt8) | getSearch (name : List UInt8) | getUnlock
  /-- `LOCK` of `router_get_des_wfd` where the search has found the agent. -/
  | getRelock (fd : ℤ)
  /-- `LOCK`, the search, and `UNLOCK` of `router_unregister_agent`. -/
  | unregLock (fd : ℤ) | unregSearch (fd : ℤ) | unregUnlock
  /-- `LOCK`, `list_del` and `UNLOCK` of `list_del_entry`. -/
  | delLock (fd : ℤ) | delEntry (fd : ℤ) | delUnlock

/-- What a thread does: it calls an operation or goes on with one. -/
inductive ListAct
  | call (op : ListOp)
  | go

/-- The thread that performs an operation. -/
def ListOp.thread : ListOp → RouterThread
  | .register _ => .reader
  | .unregister _ => .reader
  | .getDesWfd _ => .writer

/-- Where an operation starts. -/
def ListOp.start : ListOp → ListPc
  | .register ae => .addLock ae
  | .unregister fd => .unregLock fd
  | .getDesWfd name => .getLock name

/-- One step of a thread. A search that meets an agent without a name has none. -/
def listNext (t : RouterThread) :
    ListAct → ListPc → List AgentEntry → Option (Mutex.Effect × ListPc × List AgentEntry)
  | .call op, .idle, agents => if op.thread = t then some (.plain, op.start, agents) else none
  | .call _, _, _ => none
  | .go, .idle, _ => none
  | .go, .addLock ae, agents => some (.lock, .addTail ae, agents)
  | .go, .addTail ae, agents => some (.plain, .addUnlock, agents ++ [ae])
  | .go, .addUnlock, agents => some (.unlock, .idle, agents)
  | .go, .getLock name, agents => some (.lock, .getSearch name, agents)
  | .go, .getSearch name, agents =>
    match findAgent name agents with
    | .ok (some fd) => some (.plain, .getRelock fd, agents)
    | .ok none => some (.plain, .getUnlock, agents)
    | .error _ => none
  | .go, .getRelock _, agents => some (.lock, .idle, agents)
  | .go, .getUnlock, agents => some (.unlock, .idle, agents)
  | .go, .unregLock fd, agents => some (.lock, .unregSearch fd, agents)
  | .go, .unregSearch fd, agents =>
    if agents.any (·.fd = fd) then some (.plain, .delLock fd, agents)
    else some (.plain, .unregUnlock, agents)
  | .go, .delLock fd, agents => some (.lock, .delEntry fd, agents)
  | .go, .delEntry fd, agents => some (.plain, .delUnlock, routerUnregisterAgent fd agents)
  | .go, .delUnlock, agents => some (.unlock, .unregUnlock, agents)
  | .go, .unregUnlock, agents => some (.unlock, .idle, agents)

/-- A state of the router threads, as far as `agent_list` goes. -/
abbrev ListState := Mutex.State RouterThread ListPc (List AgentEntry)

/-- The router threads, from any content of the list. -/
def routerLists : Lts.System ListState (RouterThread × ListAct) :=
  Mutex.system (fun s => s.owner = none ∧ ∀ t, s.pc t = .idle) listNext

/-- The thread is about to lock. -/
def ListPc.locks : ListPc → Bool
  | .addLock _ | .getLock _ | .getRelock _ | .unregLock _ | .delLock _ => true
  | _ => false

/-- The discipline of the lock. -/
structure LockDiscipline (s : ListState) : Prop where
  /-- No thread is about to lock what it owns. -/
  no_relock : ∀ t, (s.pc t).locks = true → s.owner ≠ some t
  /-- An operation that is over has released the lock. -/
  released : ∀ t, s.pc t = .idle → s.owner ≠ some t
  /-- Without an operation under way the lock is free. -/
  free : (∀ t, s.pc t = .idle) → s.owner = none

/-- A thread at `pc` is not about to find an agent: the name it looks up is no
agent's, the socket it unregisters is no agent's. -/
def FindsNoAgent (agents : List AgentEntry) : ListPc → Prop
  | .getSearch name => ∀ fd, findAgent name agents ≠ .ok (some fd)
  | .unregSearch fd => ∀ ae ∈ agents, ae.fd ≠ fd
  | _ => True

/-! ## Who owns the lock -/

/-- Where a thread owns the lock. What is behind the `LOCK` of `list_del_entry` is
never reached. -/
def ListPc.holds : ListPc → Bool
  | .addTail _ | .addUnlock | .getSearch _ | .getRelock _ | .getUnlock | .unregSearch _
  | .unregUnlock | .delLock _ => true
  | _ => false

/-- The thread is about to lock what it owns. -/
def ListPc.relocks : ListPc → Bool
  | .getRelock _ | .delLock _ => true
  | _ => false

/-- What a step of the kind `e` does to the ownership of the lock. -/
def HoldsAfter (p p' : ListPc) : Mutex.Effect → Prop
  | .plain => p'.holds = p.holds
  | .lock => p.holds = false → p'.holds = true
  | .unlock => p.holds = true → p'.holds = false

/-- The steps of a thread: where they lock, when they lead to a second `LOCK`, and
what they do to the ownership of the lock. -/
theorem listNext_spec {t : RouterThread} {l : ListAct} {p p' : ListPc} {d d' : List AgentEntry}
    {e : Mutex.Effect} (h : listNext t l p d = some (e, p', d')) :
    (e = .lock ↔ p.locks = true) ∧ (p'.relocks = true ↔ ¬ FindsNoAgent d p) ∧
      HoldsAfter p p' e := by
  cases l with
  | call op =>
    cases p <;> simp only [listNext, reduceCtorEq] at h
    obtain ⟨-, h⟩ := Option.ite_none_right_eq_some.mp h
    obtain ⟨rfl, rfl, -⟩ : .plain = e ∧ op.start = p' ∧ d = d' := by simpa using h
    cases op <;>
      simp [ListPc.locks, ListPc.relocks, ListPc.holds, FindsNoAgent, HoldsAfter, ListOp.start]
  | go =>
    cases p with
    | idle => cases h
    | getSearch name =>
      cases hfind : findAgent name d with
      | error stop => simp [listNext, hfind] at h
      | ok found =>
        cases found <;> simp only [listNext, hfind] at h <;> cases h <;>
          simp [ListPc.locks, ListPc.relocks, ListPc.holds, FindsNoAgent, HoldsAfter, hfind]
    | unregSearch fd =>
      rw [listNext] at h
      split at h
      · rename_i hany
        obtain ⟨ae, hae, hfd⟩ : ∃ ae ∈ d, ae.fd = fd := by simpa using hany
        have hfound : ¬ ∀ ae ∈ d, ae.fd ≠ fd := fun hnone => hnone ae hae hfd
        cases h
        simpa [ListPc.locks, ListPc.relocks, ListPc.holds, FindsNoAgent, HoldsAfter] using hfound
      · rename_i hany
        have hnone : ∀ ae ∈ d, ae.fd ≠ fd := by simpa using hany
        cases h
        simpa [ListPc.locks, ListPc.relocks, ListPc.holds, FindsNoAgent, HoldsAfter] using hnone
    | _ =>
      cases h
      simp [ListPc.locks, ListPc.relocks, ListPc.holds, FindsNoAgent, HoldsAfter]

/-- The steps agree with the annotation. -/
theorem listNext_annotation : Mutex.Annotation listNext ListPc.holds := by
  constructor <;>
    · intro t l p d p' d' hnext
      exact (listNext_spec hnext).2.2

/-- The owner of the lock is where the annotation says so. -/
theorem routerLists_owner {s : ListState} (hs : Lts.Reachable routerLists s) (t : RouterThread) :
    s.owner = some t ↔ (s.pc t).holds = true := by
  refine listNext_annotation.owner_iff ?_ hs t
  intro s ⟨howner, hidle⟩
  refine ⟨howner, fun t => ?_⟩
  rw [hidle t]
  rfl

/-- The discipline is kept where no thread is about to lock what it owns. -/
theorem lockDiscipline_iff {s : ListState}
    (howner : ∀ t, s.owner = some t ↔ (s.pc t).holds = true) :
    LockDiscipline s ↔ ∀ t, (s.pc t).relocks = false := by
  constructor
  · intro h t
    cases hrelock : (s.pc t).relocks with
    | false => rfl
    | true =>
      have hboth : (s.pc t).locks = true ∧ (s.pc t).holds = true := by
        cases hpc : s.pc t <;> simp [hpc, ListPc.relocks] at hrelock <;>
          simp [ListPc.locks, ListPc.holds]
      exact absurd ((howner t).mpr hboth.2) (h.no_relock t hboth.1)
  · intro h
    have hidle : ∀ t, s.pc t = .idle → (s.pc t).holds = false := by
      intro t ht
      rw [ht]
      rfl
    constructor
    · intro t hlocks hown
      have hholds := (howner t).mp hown
      have hrelock := h t
      cases hpc : s.pc t <;>
        simp [hpc, ListPc.locks, ListPc.holds, ListPc.relocks] at hlocks hholds hrelock
    · intro t ht hown
      have hholds := (howner t).mp hown
      rw [hidle t ht] at hholds
      cases hholds
    · intro hall
      exact Mutex.owner_eq_none howner fun t => hidle t (hall t)

/-! ## Runs that find no agent -/

/-- A step that finds no agent leads no thread to a second `LOCK`. -/
theorem relocks_step {s s' : ListState} {l : RouterThread × ListAct}
    (hs : ∀ t, (s.pc t).relocks = false) (hfinds : FindsNoAgent s.data (s.pc l.1))
    (hstep : routerLists.step s l s') : ∀ t, (s'.pc t).relocks = false := by
  obtain ⟨e, p, d, owner, hnext, -, rfl⟩ := hstep
  intro t
  have hspec := (listNext_spec hnext).2.1
  by_cases ht : t = l.1
  · subst t
    dsimp only
    rw [Function.update_self]
    simpa [hfinds] using hspec
  · dsimp only
    rw [Function.update_of_ne ht]
    exact hs t

/-- A step that finds an agent leads its thread to a second `LOCK`. -/
theorem relocks_of_find {s s' : ListState} {l : RouterThread × ListAct}
    (hfinds : ¬ FindsNoAgent s.data (s.pc l.1)) (hstep : routerLists.step s l s') :
    (s'.pc l.1).relocks = true := by
  obtain ⟨e, p, d, owner, hnext, -, rfl⟩ := hstep
  dsimp only
  rw [Function.update_self]
  exact (listNext_spec hnext).2.1.mpr hfinds

/-- A thread that is about to lock what it owns waits for ever. -/
theorem relocks_run {s s' : ListState} {ls : List (RouterThread × ListAct)} {t : RouterThread}
    (howner : s.owner = some t) (hrelock : (s.pc t).relocks = true)
    (hrun : Lts.Run routerLists s ls s') :
    s'.owner = some t ∧ (s'.pc t).relocks = true := by
  refine hrun.invariant (P := fun u => u.owner = some t ∧ (u.pc t).relocks = true) ?_ ?_
  · exact ⟨howner, hrelock⟩
  · intro a l b ⟨ha, har⟩ hstep
    have hlocks : (a.pc t).locks = true := by
      cases hpc : a.pc t <;> simp [hpc, ListPc.relocks] at har <;> rfl
    obtain ⟨hb, hpc⟩ := Mutex.self_deadlock ha
      (fun l d e p d' hnext => (listNext_spec hnext).1.mpr hlocks) hstep
    exact ⟨hb, by rw [hpc]; exact har⟩

/-- **The list lock.** In a run that never finds an agent the discipline is kept in
every state. A step that finds an agent breaks it, for the rest of the run. -/
theorem list_lock_discipline (s : ListState) :
    (Lts.Reachable (Lts.restrict routerLists fun s l => FindsNoAgent s.data (s.pc l.1)) s →
      LockDiscipline s) ∧
    (Lts.Reachable routerLists s → ∀ l s', routerLists.step s l s' →
      ¬ FindsNoAgent s.data (s.pc l.1) →
      ∀ ls s'', Lts.Run routerLists s' ls s'' → ¬ LockDiscipline s'') := by
  constructor
  · intro hs
    have hrelocks : ∀ t, (s.pc t).relocks = false := by
      refine hs.invariant (P := fun u : ListState => ∀ t, (u.pc t).relocks = false) ?_ ?_
      · rintro u ⟨-, hidle⟩ t
        rw [hidle t]
        rfl
      · intro a l b ha hstep
        exact relocks_step ha hstep.1 hstep.2
    obtain ⟨u, ls, hu, hrun⟩ := hs
    have howner := routerLists_owner ⟨u, ls, hu, hrun.of_restrict⟩
    exact (lockDiscipline_iff howner).mpr hrelocks
  · intro hs l s' hstep hfinds ls s'' hrun
    have hs' : Lts.Reachable routerLists s' := hs.run (Lts.Run.single hstep)
    have hrelock := relocks_of_find hfinds hstep
    have howns : s'.owner = some l.1 := by
      apply (routerLists_owner hs' l.1).mpr
      cases hpc : s'.pc l.1 <;> simp [hpc, ListPc.relocks] at hrelock <;> rfl
    obtain ⟨-, hlast⟩ := relocks_run howns hrelock hrun
    intro hdiscipline
    have hnone := (lockDiscipline_iff (routerLists_owner (hs'.run hrun))).mp hdiscipline l.1
    rw [hlast] at hnone
    cases hnone

/-- The agent `a` on socket 5. -/
def agentA : AgentEntry := { name := some [0x61], fd := 5 }

/-- The threads before the writer looks up `a`. -/
def beforeLookup : ListState := { owner := none, pc := fun _ => .idle, data := [agentA] }

/-- The writer has found `a`. -/
def foundA : ListState :=
  { owner := some .writer, data := [agentA],
    pc := Function.update (fun _ => .idle) .writer (.getRelock 5) }

/-- The look-up of a registered agent locks a second time. -/
theorem list_lock_fails : ¬ ∀ s, Lts.Reachable routerLists s → LockDiscipline s := by
  intro h
  have hstart : routerLists.init beforeLookup := ⟨rfl, fun t => rfl⟩
  have hrun : Lts.Run routerLists beforeLookup
      [(.writer, .call (.getDesWfd [0x61, 0])), (.writer, .go), (.writer, .go)] foundA := by
    apply Lts.Run.cons (t := (⟨none, Function.update (fun _ => .idle) .writer
      (.getLock [0x61, 0]), [agentA]⟩ : ListState))
    · exact ⟨.plain, .getLock [0x61, 0], [agentA], none, rfl, rfl, rfl⟩
    apply Lts.Run.cons (t := (⟨some .writer, Function.update (fun _ => .idle) .writer
      (.getSearch [0x61, 0]), [agentA]⟩ : ListState))
    · refine ⟨.lock, .getSearch [0x61, 0], [agentA], some .writer, rfl, rfl, ?_⟩
      simp
    apply Lts.Run.single
    refine ⟨.plain, .getRelock 5, [agentA], some .writer, rfl, rfl, ?_⟩
    simp [foundA]
  have hfound := h foundA ⟨beforeLookup, _, hstart, hrun⟩
  exact hfound.no_relock .writer rfl rfl

end TsmVm
