import TsmVm.FmList
import TsmVm.SessionStart

/-!
# The registry of agents (`router_register_agent`, `router_unregister_agent`)

Agents register under a name with the socket their message came in on. A look-up takes the
first entry of the name, and a disconnection removes the first entry of the socket. A
registration is to link its entry in at the end of the list, but `list_add_entry` is given
the links of the entry where it takes their address: what arrives is the first word of an
entry that was just cleared. So the reader stops with the first registration there is.
-/

namespace TsmVm

/-- A message that registers an agent, with the socket it came in on. -/
structure Registration where
  /-- The socket. -/
  fd : ℕ
  /-- The entries of the message. -/
  tlv : List RouterTlvEntry
  /-- The entry with the name. -/
  node : RouterTlvEntry
  /-- It is the first one of its kind. -/
  find_eq : tlv.find? (·.tag = tagAgName) = some node
  /-- The address of the entry that is allocated for the agent. -/
  addr : ℕ
  /-- There is memory for it. -/
  addr_ne_zero : addr ≠ 0

/-- The name, a C string. -/
def Registration.name (r : Registration) : List UInt8 := r.node.val.takeWhile (· ≠ 0)

/-- What happens to the agents. -/
inductive AgentOp
  /-- A connection is accepted. -/
  | connect (fd : ℕ)
  /-- An agent registers. -/
  | register (r : Registration)
  /-- A connection ends. -/
  | disconnect (fd : ℕ)

/-- `agent_list`: the links there are in memory, and the agents, in the order in which they
are linked, with the addresses of their entries. -/
structure AgentList where
  links : Links
  agents : List (ℕ × AgentEntry)

/-- The address of `agent_list.head`. -/
def agentListHead : ℕ := 1

/-- The list the router starts with: its head is linked to itself. -/
def AgentList.start : AgentList :=
  { links := Function.update (fun _ => none) agentListHead (some ⟨agentListHead, agentListHead⟩),
    agents := [] }

/-- `router_register_agent`, and `list_add_entry(&router->agent_list,ae->entry)`. There is
no prototype and the links of the entry go by value, so the first of them, `next`, is taken
for their address. -/
def AgentList.register (l : AgentList) (r : Registration) : Res AgentList := do
  -- `fm_calloc` clears the entry
  let links := Function.update l.links r.addr (some ⟨0, 0⟩)
  let next ← nextOf links r.addr
  let links ← listAddTail links next agentListHead
  return { links := links, agents := l.agents ++ [(r.addr, routerRegisterAgent r.fd r.tlv)] }

/-- `router_unregister_agent`: the first entry of the socket is unlinked and freed. -/
def AgentList.unregister (l : AgentList) (fd : ℤ) : Res AgentList :=
  match l.agents.find? (·.2.fd = fd) with
  | none => .ok l
  | some entry => do
    let links ← listDel l.links entry.1
    return { links := Function.update links entry.1 none,
             agents := l.agents.eraseP (·.2.fd = fd) }

/-- What the reader does to `agent_list`. -/
def agentListStep (l : AgentList) : AgentOp → Res AgentList
  | .connect _ => .ok l
  | .register r => l.register r
  | .disconnect fd => l.unregister fd

/-- `agent_list` after some operations. -/
def agentList (ops : List AgentOp) : Res AgentList := ops.foldlM agentListStep .start

/-- The registrations in force after one more operation: those whose socket has not been
unregistered since. -/
def inForceStep (l : List (List UInt8 × ℕ)) : AgentOp → List (List UInt8 × ℕ)
  | .connect _ => l
  | .register r => l ++ [(r.name, r.fd)]
  | .disconnect fd => l.filter (·.2 ≠ fd)

/-- The registrations in force, oldest first. -/
def registrationsInForce (ops : List AgentOp) : List (List UInt8 × ℕ) := ops.foldl inForceStep []

/-- The socket of the last registration of a name. -/
def lastSocket (l : List (List UInt8 × ℕ)) (name : List UInt8) : Option ℕ :=
  (l.reverse.find? (·.1 = name)).map Prod.snd

/-- Every agent in the list is registered, and every look-up returns the socket of the last
registration in force. -/
structure RegistryRight (ops : List AgentOp) (l : AgentList) : Prop where
  /-- No entry is left of a socket that was unregistered and not registered again. -/
  in_force : ∀ entry ∈ l.agents, ∃ r ∈ registrationsInForce ops, entry.2.fd = r.2
  /-- The look-up of a name, with the list lock always obtainable. -/
  routed : ∀ (mem name : List UInt8) (held : Bool), cString mem = .ok name →
    ∃ held', routerGetDesWfd true held mem (l.agents.map Prod.snd) =
      .ok (((lastSocket (registrationsInForce ops) name).map Nat.cast).getD (-1), held')

/-- The reader comes to the end of the operations, with the registry as it should be. -/
def KeepsRegistry (ops : List AgentOp) : Prop :=
  ∃ l, agentList ops = .ok l ∧ RegistryRight ops l

/-- What is read is there. -/
theorem live_of_readLinks {m : Links} {a : ℕ} {c : Rings.Cell ℕ} (h : readLinks m a = .ok c) :
    Rings.Live m a := by
  unfold readLinks at h
  unfold Rings.Live
  cases hm : m a with
  | none =>
    rw [hm] at h
    cases h
  | some c => rfl

/-- `list_add_tail` stores to the links of what it adds, and there are none at `NULL`. -/
theorem listAddTail_null_ne_ok {m m' : Links} {head : ℕ} (h : m 0 = none) :
    listAddTail m 0 head ≠ .ok m' := by
  intro hadd
  obtain ⟨prev, -, hadd⟩ := bind_eq_ok.mp hadd
  obtain ⟨m₁, hprev, hadd⟩ := bind_eq_ok.mp hadd
  obtain ⟨m₂, hnext, -⟩ := bind_eq_ok.mp hadd
  -- the store to the head before that makes no links at `NULL`
  obtain ⟨c, hc, -⟩ := bind_eq_ok.mp hnext
  obtain ⟨-, -, hm₁⟩ := bind_eq_ok.mp hprev
  have hlive := live_of_readLinks hc
  rw [← Except.ok.inj hm₁, Rings.live_setPrev, Rings.Live, h] at hlive
  cases hlive

/-- A registration stops the reader. -/
theorem AgentList.register_ne_ok {l l' : AgentList} (h : l.links 0 = none) (r : Registration) :
    l.register r ≠ .ok l' := by
  intro hrun
  obtain ⟨next, hnext, hrun⟩ := bind_eq_ok.mp hrun
  obtain ⟨links, hadd, -⟩ := bind_eq_ok.mp hrun
  obtain rfl : 0 = next := by simpa [nextOf, readLinks] using hnext
  have hnull : Function.update l.links r.addr (some ⟨0, 0⟩) 0 = none := by
    rw [Function.update_of_ne r.addr_ne_zero.symm, h]
  exact listAddTail_null_ne_ok hnull hadd

/-- Up to the first registration the list is as it was at the start. -/
theorem agentList_of_not_register {ops : List AgentOp} (h : ∀ r, .register r ∉ ops) :
    agentList ops = .ok .start ∧ registrationsInForce ops = [] := by
  unfold agentList registrationsInForce
  induction ops with
  | nil => exact ⟨rfl, rfl⟩
  | cons op ops ih =>
    have hrest := ih fun r hr => h r (List.mem_cons_of_mem op hr)
    cases op with
    | connect fd => exact hrest
    | register r => exact (h r List.mem_cons_self).elim
    | disconnect fd => exact hrest

/-- The reader is not stopped where nothing is registered. -/
theorem not_register_of_agentList {ops : List AgentOp} {l : AgentList}
    (h : agentList ops = .ok l) (r : Registration) : .register r ∉ ops := by
  unfold agentList at h
  induction ops with
  | nil => exact List.not_mem_nil
  | cons op ops ih =>
    rw [List.foldlM_cons] at h
    obtain ⟨l₁, hstep, hrest⟩ := bind_eq_ok.mp h
    cases op with
    | connect fd =>
      obtain rfl := Except.ok.inj hstep
      simpa using ih hrest
    | register r' => exact (AgentList.register_ne_ok rfl r' hstep).elim
    | disconnect fd =>
      obtain rfl := Except.ok.inj hstep
      simpa using ih hrest

/-- **The registry.** It is kept all along a history exactly where nothing is registered:
the first registration stops the reader. -/
theorem registry_right_iff (ops : List AgentOp) :
    (∀ p, p <+: ops → KeepsRegistry p) ↔ ∀ r, .register r ∉ ops := by
  constructor
  · intro h
    obtain ⟨l, hl, -⟩ := h ops List.prefix_rfl
    exact not_register_of_agentList hl
  · intro h p hp
    obtain ⟨hlist, hforce⟩ := agentList_of_not_register fun r hr => h r (hp.subset hr)
    refine ⟨.start, hlist, ?_, ?_⟩
    · intro entry hentry
      cases hentry
    · intro mem name held hmem
      refine ⟨false, ?_⟩
      rw [hforce]
      simp [routerGetDesWfd, mutexLock, AgentList.start, findAgent, lastSocket]

/-- A registration with one entry, the name `a`. -/
def registerA (fd : ℕ) : Registration :=
  { fd := fd, tlv := [{ tag := tagAgName, val := [0x61], len := 1 }],
    node := { tag := tagAgName, val := [0x61], len := 1 }, find_eq := rfl, addr := 2,
    addr_ne_zero := by decide }

/-- An agent registers as `a`; the reader stops. -/
theorem registry_fails : ¬ ∀ ops : List AgentOp, KeepsRegistry ops := by
  intro h
  obtain ⟨l, hl, -⟩ := h [.connect 5, .register (registerA 5)]
  exact not_register_of_agentList hl (registerA 5) (by simp)

end TsmVm
