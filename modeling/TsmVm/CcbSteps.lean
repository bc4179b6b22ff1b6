import TsmVm.SessionOrder

/-!
# What a step does to the CCBs

A step of a VM thread changes one CCB at most, the one the thread is at work on,
and of that one neither the session nor the script nor the table. The reader
adds a CCB at the end of the list. Invariants of the CCBs need no more about the
steps than these lemmas say.
-/

namespace TsmVm

/-- What a step of a VM thread may do to the CCB at a position. -/
structure CcbStep (a : VmAct) (idx : ℕ) (ccb ccb' : Ccb) : Prop where
  /-- The session stays. -/
  session_eq : ccb'.session = ccb.session
  /-- The script stays. -/
  se_eq : ccb'.se = ccb.se
  /-- The table stays. -/
  bc_eq : ccb'.bc = ccb.bc
  /-- The program counter stays, or becomes the target of a jump. -/
  pc_eq : ccb'.pc = ccb.pc ∨ ∃ c target, a = .call c (some target) ∧ c.idx = idx ∧ ccb'.pc = target
  /-- The write-back flag is never set. -/
  writeBack_eq : ccb.writeBack = false → ccb'.writeBack = false
  /-- The queue of the reply changes where the reply is made. -/
  cmdQ_eq : a = .reply ∨ ccb'.cmdQ = ccb.cmdQ

section Steps

variable {img : Image} {d d' : Dev} {th th' : VmThread} {a : VmAct}

/-- What a call does to its CCB. -/
theorem ccbStep_of_call {c : CallSite} {ccb ccb' : Ccb} {u : Unspec} {ret : ℤ} {jump : Option ℤ}
    (hcall : { c with ccb := ccb }.call u = .ok (ret, ccb'))
    (hjump : c.fn.jump u ccb c.fba (c.ce.parametersAt u.operands) = .ok jump) :
    CcbStep (.call c jump) c.idx ccb ccb' := by
  have hcmdQ : ccb'.cmdQ = ccb.cmdQ := call_cmdQ hcall
  obtain ⟨t, ht, heffect⟩ := call_effect hcall
  obtain rfl : t = jump := Except.ok.inj (ht.symm.trans hjump)
  refine ⟨heffect.session_eq, heffect.se_eq, heffect.bc_eq, ?_, ?_, .inr hcmdQ⟩
  · have hpc := heffect.pc_eq
    cases t with
    | none => exact .inl hpc
    | some target => exact .inr ⟨c, target, rfl, rfl, hpc⟩
  · intro hflag
    rw [heffect.writeBack_eq, hflag]

/-- A VM thread changes one CCB at most, the one it is at work on. -/
theorem VmStep.ccb_cases (h : VmStep img d th a d' th') : d'.ccbList = d.ccbList ∨
    ∃ idx ccb ccb', th.pc.ccb? = some idx ∧ d.ccbList[idx]? = some ccb ∧
      d'.ccbList = d.ccbList.set idx ccb' ∧ CcbStep a idx ccb ccb' := by
  cases h with
  | call hccb hcall hjump =>
    exact .inr ⟨_, _, _, rfl, hccb, rfl, ccbStep_of_call hcall hjump⟩
  | writeBack hccb hflag hskb hfba =>
    refine .inr ⟨_, _, _, rfl, hccb, rfl, ?_⟩
    exact ⟨rfl, rfl, rfl, .inl rfl, fun _ => rfl, .inr rfl⟩
  | reply hccb h =>
    refine .inr ⟨_, _, _, rfl, hccb, rfl, ?_⟩
    exact ⟨rfl, rfl, rfl, .inl rfl, id, .inl rfl⟩
  | bootstrap hccb hflag =>
    refine .inr ⟨_, _, _, rfl, hccb, rfl, ?_⟩
    exact ⟨rfl, rfl, rfl, .inl rfl, id, .inr rfl⟩
  | _ => exact .inl rfl

/-- The reader adds one CCB at most. -/
theorem ReaderStep.ccb_cases {pc pc' : ReaderPc} {a : ReaderAct} (h : ReaderStep d pc a d' pc') :
    d'.ccbList = d.ccbList ∨
      ∃ ccb, a = .createCcb ∧ ccb.Fresh ∧ d'.ccbList = d.ccbList ++ [ccb] := by
  cases h with
  | createCcb hnew hccb => exact .inr ⟨_, rfl, hccb, rfl⟩
  | _ => exact .inl rfl

variable {T : Type} [DecidableEq T] {s s' : Sys T} {l : Act T}

/-- What a step of the system does to the list of CCBs. -/
theorem SysStep.ccb_cases (h : SysStep img s l s') : s'.dev.ccbList = s.dev.ccbList ∨
    (∃ t a idx ccb ccb', l = .vm t a ∧ (s.vm t).pc.ccb? = some idx ∧
      s.dev.ccbList[idx]? = some ccb ∧ s'.dev.ccbList = s.dev.ccbList.set idx ccb' ∧
      CcbStep a idx ccb ccb') ∨
    ∃ ccb, l = .reader .createCcb ∧ ccb.Fresh ∧ s'.dev.ccbList = s.dev.ccbList ++ [ccb] := by
  cases h with
  | @vm t a d th h =>
    rcases h.ccb_cases with hsame | ⟨idx, ccb, ccb', hth, hget, hset, hstep⟩
    · exact .inl hsame
    · exact .inr (.inl ⟨t, a, idx, ccb, ccb', rfl, hth, hget, hset, hstep⟩)
  | reader h =>
    rcases h.ccb_cases with hsame | ⟨ccb, rfl, hfresh, happ⟩
    · exact .inl hsame
    · exact .inr (.inr ⟨ccb, rfl, hfresh, happ⟩)
  | writer h => exact .inl h.dev_eq.2.1

/-- A CCB stays at its position, with its session, its script and its table. -/
theorem SysStep.ccb_some (h : SysStep img s l s') {idx : ℕ} {ccb : Ccb}
    (hget : s.dev.ccbList[idx]? = some ccb) : ∃ ccb', s'.dev.ccbList[idx]? = some ccb' ∧
      ccb'.session = ccb.session ∧ ccb'.se = ccb.se ∧ ccb'.bc = ccb.bc := by
  have hlt : idx < s.dev.ccbList.length := (List.getElem?_eq_some_iff.mp hget).1
  rcases h.ccb_cases with hsame | ⟨t, a, i, old, new, -, -, hold, hset, hstep⟩ | ⟨new, -, -, happ⟩
  · exact ⟨ccb, hsame ▸ hget, rfl, rfl, rfl⟩
  · rw [hset]
    by_cases hi : i = idx
    · subst hi
      obtain rfl : old = ccb := Option.some.inj (hold.symm.trans hget)
      exact ⟨new, List.getElem?_set_self hlt, hstep.session_eq, hstep.se_eq, hstep.bc_eq⟩
    · exact ⟨ccb, by rw [List.getElem?_set_ne hi]; exact hget, rfl, rfl, rfl⟩
  · exact ⟨ccb, by rw [happ, List.getElem?_append_left hlt]; exact hget, rfl, rfl, rfl⟩

/-- What holds of new CCBs and is kept by the steps of the threads holds of every
CCB afterwards. -/
theorem SysStep.forall_ccb (h : SysStep img s l s') {P : Ccb → Prop}
    (hP : ∀ ccb ∈ s.dev.ccbList, P ccb)
    (hnew : ∀ ccb, l = .reader .createCcb → s'.dev.ccbList = s.dev.ccbList ++ [ccb] →
      ccb.Fresh → P ccb)
    (hstep : ∀ t a idx ccb ccb', l = .vm t a → (s.vm t).pc.ccb? = some idx →
      s.dev.ccbList[idx]? = some ccb → CcbStep a idx ccb ccb' → P ccb → P ccb') :
    ∀ ccb ∈ s'.dev.ccbList, P ccb := by
  intro ccb hmem
  rcases h.ccb_cases with hsame | ⟨t, a, i, old, new, hl, hth, hold, hset, hchange⟩ |
    ⟨new, hl, hfresh, happ⟩
  · exact hP ccb (hsame ▸ hmem)
  · rw [hset] at hmem
    obtain hmem | rfl := List.mem_or_eq_of_mem_set hmem
    · exact hP ccb hmem
    · exact hstep t a i old ccb hl hth hold hchange (hP old (List.mem_of_getElem? hold))
  · rw [happ] at hmem
    obtain hmem | hmem := List.mem_append.mp hmem
    · exact hP ccb hmem
    · obtain rfl := List.mem_singleton.mp hmem
      exact hnew ccb hl happ hfresh

end Steps

end TsmVm
