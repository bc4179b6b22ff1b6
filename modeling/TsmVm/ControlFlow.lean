import TsmVm.Sequencing
import TsmVm.CcbSteps

/-!
# The program a session executes

The threads fetch and call without a lock between the two, so a session's entries may be
called out of turn. What is called is still an entry of the program the session was created
with, for a message of that session, and it was fetched at the start of the script or where
an earlier call of the same session has jumped to.
-/

namespace TsmVm

section Programs

variable {T : Type} {ls ls' : List (Act T)} {idx : ℕ} {addr : ℤ} {img : Image}

/-- Where the session at a position may stand: at the start, or where one of its calls has
jumped to. -/
def Entered (idx : ℕ) (ls : List (Act T)) (addr : ℤ) : Prop :=
  addr = 0 ∨ ∃ t c, c.idx = idx ∧ Act.vm t (.call c (some addr)) ∈ ls

theorem Entered.mono (h : Entered idx ls addr) (hsub : ls ⊆ ls') : Entered idx ls' addr := by
  obtain rfl | ⟨t, c, hc, hmem⟩ := h
  · exact .inl rfl
  · exact .inr ⟨t, c, hc, hsub hmem⟩

/-- Two CCBs of one session with one program. -/
structure Ccb.SameProgram (ccb ccb' : Ccb) : Prop where
  /-- The session. -/
  session_eq : ccb'.session = ccb.session
  /-- The script. -/
  se_eq : ccb'.se = ccb.se
  /-- The table of bytecodes. -/
  bc_eq : ccb'.bc = ccb.bc

theorem Ccb.SameProgram.symm {ccb ccb' : Ccb} (h : ccb.SameProgram ccb') :
    ccb'.SameProgram ccb :=
  ⟨h.session_eq.symm, h.se_eq.symm, h.bc_eq.symm⟩

/-- A call that the program of a CCB accounts for, after these actions. -/
structure CallSite.OfProgram (c : CallSite) (img : Image) (ls : List (Act T)) (ccb : Ccb) :
    Prop where
  /-- The message is one of the session. -/
  session_eq : c.skb.session = ccb.session
  /-- The script was there. -/
  entered : Entered c.idx ls c.ccb.pc
  /-- The entry is the one of the script. -/
  entry : tsmVmFetchEntry { ccb with pc := c.ccb.pc } = .ok c.ce
  /-- The bytecode is the one of the table. -/
  bytecode : tsmVmFetchBytecode img ccb c.ce = .ok c.fn

/-- More actions account for no less, and what of the CCB changes does not matter. -/
theorem CallSite.OfProgram.mono {c : CallSite} {ccb ccb' : Ccb} (h : c.OfProgram img ls ccb)
    (hsub : ls ⊆ ls') (hsame : ccb.SameProgram ccb') : c.OfProgram img ls' ccb' := by
  refine ⟨?_, h.entered.mono hsub, ?_, ?_⟩
  · rw [hsame.session_eq]
    exact h.session_eq
  · rw [← h.entry]
    simp only [tsmVmFetchEntry, hsame.se_eq]
  · rw [← h.bytecode]
    simp only [tsmVmFetchBytecode, hsame.bc_eq]

/-- A thread that has found its CCB, or fetched an entry, has what the program says. -/
def VmPc.OfProgram (img : Image) (ls : List (Act T)) (d : Dev) : VmPc → Prop
  | .fetchEntry skb idx => ∃ ccb, d.ccbList[idx]? = some ccb ∧ skb.session = ccb.session
  | .call c => ∃ ccb, d.ccbList[c.idx]? = some ccb ∧ c.OfProgram img ls ccb
  | _ => True

/-- What holds after a run. -/
structure FlowInv (img : Image) (ls : List (Act T)) (s : Sys T) : Prop where
  /-- Every session stands where it may. -/
  pcs : ∀ idx ccb, s.dev.ccbList[idx]? = some ccb → Entered idx ls ccb.pc
  /-- Every thread has what the program says. -/
  threads : ∀ t, (s.vm t).pc.OfProgram img ls s.dev
  /-- Every call was one of the program. -/
  calls : ∀ front t c jump, front ++ [Act.vm t (.call c jump)] <+: ls →
    ∃ ccb, s.dev.ccbList[c.idx]? = some ccb ∧ c.OfProgram img front ccb

/-- A thread gets its CCB by the session of its message, and its entry at the program
counter. -/
theorem VmStep.ofProgram {d d' : Dev} {th th' : VmThread} {a : VmAct}
    (h : VmStep img d th a d' th') (hpcs : ∀ idx ccb, d.ccbList[idx]? = some ccb →
      Entered idx ls ccb.pc) (hth : th.pc.OfProgram img ls d) :
    th'.pc.OfProgram img ls d := by
  cases h with
  | @fetchCcb fba skb idx hfetch =>
    obtain ⟨hlt, hfound, -⟩ := List.findIdx?_eq_some_iff_getElem.mp hfetch
    exact ⟨d.ccbList[idx], List.getElem?_eq_getElem hlt, (beq_iff_eq.mp hfound).symm⟩
  | @fetchEntry fba skb idx ccb ce fn hccb hce hfn =>
    obtain ⟨ccb', hget, hsession⟩ := hth
    obtain rfl : ccb = ccb' := Option.some.inj (hccb.symm.trans hget)
    exact ⟨ccb, hccb, hsession, hpcs idx ccb hccb, hce, hfn⟩
  | _ => trivial

variable [DecidableEq T] {s s' : Sys T} {l : Act T}

/-- A session keeps its program. -/
theorem SysStep.sameProgram (h : SysStep img s l s') {ccb : Ccb}
    (hget : s.dev.ccbList[idx]? = some ccb) :
    ∃ ccb', s'.dev.ccbList[idx]? = some ccb' ∧ ccb.SameProgram ccb' := by
  obtain ⟨ccb', hget', hsession, hse, hbc⟩ := h.ccb_some hget
  exact ⟨ccb', hget', hsession, hse, hbc⟩

/-- So it does over a run. -/
theorem sameProgram_of_run (h : Lts.Run (tsmSystem img T) s ls s') {ccb : Ccb}
    (hget : s.dev.ccbList[idx]? = some ccb) :
    ∃ ccb', s'.dev.ccbList[idx]? = some ccb' ∧ ccb.SameProgram ccb' := by
  induction h with
  | nil => exact ⟨ccb, hget, rfl, rfl, rfl⟩
  | snoc _ hstep ih =>
    obtain ⟨mid, hmid, hsame⟩ := ih
    obtain ⟨last, hlast, hsame'⟩ := SysStep.sameProgram hstep hmid
    exact ⟨last, hlast, hsame'.session_eq.trans hsame.session_eq,
      hsame'.se_eq.trans hsame.se_eq, hsame'.bc_eq.trans hsame.bc_eq⟩

/-- What a thread has stays what the program says, whoever moves. -/
theorem VmPc.OfProgram.step (h : SysStep img s l s') {pc : VmPc}
    (hpc : pc.OfProgram img ls s.dev) : pc.OfProgram img (ls ++ [l]) s'.dev := by
  cases pc with
  | fetchEntry skb idx =>
    obtain ⟨ccb, hget, hsession⟩ := hpc
    obtain ⟨ccb', hget', hsame⟩ := h.sameProgram hget
    exact ⟨ccb', hget', hsession.trans hsame.session_eq.symm⟩
  | call c =>
    obtain ⟨ccb, hget, hcall⟩ := hpc
    obtain ⟨ccb', hget', hsame⟩ := h.sameProgram hget
    exact ⟨ccb', hget', hcall.mono (List.subset_append_left ls [l]) hsame⟩
  | _ => trivial

/-- A session stands where it stood, or where its call has jumped to. -/
theorem FlowInv.pcs_step (hinv : FlowInv img ls s) (h : SysStep img s l s') :
    ∀ idx ccb, s'.dev.ccbList[idx]? = some ccb → Entered idx (ls ++ [l]) ccb.pc := by
  have hsub : ls ⊆ ls ++ [l] := List.subset_append_left ls [l]
  intro idx ccb hget
  rcases h.ccb_cases with hsame | ⟨t, a, i, old, new, rfl, -, hold, hset, hstep⟩ |
    ⟨new, -, hfresh, happ⟩
  · exact (hinv.pcs idx ccb (hsame ▸ hget)).mono hsub
  · rw [hset] at hget
    by_cases hi : i = idx
    · subst hi
      have hlt : i < s.dev.ccbList.length := (List.getElem?_eq_some_iff.mp hold).1
      rw [List.getElem?_set_self hlt] at hget
      obtain rfl := Option.some.inj hget
      rcases hstep.pc_eq with hpc | ⟨c, target, rfl, hc, hpc⟩
      · rw [hpc]
        exact (hinv.pcs i old hold).mono hsub
      · rw [hpc]
        exact .inr ⟨t, c, hc, List.mem_append_right ls (List.mem_singleton_self _)⟩
    · rw [List.getElem?_set_ne hi] at hget
      exact (hinv.pcs idx ccb hget).mono hsub
  · rw [happ] at hget
    by_cases hlt : idx < s.dev.ccbList.length
    · rw [List.getElem?_append_left hlt] at hget
      exact (hinv.pcs idx ccb hget).mono hsub
    · rw [List.getElem?_append_right (by omega)] at hget
      obtain rfl := List.mem_singleton.mp (List.mem_of_getElem? hget)
      exact .inl hfresh.pc_eq

/-- A call is for what its thread has fetched. -/
theorem FlowInv.calls_step (hinv : FlowInv img ls s) (h : SysStep img s l s')
    (front : List (Act T)) (t : T) (c : CallSite) (jump : Option ℤ)
    (hcalled : front ++ [Act.vm t (.call c jump)] <+: ls ++ [l]) :
    ∃ ccb, s'.dev.ccbList[c.idx]? = some ccb ∧ c.OfProgram img front ccb := by
  obtain ⟨ccb, hget, hcall⟩ : ∃ ccb, s.dev.ccbList[c.idx]? = some ccb ∧
      c.OfProgram img front ccb := by
    rcases List.prefix_concat_iff.mp hcalled with heq | hbefore
    · obtain ⟨rfl, hl⟩ := List.append_inj' heq rfl
      obtain rfl : Act.vm t (.call c jump) = l := List.singleton_inj.mp hl
      cases h with
      | vm hvm =>
        have hpc : (s.vm t).pc.OfProgram img front s.dev := hinv.threads t
        rw [hvm.pc_before_call.1] at hpc
        exact hpc
    · exact hinv.calls front t c jump hbefore
  obtain ⟨ccb', hget', hsame⟩ := h.sameProgram hget
  exact ⟨ccb', hget', hcall.mono (List.Subset.refl front) hsame⟩

/-- Every step keeps the invariant. -/
theorem FlowInv.step (hinv : FlowInv img ls s) (h : SysStep img s l s') :
    FlowInv img (ls ++ [l]) s' := by
  refine ⟨hinv.pcs_step h, fun t' => ?_, hinv.calls_step h⟩
  have hstep := h
  cases h with
  | @vm t a d th hvm =>
    by_cases ht : t' = t
    · subst ht
      have hth : (Function.update s.vm t' th t').pc.OfProgram img ls s.dev := by
        rw [Function.update_self]
        exact hvm.ofProgram hinv.pcs (hinv.threads t')
      exact VmPc.OfProgram.step hstep hth
    · have hth : (Function.update s.vm t th t').pc.OfProgram img ls s.dev := by
        rw [Function.update_of_ne ht]
        exact hinv.threads t'
      exact VmPc.OfProgram.step hstep hth
  | reader | writer => exact VmPc.OfProgram.step hstep (hinv.threads t')

/-- Every run has it. -/
theorem flowInv_of_run (h : Lts.Run (tsmSystem img T) .start ls s) : FlowInv img ls s := by
  induction h with
  | nil =>
    refine ⟨fun idx ccb hget => ?_, fun _ => trivial, fun front t c jump hcalled => ?_⟩
    · cases hget
    · have hnil := List.prefix_nil.mp hcalled
      simp at hnil
  | snoc _ hstep ih => exact ih.step hstep

/-- **Control flow.** In every run, with any number of threads and in any order of their
steps, each call is one of the program that its session has at any time of the run: the
message is one of the session, the entry stands in the script at the address it was fetched
at, the bytecode is the one the table has for the entry, and the address is the first one
or the target of a jump that an earlier call of the same session has taken. -/
theorem control_flow_intact {later : List (Act T)} {u : Sys T}
    (h : Lts.Run (tsmSystem img T) .start ls s) (hlater : Lts.Run (tsmSystem img T) s later u)
    {front : List (Act T)} {t : T} {c : CallSite} {jump : Option ℤ}
    (hcall : front ++ [Act.vm t (.call c jump)] <+: ls ++ later) :
    (front ++ [Act.vm t (.call c jump)] <+: ls → ∃ ccb, s.dev.ccbList[c.idx]? = some ccb) ∧
      ∀ ccb, s.dev.ccbList[c.idx]? = some ccb → c.OfProgram img front ccb := by
  refine ⟨fun hbefore => ?_, fun ccb hget => ?_⟩
  · obtain ⟨ccb, hget, -⟩ := (flowInv_of_run h).calls front t c jump hbefore
    exact ⟨ccb, hget⟩
  · obtain ⟨last, hlast, hprogram⟩ :=
      (flowInv_of_run (h.append hlater)).calls front t c jump hcall
    obtain ⟨ccb', hget', hsame⟩ := sameProgram_of_run hlater hget
    obtain rfl : last = ccb' := Option.some.inj (hlast.symm.trans hget')
    exact hprogram.mono (List.Subset.refl front) hsame.symm

end Programs

/-- A call among the actions of a run that has made a dispatch. -/
theorem exists_call_of_dispatches {T : Type} {ls : List (Act T)} {e : Dispatch} {idx : ℕ}
    (h : e ∈ dispatches idx ls) : ∃ front t c jump, c.idx = idx ∧
      front ++ [Act.vm t (.call c jump)] <+: ls := by
  obtain ⟨l, hmem, hl⟩ := List.mem_filterMap.mp h
  obtain ⟨front, back, rfl⟩ := List.append_of_mem hmem
  cases l with
  | vm t a =>
    cases a with
    | call c jump =>
      by_cases hc : c.idx = idx
      · exact ⟨front, t, c, jump, hc, back, by simp⟩
      · simp [Act.dispatch?, hc] at hl
    | _ => cases hl
  | _ => cases hl

/-- Two packages for a session of plain entries: the first call, among others. -/
theorem control_flow_intact_dataSet : ∃ (ls : List (Act Unit)) (s : Sys Unit)
    (front : List (Act Unit)) (c : CallSite) (ccb : Ccb),
    s.dev.ccbList[0]? = some ccb ∧ (∃ jump, front ++ [Act.vm () (.call c jump)] <+: ls) ∧
      c.OfProgram (plainImage .dataSet) front ccb := by
  obtain ⟨ls, s, hrun, hls⟩ := run_dataSet_twice
  have hfirst : (⟨0, none⟩ : Dispatch) ∈ dispatches 0 ls := by
    rw [hls]
    exact List.mem_cons_self
  obtain ⟨front, t, c, jump, hidx, hcall⟩ := exists_call_of_dispatches hfirst
  have hflow := control_flow_intact hrun .nil (by rw [List.append_nil]; exact hcall)
  obtain ⟨ccb, hget⟩ := hflow.1 hcall
  exact ⟨ls, s, front, c, ccb, hidx ▸ hget, ⟨jump, hcall⟩, hflow.2 ccb hget⟩

end TsmVm
