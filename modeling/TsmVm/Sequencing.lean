import TsmVm.Concurrent
import TsmVm.Lib.Families
import Mathlib.Data.List.Chain

/-!
# The order in which a script is executed

A reference interpreter goes on at the target of a jump and otherwise at the
next entry. The VM has no code that moves the program counter by itself: behind
a bytecode that does not jump it stands where it stood. The law that does hold
is proved for every run in which the dispatches for one CCB do not overlap.
-/

namespace TsmVm

/-- One execution of an entry for a CCB. -/
structure Dispatch where
  /-- The address of the entry, which is the program counter at its fetch. -/
  addr : ℤ
  /-- The address the bytecode passed to `ccb_set_PC`, if it did. -/
  jump : Option ℤ

/-- Where a script goes on: at the target of the jump or at the next entry. -/
def Dispatch.next (e : Dispatch) : ℤ := e.jump.getD (e.addr + 1)

/-- Where the VM goes on: at the target of the jump or at the same entry. -/
def Dispatch.pcAfter (e : Dispatch) : ℤ := e.jump.getD e.addr

/-- Every dispatch is followed by the one the script asks for. -/
def Sequenced (es : List Dispatch) : Prop := es.IsChain fun e f => f.addr = e.next

/-- Every dispatch is followed by the one the program counter points to. -/
def FollowsPc (es : List Dispatch) : Prop := es.IsChain fun e f => f.addr = e.pcAfter

/-- The addresses are 0, 1, 2 and so on. -/
def InOrder (es : List Dispatch) : Prop := ∀ i (hi : i < es.length), es[i].addr = i

/-- Where the VM stands after these dispatches of a fresh CCB. -/
def pcAfterAll (es : List Dispatch) : ℤ := (es.getLast?.map Dispatch.pcAfter).getD 0

@[simp] theorem pcAfterAll_concat (es : List Dispatch) (e : Dispatch) :
    pcAfterAll (es ++ [e]) = e.pcAfter := by
  simp [pcAfterAll]

/-- A dispatch at the program counter continues the list. -/
theorem FollowsPc.concat {es : List Dispatch} {e : Dispatch} (h : FollowsPc es)
    (he : e.addr = pcAfterAll es) : FollowsPc (es ++ [e]) := by
  refine List.isChain_append.mpr ⟨h, List.isChain_singleton e, ?_⟩
  intro f hf g hg
  obtain rfl : e = g := by simpa using hg
  rw [he, pcAfterAll, Option.mem_def.mp hf]
  rfl

/-- The law of the script holds of the VM exactly where the VM jumps. -/
theorem FollowsPc.sequenced_iff {es : List Dispatch} (h : FollowsPc es) :
    Sequenced es ↔ ∀ e ∈ es.dropLast, e.jump.isSome := by
  induction es with
  | nil => simp [Sequenced]
  | cons e es ih =>
    cases es with
    | nil => simp [Sequenced]
    | cons f es =>
      obtain ⟨hpc, htail⟩ := List.isChain_cons_cons.mp h
      have hlink : f.addr = e.next ↔ e.jump.isSome := by
        rw [hpc]
        cases hjump : e.jump with
        | none => simp [Dispatch.pcAfter, Dispatch.next, hjump]
        | some t => simp [Dispatch.pcAfter, Dispatch.next, hjump]
      rw [Sequenced, List.isChain_cons_cons, hlink, List.dropLast_cons_cons, List.forall_mem_cons]
      exact and_congr_right fun _ => ih htail

/-- Without jumps the VM never leaves the entry it starts at. -/
theorem FollowsPc.addr_eq_of_jumpFree {es : List Dispatch} (h : FollowsPc es)
    (hfree : ∀ e ∈ es, e.jump = none) {first : ℤ} (hfirst : ∀ e ∈ es.head?, e.addr = first) :
    ∀ e ∈ es, e.addr = first := by
  induction es with
  | nil => simp
  | cons e es ih =>
    have he : e.addr = first := hfirst e rfl
    have hstay : e.pcAfter = e.addr := by simp [Dispatch.pcAfter, hfree e (by simp)]
    have htail : ∀ f ∈ es.head?, f.addr = first := by
      intro f hf
      rw [(List.isChain_cons.mp h).1 f hf, hstay, he]
    refine List.forall_mem_cons.mpr ⟨he, ?_⟩
    exact ih (List.isChain_cons.mp h).2 (fun f hf => hfree f (List.mem_cons_of_mem _ hf)) htail

/-- So a script without jumps is in order only up to its first dispatch. -/
theorem FollowsPc.inOrder_iff_of_jumpFree {es : List Dispatch} (h : FollowsPc es)
    (hfree : ∀ e ∈ es, e.jump = none) (hfirst : ∀ e ∈ es.head?, e.addr = 0) :
    InOrder es ↔ es.length ≤ 1 := by
  have hzero := h.addr_eq_of_jumpFree hfree hfirst
  constructor
  · intro horder
    by_contra hlen
    have hone := horder 1 (by omega)
    rw [hzero _ (List.getElem_mem _)] at hone
    simp at hone
  · intro hlen i hi
    rw [hzero _ (List.getElem_mem _)]
    omega

section Runs

variable {T : Type} [DecidableEq T] {img : Image}

/-- The dispatch an action performs for the CCB at a position. -/
def Act.dispatch? (idx : ℕ) : Act T → Option Dispatch
  | .vm _ (.call c jump) => if c.idx = idx then some ⟨c.ccb.pc, jump⟩ else none
  | _ => none

/-- The dispatches for the CCB at a position, in the order they were made. -/
def dispatches (idx : ℕ) (ls : List (Act T)) : List Dispatch := ls.filterMap (Act.dispatch? idx)

/-- The CCB an entry has been fetched for that is still to be called. -/
def VmPc.fetched : VmPc → Option ℕ
  | .call c => some c.idx
  | _ => none

/-- An entry is fetched for a CCB only when no other thread has one at hand that
it has fetched for the same CCB and not called yet. -/
def Serial (s : Sys T) : Act T → Prop
  | .vm t (.fetchEntry idx) => ∀ t', t' ≠ t → (s.vm t').pc.fetched ≠ some idx
  | _ => True

/-- The program counter of the CCB at a position. -/
def Dev.pc (d : Dev) (idx : ℕ) : Option ℤ := d.ccbList[idx]?.map Ccb.pc

/-- Only a call changes the program counter of a CCB. -/
theorem VmStep.pc_eq {d d' : Dev} {th th' : VmThread} {a : VmAct} (h : VmStep img d th a d' th')
    {idx : ℕ} (ha : ∀ c jump, a = .call c jump → c.idx ≠ idx) : d'.pc idx = d.pc idx := by
  cases h with
  | @call _ c _ ccb' u ret jump hccb hcall hjump =>
    have hne := ha c jump rfl
    simp only [Dev.pc, Dev.setCcb, List.getElem?_set_ne hne]
  | writeBack hccb hflag hskb hfba => exact Dev.setCcb_map_of_eq hccb (by rfl) idx
  | reply hccb h => exact Dev.setCcb_map_of_eq hccb (by rfl) idx
  | bootstrap hccb hflag => exact Dev.setCcb_map_of_eq hccb (by rfl) idx
  | _ => rfl

/-- A call sets the program counter of its CCB to the target of its jump. -/
theorem VmStep.pc_of_call {d d' : Dev} {th th' : VmThread} {c : CallSite} {jump : Option ℤ}
    (h : VmStep img d th (.call c jump) d' th') :
    ∃ pc, d.pc c.idx = some pc ∧ d'.pc c.idx = some (jump.getD pc) := by
  cases h with
  | @call _ _ ccb ccb' u ret _ hccb hcall hjump =>
    refine ⟨ccb.pc, by simp [Dev.pc, hccb], ?_⟩
    obtain ⟨t, ht, heffect⟩ := call_effect hcall
    obtain rfl : t = jump := Except.ok.inj (ht.symm.trans hjump)
    have hlen : c.idx < d.ccbList.length := (List.getElem?_eq_some_iff.mp hccb).1
    simp [Dev.pc, Dev.setCcb, hlen, heffect.pc_eq]

/-- A thread that calls stood before the call. -/
theorem VmStep.pc_before_call {d d' : Dev} {th th' : VmThread} {c : CallSite} {jump : Option ℤ}
    (h : VmStep img d th (.call c jump) d' th') : th.pc = .call c ∧ th'.pc.fetched = none := by
  cases h
  exact ⟨rfl, rfl⟩

/-- A thread that stands before a call has just fetched the entry. -/
theorem VmStep.fetched {d d' : Dev} {th th' : VmThread} {a : VmAct} (h : VmStep img d th a d' th')
    {c : CallSite} (hpc : th'.pc = .call c) :
    a = .fetchEntry c.idx ∧ d.pc c.idx = some c.ccb.pc := by
  cases h with
  | fetchEntry hccb hce hfn =>
    simp only [VmPc.call.injEq] at hpc
    subst hpc
    exact ⟨rfl, by simp [Dev.pc, hccb]⟩
  | _ => cases hpc

/-- The reader changes no program counter; a CCB it creates starts at zero. -/
theorem ReaderStep.pc_eq {d d' : Dev} {pc pc' : ReaderPc} {a : ReaderAct}
    (h : ReaderStep d pc a d' pc') (idx : ℕ) :
    d'.pc idx = d.pc idx ∨ d.pc idx = none ∧ d'.pc idx = some 0 := by
  cases h with
  | createCcb hnew hccb =>
    rcases lt_trichotomy idx d.ccbList.length with hlt | heq | hgt
    · exact .inl (by simp only [Dev.pc, List.getElem?_append_left hlt])
    · subst heq
      exact .inr ⟨by simp [Dev.pc], by simp [Dev.pc, hccb.pc_eq]⟩
    · refine .inl ?_
      have hnew : d.ccbList.length + 1 ≤ idx := hgt
      simp only [Dev.pc]
      rw [List.getElem?_eq_none (by simpa using hnew), List.getElem?_eq_none (by omega)]
  | _ => exact .inl rfl

/-- What holds between the dispatches for one CCB and the state they lead to. -/
structure SequencingInv (idx : ℕ) (es : List Dispatch) (s : Sys T) : Prop where
  /-- The dispatches follow the program counter. -/
  follows : FollowsPc es
  /-- The first dispatch is at the start of the script. -/
  first : ∀ e ∈ es.head?, e.addr = 0
  /-- The program counter stands where the last dispatch left it. -/
  pc_eq : s.dev.pc idx = none ∧ es = [] ∨ s.dev.pc idx = some (pcAfterAll es)
  /-- An entry at hand was fetched at the program counter. -/
  fetched : ∀ t c, (s.vm t).pc = .call c → c.idx = idx → c.ccb.pc = pcAfterAll es
  /-- At most one thread has an entry at hand. -/
  alone : ∀ t t', (s.vm t).pc.fetched = some idx → (s.vm t').pc.fetched = some idx → t = t'

/-- The entry at hand before a call. -/
theorem VmPc.fetched_call {pc : VmPc} {c : CallSite} (h : pc = .call c) :
    pc.fetched = some c.idx := by
  rw [h, VmPc.fetched]

/-- A thread with an entry at hand stands before its call. -/
theorem VmPc.call_of_fetched {pc : VmPc} {idx : ℕ} (h : pc.fetched = some idx) :
    ∃ c, pc = .call c ∧ c.idx = idx := by
  cases pc with
  | call c => exact ⟨c, rfl, Option.some.inj h⟩
  | _ => simp [VmPc.fetched] at h

/-- A call for the CCB adds its dispatch. -/
theorem SequencingInv.call {es : List Dispatch} {s : Sys T} {t : T} {c : CallSite}
    {jump : Option ℤ} {d : Dev} {th : VmThread} (hinv : SequencingInv c.idx es s)
    (h : VmStep img s.dev (s.vm t) (.call c jump) d th) :
    SequencingInv c.idx (es ++ [⟨c.ccb.pc, jump⟩])
      { s with dev := d, vm := Function.update s.vm t th } := by
  obtain ⟨hpc, hdone⟩ := h.pc_before_call
  obtain ⟨pc, hold, hnew⟩ := h.pc_of_call
  have haddr : c.ccb.pc = pcAfterAll es := hinv.fetched t c hpc rfl
  have hpceq : pc = pcAfterAll es := by
    rcases hinv.pc_eq with ⟨hnone, -⟩ | hsome
    · simp [hold] at hnone
    · exact Option.some.inj (hold.symm.trans hsome)
  -- the calling thread was the only one with an entry of this CCB at hand
  have hleft : ∀ t', (Function.update s.vm t th t').pc.fetched ≠ some c.idx := by
    intro t' ht'
    by_cases htt : t' = t
    · rw [htt, Function.update_self, hdone] at ht'
      cases ht'
    · rw [Function.update_of_ne htt] at ht'
      exact htt (hinv.alone t' t ht' (VmPc.fetched_call hpc))
  refine ⟨hinv.follows.concat haddr, ?_, .inr ?_, ?_, ?_⟩
  · intro e he
    cases es with
    | nil =>
      obtain rfl : _ = e := by simpa using he
      exact haddr
    | cons f es => exact hinv.first e (by simpa using he)
  · rw [pcAfterAll_concat, Dispatch.pcAfter, haddr, ← hpceq]
    exact hnew
  · intro t' c' hc' hidx
    exact absurd (hidx ▸ VmPc.fetched_call hc') (hleft t')
  · intro t' _ ht' _
    exact absurd ht' (hleft t')

/-- Any other step of a VM thread adds no dispatch; a fetch takes the entry at the
program counter. -/
theorem SequencingInv.vm {idx : ℕ} {es : List Dispatch} {s : Sys T} {t : T} {a : VmAct} {d : Dev}
    {th : VmThread} (hinv : SequencingInv idx es s) (hserial : Serial s (.vm t a))
    (ha : ∀ c jump, a = .call c jump → c.idx ≠ idx) (h : VmStep img s.dev (s.vm t) a d th) :
    SequencingInv idx es { s with dev := d, vm := Function.update s.vm t th } := by
  have hpc : d.pc idx = s.dev.pc idx := h.pc_eq ha
  -- what the moving thread fetches, no other thread has at hand
  have hself : th.pc.fetched = some idx → ∀ t', t' ≠ t → (s.vm t').pc.fetched ≠ some idx := by
    intro hth t' htt
    obtain ⟨c, hc, hidx⟩ := VmPc.call_of_fetched hth
    obtain ⟨rfl, -⟩ := h.fetched hc
    exact hidx ▸ hserial t' htt
  refine ⟨hinv.follows, hinv.first, by simpa only [hpc] using hinv.pc_eq, ?_, ?_⟩
  · intro t' c hc hidx
    change (Function.update s.vm t th t').pc = _ at hc
    by_cases htt : t' = t
    · rw [htt, Function.update_self] at hc
      obtain ⟨-, hfetch⟩ := h.fetched hc
      rw [hidx] at hfetch
      rcases hinv.pc_eq with ⟨hnone, -⟩ | hsome
      · simp [hfetch] at hnone
      · exact Option.some.inj (hfetch.symm.trans hsome)
    · rw [Function.update_of_ne htt] at hc
      exact hinv.fetched t' c hc hidx
  · intro t₁ t₂ h₁ h₂
    exact Families.unique_update (P := fun th : VmThread => th.pc.fetched = some idx) hinv.alone
      hself h₁ h₂

/-- Every step of a serial run keeps the invariant. -/
theorem SequencingInv.step {idx : ℕ} {es : List Dispatch} {s s' : Sys T} {l : Act T}
    (hinv : SequencingInv idx es s) (hserial : Serial s l) (h : SysStep img s l s') :
    SequencingInv idx (es ++ (Act.dispatch? idx l).toList) s' := by
  cases h with
  | @vm t a d th h =>
    by_cases hcall : ∃ c jump, a = .call c jump ∧ c.idx = idx
    · obtain ⟨c, jump, rfl, rfl⟩ := hcall
      simpa [Act.dispatch?] using hinv.call h
    · have ha : ∀ c jump, a = .call c jump → c.idx ≠ idx := fun c jump ha hidx =>
        hcall ⟨c, jump, ha, hidx⟩
      have hnone : Act.dispatch? idx (.vm t a) = none := by
        cases a with
        | call c jump => simp [Act.dispatch?, ha c jump rfl]
        | _ => rfl
      simpa [hnone] using hinv.vm hserial ha h
  | reader h =>
    refine ⟨by simpa [Act.dispatch?] using hinv.follows, by simpa [Act.dispatch?] using hinv.first,
      ?_, by simpa [Act.dispatch?] using hinv.fetched, hinv.alone⟩
    simp only [Act.dispatch?, Option.toList_none, List.append_nil]
    rcases h.pc_eq idx with heq | ⟨hnone, hzero⟩
    · simpa only [heq] using hinv.pc_eq
    · rcases hinv.pc_eq with ⟨-, rfl⟩ | hsome
      · exact .inr hzero
      · simp [hnone] at hsome
  | writer h =>
    refine ⟨by simpa [Act.dispatch?] using hinv.follows, by simpa [Act.dispatch?] using hinv.first,
      ?_, by simpa [Act.dispatch?] using hinv.fetched, hinv.alone⟩
    simpa only [Act.dispatch?, Option.toList_none, List.append_nil, Dev.pc, h.dev_eq.2.1] using
      hinv.pc_eq

/-- **The law of the VM.** In a serial run the dispatches for a CCB follow its
program counter, which only jumps move. -/
theorem sequencingInv_of_run {ls : List (Act T)} {s : Sys T}
    (h : Lts.Run (Lts.restrict (tsmSystem img T) Serial) .start ls s) (idx : ℕ) :
    SequencingInv idx (dispatches idx ls) s := by
  induction h with
  | nil =>
    refine ⟨List.isChain_nil, by simp [dispatches], .inl ⟨rfl, rfl⟩, ?_, ?_⟩
    · intro t c hc
      simp [Sys.start] at hc
    · intro t t' ht
      simp [Sys.start, VmPc.fetched] at ht
  | @snoc s s' ls l _ hstep ih =>
    have hnext := ih.step hstep.1 hstep.2
    cases hl : Act.dispatch? idx l <;> simpa [dispatches, hl] using hnext

/-- **Sequencing.** In a serial run the dispatches for a CCB are the ones its
script asks for exactly when each one that another follows takes a jump; without
any jump they come in order only if there is at most one. -/
theorem sequenced_iff_jumps {ls : List (Act T)} {s : Sys T}
    (h : Lts.Run (Lts.restrict (tsmSystem img T) Serial) .start ls s) (idx : ℕ) :
    (Sequenced (dispatches idx ls) ↔ ∀ e ∈ (dispatches idx ls).dropLast, e.jump.isSome) ∧
    ((∀ e ∈ dispatches idx ls, e.jump = none) →
      (InOrder (dispatches idx ls) ↔ (dispatches idx ls).length ≤ 1)) := by
  have hinv := sequencingInv_of_run h idx
  exact ⟨hinv.follows.sequenced_iff, fun hfree =>
    hinv.follows.inOrder_iff_of_jumpFree hfree hinv.first⟩

end Runs

/-- An iteration of a single VM thread makes one dispatch. -/
theorem run_dispatch {img : Image} {o : EvalOrder} {u : Unspec} {d d' : Dev}
    {fba fba' : Ptr FmBytesArray} {c : CallSite} {jump : Option ℤ} (hsem : 0 < d.semVm)
    (henter : tsmVmEnter img u d fba = .ok c)
    (hjump : c.fn.jump u c.ccb c.fba (c.ce.parametersAt u.operands) = .ok jump)
    (h : tsmVm img o u d fba = .ok (d', fba')) :
    ∃ ls : List (Act Unit), dispatches c.idx ls = [⟨c.ccb.pc, jump⟩] ∧
      Lts.Run (tsmSystem img Unit) (atRest d fba) ls (atRest d' fba') := by
  obtain ⟨c', jump', ls, henter', hjump', hls, hrun⟩ := run_tsmVm hsem h
  obtain rfl : c = c' := Except.ok.inj (henter.symm.trans henter')
  obtain rfl : jump = jump' := Except.ok.inj (hjump.symm.trans hjump')
  refine ⟨_, ?_, hrun⟩
  have hmap : dispatches c.idx (ls.map (Act.vm ())) = (ls.filterMap VmAct.call?).filterMap
      fun p => if p.1.idx = c.idx then some ⟨p.1.ccb.pc, p.2⟩ else none := by
    rw [dispatches, List.filterMap_map, List.filterMap_filterMap]
    refine List.filterMap_congr fun a _ => ?_
    cases a <;> rfl
  simp [hmap, hls]

/-- A line `data_set` without operands: the dispatch is at the first entry, and
the device is left as it was before the package. -/
theorem run_dataSet (fba : Ptr FmBytesArray) : ∃ (ls : List (Act Unit)) (fba' : Ptr FmBytesArray),
    dispatches 0 ls = [⟨0, none⟩] ∧
      Lts.Run (tsmSystem (plainImage .dataSet) Unit) (atRest waitingDev fba) ls
        (atRest idleDev fba') := by
  obtain ⟨ls, hls, hrun⟩ := run_dispatch (by decide) rfl rfl
    (rfl : tsmVm (plainImage .dataSet) .valueFirst plainUnspec waitingDev fba = _)
  exact ⟨ls, _, hls, hrun⟩

/-- Two packages for a session whose script consists of `data_set` lines. -/
theorem run_dataSet_twice : ∃ (ls : List (Act Unit)) (s : Sys Unit),
    Lts.Run (tsmSystem (plainImage .dataSet) Unit) .start ls s ∧
      dispatches 0 ls = [⟨0, none⟩, ⟨0, none⟩] := by
  have hcreate : Lts.Run (tsmSystem (plainImage .dataSet) Unit) .start _
      (atRest waitingDev .wild) :=
    run_createCcb _ (newPackage 1 7 emptyResponse) rfl (plainCcb_fresh 7 2)
  obtain ⟨ls₁, fba₁, hls₁, hrun₁⟩ := run_dataSet .wild
  have hreceive : Lts.Run (tsmSystem (plainImage .dataSet) Unit) (atRest idleDev fba₁) _
      (atRest waitingDev fba₁) := run_receiveData _ (newPackage 1 7 emptyResponse) rfl
  obtain ⟨ls₂, fba₂, hls₂, hrun₂⟩ := run_dataSet fba₁
  refine ⟨_, _, ((hcreate.append hrun₁).append hreceive).append hrun₂, ?_⟩
  simp only [dispatches, List.filterMap_append] at hls₁ hls₂ ⊢
  rw [hls₁, hls₂]
  rfl

/-- The second entry is never reached: both dispatches execute the first. -/
theorem sequencing_fails : ¬ ∀ (T : Type) [DecidableEq T] (img : Image) (ls : List (Act T))
    (s : Sys T), Lts.Run (tsmSystem img T) .start ls s → ∀ idx, Sequenced (dispatches idx ls) := by
  intro h
  obtain ⟨ls, s, hrun, hls⟩ := run_dataSet_twice
  have hseq := h Unit _ ls s hrun 0
  rw [hls, Sequenced, List.isChain_pair] at hseq
  simp [Dispatch.next] at hseq

/-- With a single VM thread every run is serial. -/
theorem serial_of_subsingleton {T : Type} [Subsingleton T] (s : Sys T) (l : Act T) :
    Serial s l := by
  cases l with
  | vm t a =>
    cases a with
    | fetchEntry idx => exact fun t' ht => absurd (Subsingleton.elim t' t) ht
    | _ => trivial
  | _ => trivial

theorem sequenced_iff_jumps_dataSet : ∃ ls : List (Act Unit), (dispatches 0 ls).length = 2 ∧
    (Sequenced (dispatches 0 ls) ↔ ∀ e ∈ (dispatches 0 ls).dropLast, e.jump.isSome) := by
  obtain ⟨ls, s, hrun, hls⟩ := run_dataSet_twice
  exact ⟨ls, by rw [hls]; rfl,
    (sequenced_iff_jumps (hrun.restrict fun _ => serial_of_subsingleton _ _) 0).1⟩

end TsmVm
