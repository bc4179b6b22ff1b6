import TsmVm.CcbSteps
import TsmVm.JumpOperands

/-!
# Fetching and dispatching

Neither the program counter nor the number of a bytecode is compared with
anything before it is used, and a bytecode gets the address of the field that
points to its operands. A dispatch is well formed where a script stays among
entries without operands, whose numbers lie within the table; the condition is
on the entry a session starts with and on the targets of its jumps.
-/

namespace TsmVm

/-- The third argument of a bytecode is the operand array of its entry, or an
array without elements where the entry has none. -/
def OwnArgument (ce : CodeEntry) (arg : FmBytesArray) : Prop :=
  match ce.parameters with
  | none => arg.cnt = 0
  | some fba => arg = fba

/-- The call an entry leads to: the number is one of the table, and the argument
is the one of the entry. -/
structure WellFormedCall (table : ByteCode) (ce : CodeEntry) : Prop where
  /-- The number is not negative. -/
  code_nonneg : 0 ≤ ce.code
  /-- The table has a slot for it. -/
  code_lt : ce.code < table.cnt
  /-- The argument is the own one, whatever lies behind the entry. -/
  argument : ∀ operands, OwnArgument ce (ce.parametersAt operands)

/-- The fetch of a CCB: the program counter is that of an entry of the script,
and the call that entry leads to is well formed. -/
def WellFormedFetch (ccb : Ccb) : Prop :=
  ∃ se ce, ccb.se = some se ∧ 0 ≤ ccb.pc ∧ ccb.pc < se.codeNum ∧
    se.ces[ccb.pc.toNat]? = some (some ce) ∧ WellFormedCall ccb.bc ce

/-- A thread about to fetch or to call is about to do what is well formed. -/
def VmPc.WellFormed (d : Dev) : VmPc → Prop
  | .fetchEntry _ idx => ∃ ccb, d.ccbList[idx]? = some ccb ∧ WellFormedFetch ccb
  | .call c => ∃ ccb, d.ccbList[c.idx]? = some ccb ∧ WellFormedCall ccb.bc c.ce
  | _ => True

/-- Every dispatch that is about to happen is well formed. -/
def DispatchesWellFormed {T : Type} (s : Sys T) : Prop := ∀ t, (s.vm t).pc.WellFormed s.dev

/-- The session can go on at an address: an entry without operands is there,
with a number of the table. -/
structure CanDispatch (ccb : Ccb) (addr : ℤ) : Prop where
  /-- Such an entry. -/
  entry : ∃ se ce, ccb.se = some se ∧ 0 ≤ addr ∧ addr < se.codeNum ∧
    se.ces[addr.toNat]? = some (some ce) ∧ 0 ≤ ce.code ∧ ce.code < ccb.bc.cnt ∧
    ce.parameters = none

/-- A session starts where it can go on, and jumps only to where it can. -/
def KeepsDispatch {T : Type} (s : Sys T) (l : Act T) (s' : Sys T) : Prop :=
  (∀ ccb, l = .reader .createCcb → s'.dev.ccbList = s.dev.ccbList ++ [ccb] → CanDispatch ccb 0) ∧
  ∀ t c target ccb, l = .vm t (.call c (some target)) → s.dev.ccbList[c.idx]? = some ccb →
    CanDispatch ccb target

/-! ## Arguments -/

/-- An entry without operands gets an empty array. -/
theorem ownArgument_of_none {ce : CodeEntry} (h : ce.parameters = none)
    (operands : List (Option FmBytes)) : OwnArgument ce (ce.parametersAt operands) := by
  unfold OwnArgument CodeEntry.parametersAt
  rw [h]
  rfl

/-- An entry the loader has given operands never gets them. -/
theorem ownArgument_iff {ce : CodeEntry} (hce : ce.FromLoader)
    (operands : List (Option FmBytes)) :
    OwnArgument ce (ce.parametersAt operands) ↔ ce.parameters = none := by
  refine ⟨?_, fun h => ownArgument_of_none h operands⟩
  intro h
  unfold OwnArgument at h
  cases hparams : ce.parameters with
  | none => rfl
  | some fba =>
    rw [hparams] at h
    have haddr : (0 : ℕ) = fba.addr := congrArg FmBytesArray.addr h
    exact absurd haddr.symm (hce fba hparams).addr_ne_zero

theorem CanDispatch.wellFormedFetch {ccb : Ccb} (h : CanDispatch ccb ccb.pc) :
    WellFormedFetch ccb := by
  obtain ⟨se, ce, hse, hpos, hlt, hslot, hcode, hcnt, hparams⟩ := h.entry
  exact ⟨se, ce, hse, hpos, hlt, hslot, hcode, hcnt, ownArgument_of_none hparams⟩

/-- What a step leaves alone decides where a session can go on. -/
theorem CanDispatch.congr {ccb ccb' : Ccb} {addr : ℤ} (h : CanDispatch ccb addr)
    (hse : ccb'.se = ccb.se) (hbc : ccb'.bc = ccb.bc) : CanDispatch ccb' addr := by
  obtain ⟨entry⟩ := h
  constructor
  rw [hse, hbc]
  exact entry

/-- In terms of the script: the line is there, has no comma and names a bytecode
of the table. -/
theorem canDispatch_iff_line {us : ℕ → Unspec} {path : List UInt8} {file : ScriptFile}
    (hfile : file.Loadable) (hname : (fileNameOf path).length ≠ 512) {ccb : Ccb}
    (hse : scloaderLoad us (fun _ => some file.bytes) path = .ok ccb.se) (k : ℕ) :
    CanDispatch ccb k ↔ ∃ l, file.code[k]? = some l ∧ l.operands = none ∧ 0 ≤ l.number ∧
      l.number < ccb.bc.cnt := by
  obtain ⟨se, hload, hnum, hentries⟩ := hfile.loadsLines us hname
  have hccb : ccb.se = some se := Except.ok.inj (hse.symm.trans hload)
  constructor
  · rintro ⟨se', ce, hse', -, hlt, hslot, hcode, hcnt, hparams⟩
    obtain rfl : se = se' := Option.some.inj (hccb.symm.trans hse')
    have hk : k < file.code.length := by omega
    have hline : file.code[k]? = some file.code[k] := List.getElem?_eq_getElem hk
    obtain ⟨ce', hslot', hfor⟩ := hentries k _ hline
    rw [Int.toNat_natCast, hslot', Option.some.injEq, Option.some.injEq] at hslot
    subst hslot
    refine ⟨_, hline, ?_, hfor.code_eq ▸ hcode, hfor.code_eq ▸ hcnt⟩
    have hoperands := hfor.parameters_eq
    cases htexts : file.code[k].operands with
    | none => rfl
    | some texts =>
      simp only [htexts, hparams, reduceCtorEq, false_and, exists_false] at hoperands
  · rintro ⟨l, hline, hoperands, hcode, hcnt⟩
    obtain ⟨ce, hslot, hfor⟩ := hentries k l hline
    have hk : k < file.code.length := (List.getElem?_eq_some_iff.mp hline).1
    have hparams := hfor.parameters_eq
    rw [hoperands] at hparams
    have hlt : (k : ℤ) < se.codeNum := by omega
    rw [← hfor.code_eq] at hcode hcnt
    exact ⟨se, ce, hccb, by omega, hlt, hslot, hcode, hcnt, hparams⟩

/-! ## Runs -/

section Runs

variable {T : Type} {img : Image}

/-- Where a thread stands, the dispatch it is about to do can be done. -/
def VmPc.Ready (d : Dev) : VmPc → Prop
  | .fetchEntry _ idx => idx < d.ccbList.length
  | .call c => ∃ ccb, d.ccbList[c.idx]? = some ccb ∧ 0 ≤ c.ce.code ∧ c.ce.code < ccb.bc.cnt ∧
      c.ce.parameters = none
  | _ => True

/-- What holds in every state of a run that keeps to the condition. -/
structure DispatchInv (s : Sys T) : Prop where
  /-- Every session can go on where it is. -/
  ccbs : ∀ ccb ∈ s.dev.ccbList, CanDispatch ccb ccb.pc
  /-- Every thread is ready. -/
  threads : ∀ t, (s.vm t).pc.Ready s.dev

/-- The invariant is what the claim asks for. -/
theorem DispatchInv.wellFormed {s : Sys T} (h : DispatchInv s) : DispatchesWellFormed s := by
  intro t
  have hready := h.threads t
  cases hpc : (s.vm t).pc with
  | fetchEntry skb idx =>
    rw [hpc] at hready
    have hlt : idx < s.dev.ccbList.length := hready
    have hmem := List.getElem_mem hlt
    exact ⟨s.dev.ccbList[idx], List.getElem?_eq_getElem hlt, (h.ccbs _ hmem).wellFormedFetch⟩
  | call c =>
    rw [hpc] at hready
    obtain ⟨ccb, hget, hcode, hcnt, hparams⟩ := hready
    exact ⟨ccb, hget, hcode, hcnt, ownArgument_of_none hparams⟩
  | _ => trivial

variable [DecidableEq T]

/-- A thread stays ready while the others move. -/
theorem VmPc.Ready.step {s s' : Sys T} {l : Act T} (h : SysStep img s l s') {pc : VmPc}
    (hpc : pc.Ready s.dev) : pc.Ready s'.dev := by
  cases pc with
  | fetchEntry skb idx =>
    have hlt : idx < s.dev.ccbList.length := hpc
    obtain ⟨ccb', hget, -⟩ := h.ccb_some (List.getElem?_eq_getElem hlt)
    exact (List.getElem?_eq_some_iff.mp hget).1
  | call c =>
    obtain ⟨ccb, hget, hcode, hcnt, hparams⟩ := hpc
    obtain ⟨ccb', hget', -, -, hbc⟩ := h.ccb_some hget
    exact ⟨ccb', hget', hcode, hbc ▸ hcnt, hparams⟩
  | _ => trivial

/-- A thread that moves gets ready where the sessions can go on. -/
theorem VmStep.ready {d d' : Dev} {th th' : VmThread} {a : VmAct} (h : VmStep img d th a d' th')
    (hccbs : ∀ ccb ∈ d.ccbList, CanDispatch ccb ccb.pc) : th'.pc.Ready d := by
  cases h with
  | fetchCcb hfetch =>
    obtain ⟨ccb, hget, -⟩ := fetchCcb_eq_some hfetch
    exact (List.getElem?_eq_some_iff.mp hget).1
  | @fetchEntry fba skb idx ccb ce fn hget hce hfn =>
    obtain ⟨se, ce', hse, hpos, -, hslot, hcode, hcnt, hparams⟩ :=
      (hccbs ccb (List.mem_of_getElem? hget)).entry
    have hsame : ce = ce' := by
      simp only [tsmVmFetchEntry, hse, derefOption_some, ok_bind, if_neg (not_lt.mpr hpos),
        hslot] at hce
      exact (Except.ok.inj hce).symm
    exact ⟨ccb, hget, hsame ▸ hcode, hsame ▸ hcnt, hsame ▸ hparams⟩
  | _ => trivial

/-- A step under the condition keeps the invariant. -/
theorem DispatchInv.step {s s' : Sys T} {l : Act T} (hinv : DispatchInv s)
    (hkeeps : KeepsDispatch s l s') (h : SysStep img s l s') : DispatchInv s' := by
  constructor
  · apply h.forall_ccb hinv.ccbs
    · intro ccb hl happ hfresh
      rw [hfresh.pc_eq]
      exact hkeeps.1 ccb hl happ
    · intro t a idx ccb ccb' hl _ hget hchange hccb
      refine CanDispatch.congr ?_ hchange.se_eq hchange.bc_eq
      rcases hchange.pc_eq with hpc | ⟨c, target, rfl, rfl, hpc⟩
      · rw [hpc]
        exact hccb
      · rw [hpc]
        exact hkeeps.2 t c target ccb hl hget
  · intro t'
    have hstep := h
    cases h with
    | @vm t a d th h =>
      change (Function.update s.vm t th t').pc.Ready d
      by_cases htt : t' = t
      · rw [htt, Function.update_self]
        exact VmPc.Ready.step hstep (h.ready hinv.ccbs)
      · rw [Function.update_of_ne htt]
        exact VmPc.Ready.step hstep (hinv.threads t')
    | reader | writer => exact VmPc.Ready.step hstep (hinv.threads t')

/-- **Dispatch.** In every run in which sessions start at, and jump to, entries
without operands whose numbers are in the table, every fetch and every call is
well formed. -/
theorem dispatch_well_formed (img : Image) (s : Sys T)
    (h : Lts.Reachable (Lts.restrictSteps (tsmSystem img T) KeepsDispatch) s) :
    DispatchesWellFormed s := by
  have hinv : DispatchInv s := by
    apply h.invariant
    · rintro s rfl
      refine ⟨?_, fun _ => trivial⟩
      intro ccb hmem
      cases hmem
    · intro s l s' hinv hstep
      exact hinv.step hstep.1 hstep.2
  exact hinv.wellFormed

end Runs

/-! ## The first fetch of a session -/

/-- The device with one session and its first package. -/
def createdDev (ccb : Ccb) : Dev :=
  { Dev.start with rpkgList := [newPackage 1 7 emptyResponse], semVm := 1, ccbList := [ccb] }

/-- A thread that is about to fetch for the only session there is. -/
def fetching (ccb : Ccb) : Sys Unit :=
  { dev := { Dev.start with ccbList := [ccb] },
    vm := fun _ => ⟨.fetchEntry (firstCall 1).skb 0, (firstCall 1).fba⟩,
    reader := .loop, writer := .semWait }

/-- The first package of a session gets to the fetch. -/
theorem vmRun_fetching (img : Image) {ccb : Ccb} (hsession : ccb.session = 7) :
    Lts.Run (vmSystem img) (createdDev ccb, ⟨.semWait, .wild⟩)
      [.semWait, .dequeue (some (newPackage 1 7 emptyResponse)),
        .receive (newPackage 1 7 emptyResponse) (firstCall 1).fba, .fetchCcb 0]
      ((fetching ccb).dev, (fetching ccb).vm ()) := by
  have hreceive : tsmVmReceive plainUnspec (newPackage 1 7 emptyResponse) .wild =
      .ok ((firstCall 1).skb, (firstCall 1).fba) := rfl
  have hfound : fetchCcb [ccb] (firstCall 1).skb.session = some 0 := by
    have htest : (ccb.session == (7 : ℤ)) = true := by rw [hsession]; rfl
    simp [fetchCcb, firstCall, newPackage, List.findIdx?_cons, htest]
  have htake := vmRun_take img (d := createdDev ccb) .wild Nat.one_pos rfl
  exact htake.append <| vmRun_cons img (.receive hreceive) <| vmRun_cons img (.fetchCcb hfound) .nil

/-- A session is created and its first package gets to the fetch; a condition on
the steps matters for the creation only. -/
theorem reachable_fetching {ok : Sys Unit → Act Unit → Sys Unit → Prop} (img : Image) {ccb : Ccb}
    (hfresh : ccb.Fresh) (hsession : ccb.session = 7)
    (hcreate : ∀ s s' : Sys Unit, s'.dev.ccbList = s.dev.ccbList ++ [ccb] →
      ok s (.reader .createCcb) s')
    (hother : ∀ s l s', l ≠ .reader .createCcb →
      (∀ t c jump, l ≠ .vm t (.call c jump)) → ok s l s') :
    Lts.Reachable (Lts.restrictSteps (tsmSystem img Unit) ok) (fetching ccb) := by
  have hnew : (newPackage 1 7 emptyResponse).isNew = true := rfl
  have hstart := ReaderStep.createCcb (d := Dev.start) hnew hfresh
  rw [hsession] at hstart
  have hqueue : Lts.Run (tsmSystem img Unit)
      { dev := { Dev.start with ccbList := Dev.start.ccbList ++ [ccb] },
        vm := fun _ => ⟨.semWait, .wild⟩, reader := .queueVm (newPackage 1 7 emptyResponse),
        writer := .semWait }
      [.reader (.queueVm (newPackage 1 7 emptyResponse)), .reader .postVm]
      (atRest (createdDev ccb) .wild) :=
    .cons (SysStep.reader .queueVm) <| .single (SysStep.reader .postVm)
  have hvm := run_of_vmRun (s := atRest (createdDev ccb) .wild) (t := ())
    (vmRun_fetching img hsession)
  have hthread : Function.update (atRest (createdDev ccb) .wild : Sys Unit).vm ()
      ((fetching ccb).vm ()) = (fetching ccb).vm := by
    funext t
    simp
  rw [hthread] at hvm
  have hrest := (hqueue.append hvm).restrictSteps fun l hl a b _ =>
    hother a l b (by rintro rfl; simp at hl) (by rintro t c jump rfl; simp at hl)
  exact ⟨.start, _, rfl, .cons ⟨hcreate _ _ rfl, SysStep.reader hstart⟩ hrest⟩

/-- The session with two plain entries. -/
theorem plainCcb_canDispatch : CanDispatch (plainCcb 7 2) 0 :=
  ⟨_, ⟨0, 0, none⟩, rfl, by decide, by decide, rfl, by decide, by decide, rfl⟩

/-- It gets to its first fetch, which is well formed. -/
theorem dispatch_well_formed_plain :
    Lts.Reachable (Lts.restrictSteps (tsmSystem (plainImage .dataSet) Unit) KeepsDispatch)
      (fetching (plainCcb 7 2)) ∧
    DispatchesWellFormed (fetching (plainCcb 7 2)) := by
  have hreach : Lts.Reachable
      (Lts.restrictSteps (tsmSystem (plainImage .dataSet) Unit) KeepsDispatch)
      (fetching (plainCcb 7 2)) := by
    apply reachable_fetching _ (plainCcb_fresh 7 2) rfl
    · intro s s' happ
      refine ⟨fun ccb _ happ' => ?_, fun t c target ccb hl => by cases hl⟩
      obtain rfl : ccb = plainCcb 7 2 := by simpa [happ] using happ'.symm
      exact plainCcb_canDispatch
    · intro s l s' hcreate hcall
      exact ⟨fun ccb hl => absurd hl hcreate, fun t c target ccb hl => absurd hl (hcall t c _)⟩
  exact ⟨hreach, dispatch_well_formed _ _ hreach⟩

/-! ## A script with operands -/

/-- The CCB is one the source creates for a script the loader accepts. -/
def CreatedForScript (ccb : Ccb) : Prop :=
  ∃ us files path e bcList tlv bcList', scloaderLoad us files path = .ok ccb.se ∧ ccb.se.isSome ∧
    ccbCreateCcb e bcList tlv = .ok (ccb, bcList')

/-- Every session is created for such a script. -/
def CreatesForScripts {T : Type} (s : Sys T) (l : Act T) (s' : Sys T) : Prop :=
  ∀ ccb, l = .reader .createCcb → s'.dev.ccbList = s.dev.ccbList ++ [ccb] → CreatedForScript ccb

/-- A request for session 7 and a script, without libraries. -/
def scriptRequest : List RouterTlv := [⟨tagSession, [0x37, 0]⟩, ⟨tagScript, [0x73, 0]⟩]

/-- The session such a request creates. -/
theorem ccbCreateCcb_scriptRequest (e : CreateEnv) :
    ∃ ccb, ccbCreateCcb e [] scriptRequest = .ok (ccb, []) ∧ ccb.session = 7 ∧
      ccb.se = e.scloader [0x73] := by
  obtain ⟨t, ht, -⟩ := ccbAllocBc_ok e
  have hid : ccbSessionOf scriptRequest = .ok 7 := rfl
  have hscript : ccbScriptOf e scriptRequest = .ok (e.scloader [0x73]) := rfl
  have hdlls : ccbLoadDlls e scriptRequest t [] = .ok (t, []) := rfl
  obtain ⟨ccb, hcreate, hsession, hse, -⟩ := ccbCreateCcb_of_parts hid hscript ht hdlls
  exact ⟨ccb, hcreate, hsession, hse⟩

/-- The first entry of the script with the line `32,9000,104` is not handed its
operands. -/
theorem dispatch_fails : ¬ ∀ (img : Image) (s : Sys Unit),
    Lts.Reachable (Lts.restrictSteps (tsmSystem img Unit) CreatesForScripts) s →
      DispatchesWellFormed s := by
  intro h
  have hloads : LoadsLines (fun _ => plainUnspec) [] tailJneFile :=
    tailJneFile_loadable.loadsLines _ (by decide)
  obtain ⟨se, hload, -, hentries⟩ := hloads
  obtain ⟨ccb, hcreate, hsession, hse⟩ := ccbCreateCcb_scriptRequest
    { reserve := 0x401000, reserve_ne_zero := by decide, dl := .wild,
      scloader := fun _ => some se, bcloader := fun _ => none }
  have hreach : Lts.Reachable
      (Lts.restrictSteps (tsmSystem (plainImage .dataSet) Unit) CreatesForScripts)
      (fetching ccb) := by
    apply reachable_fetching _ (ccbCreateCcb_fresh hcreate) hsession
    · intro s s' happ ccb' _ happ'
      obtain rfl : ccb' = ccb := by simpa [happ] using happ'.symm
      exact ⟨_, _, _, _, _, _, _, hload.trans (congrArg Except.ok hse.symm), by rw [hse]; rfl,
        hcreate⟩
    · intro s l s' hl _ ccb' hl'
      exact absurd hl' hl
  obtain ⟨ccb', hget, se', ce, hse', -, -, hslot, hcall⟩ := h _ _ hreach ()
  obtain rfl : ccb = ccb' := Option.some.inj hget
  obtain rfl : se = se' := Option.some.inj (hse.symm.trans hse')
  rw [(ccbCreateCcb_fresh hcreate).pc_eq] at hslot
  obtain ⟨ce', hslot', hfor⟩ := hentries 0 tailJneLine.toScriptLine rfl
  obtain rfl : ce' = ce := by simpa using hslot'.symm.trans hslot
  have hloaded := scloaderLoad_fromLoader hload (List.mem_of_getElem? hslot')
  have hnone := (ownArgument_iff hloaded []).mp (hcall.argument [])
  obtain ⟨fba, hfba, -⟩ := hfor.parameters_eq
  rw [hnone] at hfba
  cases hfba

end TsmVm
