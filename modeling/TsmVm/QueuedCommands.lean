import TsmVm.BufferPanics
import TsmVm.WriteBack

/-!
# The commands that wait for a MAC

Whatever the scripts say and whatever the cards answer, a command that waits for its MAC is
a header without data, or nothing at all: a command with data is refused where its builder
takes the address of the data for none, and stops the program where it does not. What the
builders return is not looked at, so the buffer of a refused command is queued empty. The
states of the system have what completed calls leave; no call that fills this queue stays
in a loop half way.
-/

namespace TsmVm

/-- The instructions of the commands that are queued: EXTERNAL AUTHENTICATE, GET STATUS,
INSTALL, PUT KEY, LOAD and STORE DATA. -/
def queuedIns : List UInt8 := [0x82, 0xF2, 0xE6, 0xD8, 0xE8, 0xE2]

/-- A command without data, or none. -/
def IsBareCommand (body : List UInt8) : Prop :=
  body = [] ∨ ∃ ins ∈ queuedIns, ∃ p1 p2, body = [0x80, ins, p1, p2, 0]

/-- The buffer holds a command without data, or none, behind the room for its header. -/
def Skb.IsBare (s : Skb) : Prop :=
  ∃ body room, s.Layout (List.replicate tagA0HeadRoom 0) body room ∧ IsBareCommand body

/-- The commands that wait for a MAC have no data. -/
def Ccb.QueuesBare (ccb : Ccb) : Prop := ∀ skb ∈ ccb.apduQ, skb.IsBare

section Builders

variable {u : Unspec} {k : ℕ} {agent data : Option FmBytes} {skb skb' : Skb} {ret : ℤ}
  {ins p1 p2 : UInt8}

/-- What a builder leaves in a fresh buffer. -/
theorem isBare_of_make (h : apduPreprocess u k agent = .ok skb) (hins : ins ∈ queuedIns)
    (hmake : _gpMakeApdu 0x80 ins p1 p2 data skb = .ok (ret, skb')) : skb'.IsBare := by
  have hmake : _gpMakeApdu 0x80 ins p1 p2 data (commandBuffer h).toSkb = .ok (ret, skb') := hmake
  by_cases hdata : ∀ d, data = some d → u8 d.leng = 0
  · rw [_gpMakeApdu_empty _ hdata] at hmake
    obtain ⟨-, rfl⟩ : fmOk = ret ∧ (commandBuffer h).append [0x80, ins, p1, p2, 0] = skb' := by
      simpa using hmake
    have hl := (commandBuffer h).layout
    refine ⟨[0x80, ins, p1, p2, 0], (commandBuffer h).room.drop 5, ⟨rfl, hl.data_eq, ?_, ?_⟩,
      .inr ⟨ins, hins, p1, p2, rfl⟩⟩
    · exact congrArg (· + 5) hl.tail_eq
    · exact congrArg (· + 5) hl.len_eq
  · push Not at hdata
    obtain ⟨d, rfl, hlen⟩ := hdata
    obtain ⟨-, hsame⟩ := _gpMakeApdu_refused _ hlen hmake
    obtain ⟨-, rfl⟩ : ret = fmGenErrInvalidLen ∧ skb' = skb := Prod.ext_iff.mp hsame
    exact ⟨[], _, apduPreprocess_layout h, .inl rfl⟩

/-- An INSTALL command. -/
theorem isBare_of_installFields {fields : List (Option (Option FmBytes))}
    (h : apduPreprocess u k agent = .ok skb)
    (hmake : installFields u p1 fields skb = .ok (ret, skb')) : skb'.IsBare := by
  obtain ⟨⟨pos, buf⟩, -, hmake⟩ := bind_eq_ok.mp hmake
  obtain ⟨⟨ret', skb''⟩, hinstall, hmake⟩ := bind_eq_ok.mp hmake
  obtain ⟨-, rfl⟩ : 0 = ret ∧ skb'' = skb' := by simpa using hmake
  exact isBare_of_make h (by decide) hinstall

end Builders

section Calls

variable {u : Unspec} {ccb ccb' : Ccb} {rsp : Ptr FmBytesArray} {arg : FmBytesArray} {ret : ℤ}
  {agent : Option FmBytes}

/-- A queue that is filled and the flag that is set. -/
theorem queuesBare_of_setBootstrap {apduQ : List Skb} {r : ℤ} (hq : ∀ skb ∈ apduQ, skb.IsBare)
    (h : (do let c ← ccbSetBootstrap (.obj { ccb with apduQ := apduQ }) true
             return (r, c) : Res (ℤ × Ccb)) = .ok (ret, ccb')) : ccb'.QueuesBare := by
  obtain ⟨-, rfl⟩ : r = ret ∧ { ccb with apduQ := apduQ, bootstrap := true } = ccb' := by
    simpa [ccbSetBootstrap, Ptr.deref] using h
  exact hq

/-- One command that waits for its MAC. -/
theorem queuesBare_of_cacheApdu {make : Skb → Res (ℤ × Skb)} {r : ℤ}
    (hmake : ∀ skb ret skb', apduPreprocess u 0 agent = .ok skb →
      make skb = .ok (ret, skb') → skb'.IsBare)
    (h : cacheApdu make r u ccb agent = .ok (ret, ccb')) : ccb'.QueuesBare := by
  obtain ⟨q, hpurge, h⟩ := bind_eq_ok.mp h
  obtain ⟨skb, hskb, h⟩ := bind_eq_ok.mp h
  obtain ⟨⟨ret', skb'⟩, hmade, h⟩ := bind_eq_ok.mp h
  obtain rfl := skbQueuePurge_eq_nil hpurge
  refine queuesBare_of_setBootstrap ?_ h
  rw [List.nil_append]
  exact List.forall_mem_singleton.mpr (hmake skb ret' skb' hskb hmade)

/-- The loop of `gp_store_data`. -/
theorem storeDataLoop_bare {n i : ℕ} {blkNum : UInt8} {q q' : List Skb}
    (hq : ∀ skb ∈ q, skb.IsBare)
    (h : storeDataLoop u ccb agent arg n i blkNum q = .ok q') : ∀ skb ∈ q', skb.IsBare := by
  induction n generalizing i blkNum q with
  | zero =>
    obtain rfl : q = q' := Except.ok.inj h
    exact hq
  | succ n ih =>
    obtain ⟨skb, hskb, h⟩ := bind_eq_ok.mp h
    obtain ⟨name, -, h⟩ := bind_eq_ok.mp h
    obtain ⟨name', -, h⟩ := bind_eq_ok.mp h
    obtain ⟨parm, -, h⟩ := bind_eq_ok.mp h
    obtain ⟨⟨ret, skb'⟩, hmake, h⟩ := bind_eq_ok.mp h
    have hbare : skb'.IsBare := isBare_of_make hskb (by decide) hmake
    exact ih (List.forall_mem_append.mpr ⟨hq, List.forall_mem_singleton.mpr hbare⟩) h

/-- The loop of `gp_install_for_load_and_load`. -/
theorem loadLoop_bare {content : FmBytes} {rounds k pos : ℕ} {capLen : ℤ} {blockNum : UInt8}
    {q q' : List Skb} (hq : ∀ skb ∈ q, skb.IsBare)
    (h : loadLoop u agent content rounds k pos capLen blockNum q = .ok q') :
    ∀ skb ∈ q', skb.IsBare := by
  induction rounds generalizing k pos capLen blockNum q with
  | zero =>
    rw [loadLoop] at h
    split at h
    · cases h
    · obtain rfl : q = q' := Except.ok.inj h
      exact hq
  | succ rounds ih =>
    rw [loadLoop] at h
    split at h
    · obtain ⟨skb, hskb, h⟩ := bind_eq_ok.mp h
      split at h
      all_goals
        obtain ⟨⟨ret, skb'⟩, hmake, h⟩ := bind_eq_ok.mp h
        have hbare : skb'.IsBare := isBare_of_make hskb (by decide) hmake
        exact ih (List.forall_mem_append.mpr ⟨hq, List.forall_mem_singleton.mpr hbare⟩) h
    · obtain rfl : q = q' := Except.ok.inj h
      exact hq

/-- `gp_store_data`. -/
theorem storeData_bare (rsp : Ptr FmBytesArray)
    (h : gpStoreData u ccb rsp arg = .ok (ret, ccb')) : ccb'.QueuesBare := by
  obtain ⟨agent, -, h⟩ := bind_eq_ok.mp h
  obtain ⟨q, hpurge, h⟩ := bind_eq_ok.mp h
  obtain ⟨q', hloop, hflag⟩ := bind_eq_ok.mp h
  obtain rfl := skbQueuePurge_eq_nil hpurge
  exact queuesBare_of_setBootstrap (storeDataLoop_bare (List.forall_mem_nil _) hloop) hflag

/-- `gp_install_for_load_and_load`. -/
theorem loadAndLoad_bare (rsp : Ptr FmBytesArray)
    (h : gpInstallForLoadAndLoad u ccb rsp arg = .ok (ret, ccb')) : ccb'.QueuesBare := by
  obtain ⟨agent, -, h⟩ := bind_eq_ok.mp h
  obtain ⟨sdAid, -, h⟩ := bind_eq_ok.mp h
  obtain ⟨pkgAid, -, h⟩ := bind_eq_ok.mp h
  obtain ⟨hash, -, h⟩ := bind_eq_ok.mp h
  obtain ⟨loadParm, -, h⟩ := bind_eq_ok.mp h
  obtain ⟨content?, -, h⟩ := bind_eq_ok.mp h
  obtain ⟨loadToken, -, h⟩ := bind_eq_ok.mp h
  obtain ⟨q, hpurge, h⟩ := bind_eq_ok.mp h
  obtain ⟨capLen, -, h⟩ := bind_eq_ok.mp h
  obtain ⟨content, -, h⟩ := bind_eq_ok.mp h
  obtain ⟨skb₁, hskb₁, h⟩ := bind_eq_ok.mp h
  obtain ⟨⟨ret₁, install⟩, hinstall, h⟩ := bind_eq_ok.mp h
  obtain ⟨skb₂, hskb₂, h⟩ := bind_eq_ok.mp h
  obtain ⟨buf₁, -, h⟩ := bind_eq_ok.mp h
  obtain ⟨buf₂, -, h⟩ := bind_eq_ok.mp h
  obtain ⟨bs, -, h⟩ := bind_eq_ok.mp h
  obtain ⟨buf₃, -, h⟩ := bind_eq_ok.mp h
  obtain ⟨⟨ret₂, first⟩, hfirst, h⟩ := bind_eq_ok.mp h
  obtain ⟨q', hloop, hflag⟩ := bind_eq_ok.mp h
  obtain rfl := skbQueuePurge_eq_nil hpurge
  have hbare₁ : install.IsBare := isBare_of_installFields hskb₁ hinstall
  have hbare₂ : first.IsBare := isBare_of_make hskb₂ (by decide) hfirst
  refine queuesBare_of_setBootstrap (loadLoop_bare ?_ hloop) hflag
  rw [List.nil_append]
  exact List.forall_mem_cons.mpr ⟨hbare₁, List.forall_mem_singleton.mpr hbare₂⟩

/-- The bytecodes that queue commands queue bare ones. -/
theorem queuesBare_of_setsBootstrap {fn : Bytecode} (hfn : fn.setsBootstrap = true)
    (h : fn.call u ccb rsp arg = .ok (ret, ccb')) : ccb'.QueuesBare := by
  cases fn with
  | gpExtAuth =>
    obtain ⟨agent, -, h⟩ := bind_eq_ok.mp h
    obtain ⟨sl, -, h⟩ := bind_eq_ok.mp h
    obtain ⟨nhc, -, h⟩ := bind_eq_ok.mp h
    refine queuesBare_of_cacheApdu (fun skb ret skb' hskb hmake => ?_) h
    obtain ⟨sl', -, hmake⟩ := bind_eq_ok.mp hmake
    exact isBare_of_make hskb (by decide) hmake
  | gpGetStatus =>
    obtain ⟨agent, -, h⟩ := bind_eq_ok.mp h
    obtain ⟨subset, -, h⟩ := bind_eq_ok.mp h
    obtain ⟨criteria, -, h⟩ := bind_eq_ok.mp h
    refine queuesBare_of_cacheApdu (fun skb ret skb' hskb hmake => ?_) h
    obtain ⟨subset', -, hmake⟩ := bind_eq_ok.mp hmake
    exact isBare_of_make hskb (by decide) hmake
  | gpInstallForInstallMakeSelectable =>
    obtain ⟨agent, -, h⟩ := bind_eq_ok.mp h
    obtain ⟨pkgAid, -, h⟩ := bind_eq_ok.mp h
    obtain ⟨appAid, -, h⟩ := bind_eq_ok.mp h
    obtain ⟨insAid, -, h⟩ := bind_eq_ok.mp h
    obtain ⟨priv, -, h⟩ := bind_eq_ok.mp h
    obtain ⟨parm, -, h⟩ := bind_eq_ok.mp h
    obtain ⟨token, -, h⟩ := bind_eq_ok.mp h
    exact queuesBare_of_cacheApdu
      (fun skb ret skb' hskb hmake => isBare_of_installFields hskb hmake) h
  | gpInstallForPersonalize =>
    obtain ⟨agent, -, h⟩ := bind_eq_ok.mp h
    obtain ⟨aid, -, h⟩ := bind_eq_ok.mp h
    exact queuesBare_of_cacheApdu
      (fun skb ret skb' hskb hmake => isBare_of_installFields hskb hmake) h
  | gpPutKey =>
    obtain ⟨agent, -, h⟩ := bind_eq_ok.mp h
    obtain ⟨kv, -, h⟩ := bind_eq_ok.mp h
    refine queuesBare_of_cacheApdu (fun skb ret skb' hskb hmake => ?_) h
    obtain ⟨kv', -, hmake⟩ := bind_eq_ok.mp hmake
    exact isBare_of_make hskb (by decide) hmake
  | gpInstallForExtradition =>
    obtain ⟨agent, -, h⟩ := bind_eq_ok.mp h
    obtain ⟨destAid, -, h⟩ := bind_eq_ok.mp h
    obtain ⟨appAid, -, h⟩ := bind_eq_ok.mp h
    obtain ⟨parm, -, h⟩ := bind_eq_ok.mp h
    obtain ⟨token, -, h⟩ := bind_eq_ok.mp h
    exact queuesBare_of_cacheApdu
      (fun skb ret skb' hskb hmake => isBare_of_installFields hskb hmake) h
  | gpInstallForLoadAndLoad => exact loadAndLoad_bare rsp h
  | gpStoreData => exact storeData_bare rsp h
  | _ => cases hfn

/-- No bytecode queues anything but bare commands. -/
theorem queuesBare_of_call {fn : Bytecode} (hccb : ccb.QueuesBare)
    (h : fn.call u ccb rsp arg = .ok (ret, ccb')) : ccb'.QueuesBare := by
  obtain ⟨t, -, hcases⟩ := call_cases h
  cases hcases with
  | cached q hfn => exact queuesBare_of_setsBootstrap hfn h
  | jumped t hfn =>
    cases t with
    | none => exact hccb
    | some target => exact hccb
  | bound b hfn => exact hccb

end Calls

section Runs

variable {T : Type} [DecidableEq T] {img : Image}

/-- Every session queues bare commands. -/
def Dev.QueuesBare (d : Dev) : Prop := ∀ ccb ∈ d.ccbList, ccb.QueuesBare

/-- Storing a CCB that does so. -/
theorem Dev.QueuesBare.setCcb {d : Dev} (h : d.QueuesBare) (idx : ℕ) {ccb : Ccb}
    (hccb : ccb.QueuesBare) : (d.setCcb idx ccb).QueuesBare := by
  intro ccb' hmem
  obtain hmem | rfl := List.mem_or_eq_of_mem_set hmem
  · exact h ccb' hmem
  · exact hccb

/-- A step of a thread. -/
theorem VmStep.queuesBare {d d' : Dev} {th th' : VmThread} {a : VmAct}
    (h : VmStep img d th a d' th') (hd : d.QueuesBare) : d'.QueuesBare := by
  cases h with
  | call hccb hcall hjump =>
    exact hd.setCcb _ (queuesBare_of_call (hd _ (List.mem_of_getElem? hccb)) hcall)
  | writeBack hccb hflag hskb hfba =>
    have hbare : Ccb.QueuesBare _ := hd _ (List.mem_of_getElem? hccb)
    exact Dev.QueuesBare.setCcb (d := { d with freed := _ }) hd _ hbare
  | reply hccb h =>
    have hbare : Ccb.QueuesBare _ := hd _ (List.mem_of_getElem? hccb)
    exact hd.setCcb _ hbare
  | bootstrap hccb hflag =>
    have hbare : Ccb.QueuesBare _ := hd _ (List.mem_of_getElem? hccb)
    exact hd.setCcb _ hbare
  | _ => exact hd

/-- A step of the system. -/
theorem SysStep.queuesBare {s s' : Sys T} {l : Act T} (h : SysStep img s l s')
    (hs : s.dev.QueuesBare) : s'.dev.QueuesBare := by
  cases h with
  | vm h => exact h.queuesBare hs
  | reader h =>
    rcases h.ccb_cases with hsame | ⟨ccb, -, hfresh, happ⟩
    · intro ccb hmem
      exact hs ccb (hsame ▸ hmem)
    · intro ccb' hmem
      rw [happ] at hmem
      obtain hmem | hmem := List.mem_append.mp hmem
      · exact hs ccb' hmem
      · obtain rfl := List.mem_singleton.mp hmem
        intro skb hskb
        rw [hfresh.apduQ_eq] at hskb
        cases hskb
  | writer h =>
    intro ccb hmem
    exact hs ccb (h.dev_eq.2.1 ▸ hmem)

/-- **The commands that wait for a MAC.** In every reachable state of every run, whatever
scripts, responses and operands it has met, each buffer in such a queue has the room for
its header in front and behind it nothing, or the five bytes of one of six commands with
the length zero: none has data. A call that fills the queue returns or ends the program
with a fault, so no thread leaves a queue half filled. -/
theorem queued_commands_bare :
    (∀ s : Sys T, Lts.Reachable (tsmSystem img T) s →
      ∀ ccb ∈ s.dev.ccbList, ∀ skb ∈ ccb.apduQ,
        skb.data = tagA0HeadRoom ∧ skb.len = skb.payload.length ∧
          (skb.payload = [] ∨
            ∃ ins ∈ queuedIns, ∃ p1 p2, skb.payload = [0x80, ins, p1, p2, 0])) ∧
    ∀ (fn : Bytecode) (u : Unspec) (ccb : Ccb) (rsp : Ptr FmBytesArray) (arg : FmBytesArray)
      (e : Stop), fn.setsBootstrap = true → fn.call u ccb rsp arg = .error e → e.IsFault := by
  refine ⟨fun s h => ?_, fun fn u ccb rsp arg e hfn hstop => ?_⟩
  · have hbare : s.dev.QueuesBare := by
      refine h.invariant ?_ fun hs hstep => SysStep.queuesBare hstep hs
      rintro s rfl
      exact List.forall_mem_nil _
    intro ccb hccb skb hskb
    obtain ⟨body, room, hl, hbody⟩ := hbare ccb hccb skb hskb
    rw [hl.payload_eq]
    exact ⟨by rw [hl.data_eq, List.length_replicate], hl.len_eq, hbody⟩
  · have hgp : fn.isGp = true := by rw [Bytecode.isGp, hfn, Bool.true_or]
    have hne : fn ≠ .gpTraverse := by
      rintro rfl
      cases hfn
    exact call_faultsOnly hgp hne e hstop

/-- What C leaves open; the memory behind the code entry reads as two slots with an agent
and a security level. -/
def authUnspec : Unspec :=
  { plainUnspec with
    operands := List.replicate 2 (some { size := 1, leng := 1, addr := 1, buf := [3] }) }

/-- The payloads that wait after `gp_ext_auth` has run for the only session. -/
theorem queued_extAuth :
    ((tsmVm (plainImage .gpExtAuth) .valueFirst authUnspec waitingDev .wild).map fun r =>
      r.1.ccbList.map fun ccb => ccb.apduQ.map Skb.payload) = .ok [[[0x80, 0x82, 3, 0, 0]]] := by
  decide +kernel

/-- EXTERNAL AUTHENTICATE for the only session, where the memory behind the code entry has
its operands; without any `gp_put_key` ends the program. -/
theorem queued_commands_bare_extAuth :
    (∃ s : Sys Unit,
      (s.dev.ccbList.map fun ccb => ccb.apduQ.map Skb.payload) = [[[0x80, 0x82, 3, 0, 0]]] ∧
        ∀ ccb ∈ s.dev.ccbList, ∀ skb ∈ ccb.apduQ,
          skb.data = tagA0HeadRoom ∧ skb.len = skb.payload.length ∧
            (skb.payload = [] ∨
              ∃ ins ∈ queuedIns, ∃ p1 p2, skb.payload = [0x80, ins, p1, p2, 0])) ∧
    Stop.IsFault .nullDeref := by
  constructor
  · have hcreate : Lts.Run (tsmSystem (plainImage .gpExtAuth) Unit) .start _
        (atRest waitingDev .wild) :=
      run_createCcb _ (newPackage 1 7 emptyResponse) rfl (plainCcb_fresh 7 2)
    have hqueued := queued_extAuth
    cases hvm : tsmVm (plainImage .gpExtAuth) .valueFirst authUnspec waitingDev .wild with
    | error e =>
      rw [hvm] at hqueued
      cases hqueued
    | ok r =>
      rw [hvm] at hqueued
      obtain ⟨c, jump, ls, -, -, -, hrun⟩ := run_tsmVm (by decide) hvm
      exact ⟨atRest r.1 r.2, Except.ok.inj hqueued,
        queued_commands_bare.1 _ ⟨_, _, rfl, hcreate.append hrun⟩⟩
  · exact (@queued_commands_bare Unit _ (plainImage .gpPutKey)).2 .gpPutKey plainUnspec
      (plainCcb 7 2) .null (fmBytesArrayAlloc 1 5) .nullDeref rfl rfl

end Runs

end TsmVm
