import TsmVm.BcData
import TsmVm.BcGp
import TsmVm.BcRsp

/-!
# What a bytecode can do to its CCB

The bytecodes of the three libraries, in the order of their headers, and the
reserved one. All later arguments about the VM use three facts about a call
that returns: where the program counter is afterwards, what the two flags are,
and that the session, the script and the bytecode table are untouched. The
bytecodes that reply never return.
-/

namespace TsmVm

/-- The functions a bytecode table can hold. -/
inductive Bytecode
  | gpSelect | gpInitUpdate | gpExtAuth | gpGetStatus | gpInstallForInstallMakeSelectable
  | gpInstallForPersonalize | gpPutKey | gpInstallForLoadAndLoad | gpInstallForExtradition
  | gpStoreData | gpTraverse | gpMsgMacing
  | rspTestTailJne | rspTestTailJe | rspTestHeadJne | rspTestHeadJe | rspIsScp02Ok
  | rspIsAppExsitJe | rspIsPersonalizedJe | rspIsCardActiveJe
  | dataSet | dataExtractRsp | dataExtract | dataAddLen | dataConcat | dataReverse
  | tsmReserve
  deriving DecidableEq, Repr

/-- `tsm_reserve`. -/
def tsmReserve : TsmBytecode := fun _ ccb _ _ => .ok (0, ccb)

/-- The function behind a name. -/
def Bytecode.call : Bytecode → TsmBytecode
  | .gpSelect => TsmVm.gpSelect
  | .gpInitUpdate => TsmVm.gpInitUpdate
  | .gpExtAuth => TsmVm.gpExtAuth
  | .gpGetStatus => TsmVm.gpGetStatus
  | .gpInstallForInstallMakeSelectable => TsmVm.gpInstallForInstallMakeSelectable
  | .gpInstallForPersonalize => TsmVm.gpInstallForPersonalize
  | .gpPutKey => TsmVm.gpPutKey
  | .gpInstallForLoadAndLoad => TsmVm.gpInstallForLoadAndLoad
  | .gpInstallForExtradition => TsmVm.gpInstallForExtradition
  | .gpStoreData => TsmVm.gpStoreData
  | .gpTraverse => TsmVm.gpTraverse
  | .gpMsgMacing => TsmVm.gpMsgMacing
  | .rspTestTailJne => TsmVm.rspTestTailJne
  | .rspTestTailJe => TsmVm.rspTestTailJe
  | .rspTestHeadJne => TsmVm.rspTestHeadJne
  | .rspTestHeadJe => TsmVm.rspTestHeadJe
  | .rspIsScp02Ok => TsmVm.rspIsScp02Ok
  | .rspIsAppExsitJe => TsmVm.rspIsAppExsitJe
  | .rspIsPersonalizedJe => TsmVm.rspIsPersonalizedJe
  | .rspIsCardActiveJe => TsmVm.rspIsCardActiveJe
  | .dataSet => TsmVm.dataSet
  | .dataExtractRsp => TsmVm.dataExtractRsp
  | .dataExtract => TsmVm.dataExtract
  | .dataAddLen => TsmVm.dataAddLen
  | .dataConcat => TsmVm.dataConcat
  | .dataReverse => TsmVm.dataReverse
  | .tsmReserve => TsmVm.tsmReserve

/-- The jump one of the four tests takes, behind the guard on its operands. -/
def rspTestJump (test : Ptr FmBytesArray → Option FmBytes → Res Bool) (jumpOn : Bool)
    (u : Unspec) (rsp : Ptr FmBytesArray) (arg : FmBytesArray) : Res (Option ℤ) :=
  if arg.size ≠ 2 then .ok none else rspTestTarget test jumpOn u rsp arg

/-- The address a call passes to `ccb_set_PC`, `none` if it does not call it. -/
def Bytecode.jump (fn : Bytecode) (u : Unspec) (ccb : Ccb) (rsp : Ptr FmBytesArray)
    (arg : FmBytesArray) : Res (Option ℤ) :=
  match fn with
  | .rspTestTailJne => rspTestJump _rspTestTail false u rsp arg
  | .rspTestTailJe => rspTestJump _rspTestTail true u rsp arg
  | .rspTestHeadJne => rspTestJump _rspTestHead true u rsp arg
  | .rspTestHeadJe => rspTestJump _rspTestHead false u rsp arg
  | .rspIsScp02Ok => rspIsScp02OkTarget u ccb arg
  | .rspIsAppExsitJe => rspIsAppExsitJeTarget u rsp arg
  | .rspIsPersonalizedJe => rspIsPersonalizedJeTarget u rsp arg
  | .rspIsCardActiveJe => rspIsCardActiveJeTarget u rsp arg
  | _ => .ok none

/-- The bytecodes that set the bootstrap flag. -/
def Bytecode.setsBootstrap : Bytecode → Bool
  | .gpExtAuth | .gpGetStatus | .gpInstallForInstallMakeSelectable | .gpInstallForPersonalize
  | .gpPutKey | .gpInstallForLoadAndLoad | .gpInstallForExtradition | .gpStoreData => true
  | _ => false

/-- The bytecodes that are to set the write-back flag. -/
def Bytecode.repliesToAgent : Bytecode → Bool
  | .gpSelect | .gpInitUpdate | .gpTraverse | .gpMsgMacing => true
  | _ => false

/-- What a returning call does to its CCB, apart from the two command queues and
the environment. -/
structure CallEffect (fn : Bytecode) (jump : Option ℤ) (ccb ccb' : Ccb) : Prop where
  /-- The program counter is the target of the jump, or unchanged. -/
  pc_eq : ccb'.pc = jump.getD ccb.pc
  /-- No bytecode changes the write-back flag of its CCB. -/
  writeBack_eq : ccb'.writeBack = ccb.writeBack
  /-- The bootstrap flag is set or unchanged. -/
  bootstrap_eq : ccb'.bootstrap = (ccb.bootstrap || fn.setsBootstrap)
  /-- The session stays. -/
  session_eq : ccb'.session = ccb.session
  /-- The script stays. -/
  se_eq : ccb'.se = ccb.se
  /-- The bytecode table stays. -/
  bc_eq : ccb'.bc = ccb.bc

section Effects

variable {u : Unspec} {ccb ccb' : Ccb} {rsp : Ptr FmBytesArray} {arg : FmBytesArray} {ret : ℤ}

/-- Writing the flag without a CCB never returns. -/
theorem setWriteBackWithoutCcb_ne_ok (c : Ccb) : setWriteBackWithoutCcb ≠ Except.ok c := by
  simp [setWriteBackWithoutCcb, ccbSetWriteBack, Ptr.deref]

/-- The bytecodes that reply to the agent pass the flag for the CCB and stop. -/
theorem call_ne_ok_of_repliesToAgent {fn : Bytecode} (h : fn.repliesToAgent = true) :
    fn.call u ccb rsp arg ≠ Except.ok (ret, ccb') := by
  intro hok
  cases fn with
  | gpSelect | gpInitUpdate | gpTraverse | gpMsgMacing =>
    simp only [Bytecode.call, TsmVm.gpSelect, TsmVm.gpInitUpdate, TsmVm.gpTraverse,
      TsmVm.gpMsgMacing, bind_eq_ok, setWriteBackWithoutCcb_ne_ok, false_and, exists_false,
      and_false] at hok
  | _ => simp [Bytecode.repliesToAgent] at h

private theorem setBootstrap_eq_ok {apduQ : List Skb} {r : ℤ}
    (h : (do let c ← ccbSetBootstrap (.obj { ccb with apduQ := apduQ }) true
             return (r, c) : Res (ℤ × Ccb)) = Except.ok (ret, ccb')) :
    ∃ q, ccb' = { ccb with apduQ := q, bootstrap := true } := by
  obtain ⟨_, rfl⟩ : _ ∧ { ccb with apduQ := apduQ, bootstrap := true } = ccb' := by
    simpa [ccbSetBootstrap, Ptr.deref] using h
  exact ⟨_, rfl⟩

/-- A cached command leaves everything but the queue and the flag. -/
theorem cacheApdu_eq_ok {make : Skb → Res (ℤ × Skb)} {r : ℤ} {agent : Option FmBytes}
    (h : cacheApdu make r u ccb agent = Except.ok (ret, ccb')) :
    ∃ q, ccb' = { ccb with apduQ := q, bootstrap := true } :=
  bind_imp (fun _ => bind_imp fun _ => bind_imp fun _ => setBootstrap_eq_ok) h

private theorem loadAndLoad_eq_ok (rsp : Ptr FmBytesArray)
    (h : gpInstallForLoadAndLoad u ccb rsp arg = Except.ok (ret, ccb')) :
    ∃ q, ccb' = { ccb with apduQ := q, bootstrap := true } := by
  unfold gpInstallForLoadAndLoad at h
  -- the queue is the only thing the steps before the flag hand on
  refine bind_imp (fun _ => ?_) h
  iterate 18 refine bind_imp fun _ => ?_
  exact setBootstrap_eq_ok

private theorem storeData_eq_ok (rsp : Ptr FmBytesArray)
    (h : gpStoreData u ccb rsp arg = Except.ok (ret, ccb')) :
    ∃ q, ccb' = { ccb with apduQ := q, bootstrap := true } :=
  bind_imp (fun _ => bind_imp fun _ => bind_imp fun _ => setBootstrap_eq_ok) h

private theorem rspTest_eq_ok {test : Ptr FmBytesArray → Option FmBytes → Res Bool} {jumpOn : Bool}
    (h : rspTest test jumpOn u ccb rsp arg = Except.ok (ret, ccb')) :
    ∃ t, rspTestJump test jumpOn u rsp arg = Except.ok t ∧ ccb' = jumpTo ccb t := by
  unfold rspTest at h
  unfold rspTestJump
  split at h
  · obtain ⟨_, rfl⟩ : _ ∧ ccb = ccb' := by simpa using h
    exact ⟨none, by simp_all, rfl⟩
  · rename_i hsize
    rw [if_neg hsize]
    obtain ⟨t, ht, hccb⟩ := bind_eq_ok.mp h
    obtain ⟨_, rfl⟩ : _ ∧ jumpTo ccb t = ccb' := by simpa using hccb
    exact ⟨t, ht, rfl⟩

private theorem jumpTo_eq_ok {target : Res (Option ℤ)}
    (h : (do let t ← target; return (0, jumpTo ccb t) : Res (ℤ × Ccb)) = Except.ok (ret, ccb')) :
    ∃ t, target = Except.ok t ∧ ccb' = jumpTo ccb t := by
  obtain ⟨t, ht, hccb⟩ := bind_eq_ok.mp h
  obtain ⟨_, rfl⟩ : _ ∧ jumpTo ccb t = ccb' := by simpa using hccb
  exact ⟨t, ht, rfl⟩

private theorem bre_eq_ok {bre : Res Bre}
    (h : (do let b ← bre; return (0, { ccb with bre := b }) : Res (ℤ × Ccb)) =
      Except.ok (ret, ccb')) : ∃ b, ccb' = { ccb with bre := b } := by
  obtain ⟨b, _, hccb⟩ := bind_eq_ok.mp h
  obtain ⟨_, rfl⟩ : _ ∧ { ccb with bre := b } = ccb' := by simpa using hccb
  exact ⟨b, rfl⟩

private theorem dataGroups_eq_ok {width : ℤ} {round : ℕ → Bre → Res Bre}
    (h : dataGroups width round ccb arg = Except.ok (ret, ccb')) :
    ∃ b, ccb' = { ccb with bre := b } := by
  unfold dataGroups at h
  split at h
  · obtain ⟨_, rfl⟩ : _ ∧ ccb = ccb' := by simpa using h
    exact ⟨ccb.bre, rfl⟩
  · exact bre_eq_ok h

/-- What a returning call leaves behind. -/
inductive CallCases (fn : Bytecode) (ccb : Ccb) : Option ℤ → Ccb → Prop
  /-- A command waits for its MAC. -/
  | cached (q : List Skb) (hfn : fn.setsBootstrap = true) :
      CallCases fn ccb none { ccb with apduQ := q, bootstrap := true }
  /-- The response was looked at. -/
  | jumped (t : Option ℤ) (hfn : fn.setsBootstrap = false) : CallCases fn ccb t (jumpTo ccb t)
  /-- A variable was bound. -/
  | bound (b : Bre) (hfn : fn.setsBootstrap = false) :
      CallCases fn ccb none { ccb with bre := b }

private theorem cached_of_eq {fn : Bytecode} (hfn : fn.setsBootstrap = true)
    (h : ∃ q, ccb' = { ccb with apduQ := q, bootstrap := true }) :
    CallCases fn ccb none ccb' := by
  obtain ⟨q, rfl⟩ := h
  exact .cached q hfn

private theorem bound_of_eq {fn : Bytecode} (hfn : fn.setsBootstrap = false)
    (h : ∃ b, ccb' = { ccb with bre := b }) : CallCases fn ccb none ccb' := by
  obtain ⟨b, rfl⟩ := h
  exact .bound b hfn

/-- A bytecode that returns has taken the jump `Bytecode.jump` computes, has
cached a command, or has bound a variable. -/
theorem call_cases {fn : Bytecode} (h : fn.call u ccb rsp arg = Except.ok (ret, ccb')) :
    ∃ t, fn.jump u ccb rsp arg = Except.ok t ∧ CallCases fn ccb t ccb' := by
  cases fn with
  | gpSelect | gpInitUpdate | gpTraverse | gpMsgMacing =>
    exact absurd h (call_ne_ok_of_repliesToAgent rfl)
  | gpExtAuth | gpGetStatus =>
    exact ⟨none, rfl, cached_of_eq rfl
      (bind_imp (fun _ => bind_imp fun _ => bind_imp fun _ => cacheApdu_eq_ok) h)⟩
  | gpInstallForInstallMakeSelectable =>
    exact ⟨none, rfl, cached_of_eq rfl
      (bind_imp (fun _ => bind_imp fun _ => bind_imp fun _ => bind_imp fun _ => bind_imp fun _ =>
        bind_imp fun _ => bind_imp fun _ => cacheApdu_eq_ok) h)⟩
  | gpInstallForPersonalize | gpPutKey =>
    exact ⟨none, rfl, cached_of_eq rfl
      (bind_imp (fun _ => bind_imp fun _ => cacheApdu_eq_ok) h)⟩
  | gpInstallForExtradition =>
    exact ⟨none, rfl, cached_of_eq rfl
      (bind_imp (fun _ => bind_imp fun _ => bind_imp fun _ => bind_imp fun _ => bind_imp fun _ =>
        cacheApdu_eq_ok) h)⟩
  | gpInstallForLoadAndLoad =>
    exact ⟨none, rfl, cached_of_eq rfl (loadAndLoad_eq_ok rsp h)⟩
  | gpStoreData => exact ⟨none, rfl, cached_of_eq rfl (storeData_eq_ok rsp h)⟩
  | rspTestTailJne | rspTestTailJe | rspTestHeadJne | rspTestHeadJe =>
    obtain ⟨t, ht, rfl⟩ := rspTest_eq_ok h
    exact ⟨t, ht, .jumped t rfl⟩
  | rspIsScp02Ok | rspIsAppExsitJe | rspIsPersonalizedJe | rspIsCardActiveJe =>
    obtain ⟨t, ht, rfl⟩ := jumpTo_eq_ok h
    exact ⟨t, ht, .jumped t rfl⟩
  | dataSet | dataExtractRsp | dataExtract | dataReverse =>
    exact ⟨none, rfl, bound_of_eq rfl (dataGroups_eq_ok h)⟩
  | dataConcat =>
    exact ⟨none, rfl, bound_of_eq rfl
      (bind_imp (fun _ => bind_imp fun _ => bind_imp fun _ => bind_imp fun _ => bind_imp fun _ =>
        bind_imp fun _ => bre_eq_ok) h)⟩
  | dataAddLen | tsmReserve =>
    obtain ⟨_, rfl⟩ : _ ∧ ccb = ccb' := by
      simpa [Bytecode.call, TsmVm.dataAddLen, TsmVm.tsmReserve] using h
    exact ⟨none, rfl, .jumped none rfl⟩

/-- **The effect of a call.** A bytecode that returns has taken the jump
`Bytecode.jump` computes, and has changed nothing but the program counter, the
bootstrap flag, the queues and the environment. -/
theorem call_effect {fn : Bytecode} (h : fn.call u ccb rsp arg = Except.ok (ret, ccb')) :
    ∃ t, fn.jump u ccb rsp arg = Except.ok t ∧ CallEffect fn t ccb ccb' := by
  obtain ⟨t, ht, hcases⟩ := call_cases h
  refine ⟨t, ht, ?_⟩
  cases hcases with
  | cached q hfn => constructor <;> simp [hfn]
  | jumped t hfn => cases t <;> constructor <;> simp [jumpTo, ccbSetPC, hfn]
  | bound b hfn => constructor <;> simp [hfn]

/-- The bytecodes that would put a command in the reply never return, and no
other bytecode touches the queue of the reply. -/
theorem call_cmdQ {fn : Bytecode} (h : fn.call u ccb rsp arg = Except.ok (ret, ccb')) :
    ccb'.cmdQ = ccb.cmdQ := by
  obtain ⟨t, -, hcases⟩ := call_cases h
  cases hcases with
  | jumped t hfn => cases t <;> rfl
  | cached | bound => rfl

end Effects

end TsmVm
