import TsmVm.CommandBatches

/-!
# Numbered STORE DATA commands (`gp_store_data`)

The data to store are named by the operands behind the agent. The loop that
makes a command of each goes on to the capacity of the operand array, and looks
the data up under the bytes of the operand structure, where nothing is bound. So
a command is made of every name whose value is empty, and of no other.
-/

namespace TsmVm

/-- A session and the operands of `gp_store_data`: an agent and names that are
bound to at most 255 bytes each. -/
structure StoredNames where
  /-- The session. -/
  ccb : Ccb
  /-- The array of operands. -/
  arg : FmBytesArray
  /-- The agent. -/
  agent : ByteString
  /-- The names. -/
  names : List ByteString
  /-- The number of spare slots. -/
  spare : ℕ
  /-- The array holds them. -/
  operands : arg.Operands (agent :: names) spare
  /-- There is a name. -/
  names_ne : names ≠ []
  /-- There are as many as can be numbered. -/
  few : names.length ≤ 256
  /-- They are bound. -/
  values : ∀ name ∈ names, ∃ v, ccb.bre.lookup name.content = some v ∧ v.Valid ∧ v.leng ≤ 255

namespace StoredNames

/-- The value bound to a name. -/
def value (s : StoredNames) (name : ByteString) : List UInt8 :=
  (s.ccb.bre.lookup name.content).elim [] FmBytes.content

/-- The bytecode leaves a STORE DATA command for each name on the queue, numbered
from zero, with the value, and the last one marked. -/
def IsStored (s : StoredNames) (u : Unspec) (rsp : Ptr FmBytesArray) : Prop :=
  ∃ ret ccb', gpStoreData u s.ccb rsp s.arg = .ok (ret, ccb') ∧
    ccb'.apduQ.length = s.names.length ∧
    ∀ (i : ℕ) (name : ByteString) (skb : Skb), s.names[i]? = some name →
      ccb'.apduQ[i]? = some skb → skb.payload =
        [0x80, 0xE2, if i + 1 = s.names.length then 0x80 else 0x00, UInt8.ofNat i,
          u8 (s.value name).length] ++ s.value name

/-- Under the bytes of the operand structure nothing is found that would be sent. -/
def FindsNothing (s : StoredNames) (name : ByteString) : Prop :=
  ∃ parm, dataGetByName s.ccb name.structBytes = .ok parm ∧ ∀ d, parm = some d → u8 d.leng = 0

end StoredNames

/-! ## One command -/

section Block

variable {u : Unspec} {ccb : Ccb} {agent : ByteString} {arg : FmBytesArray}

/-- The command the loop makes of a name. -/
def storeBlock (u : Unspec) (ccb : Ccb) (agent : ByteString) (arg : FmBytesArray) (i : ℕ)
    (blkNum : UInt8) (name : ByteString) : Res Skb := do
  let parm ← dataGetByName ccb name.structBytes
  let (_, skb) ← _gpStoreData (if (i : ℤ) = arg.size - 1 then 0x80 else 0x00) blkNum parm
    (freshCommand u i agent)
  return skb

/-- A round of the loop queues a command. -/
theorem storeDataLoop_succ {operands : List ByteString} {spare : ℕ}
    (harg : arg.Operands operands spare) {i : ℕ} {name : ByteString}
    (hname : operands[i]? = some name) (n : ℕ) (blkNum : UInt8) (q : List Skb) :
    storeDataLoop u ccb (some agent.toFmBytes) arg (n + 1) i blkNum q =
      storeBlock u ccb agent arg i blkNum name >>= fun skb =>
        storeDataLoop u ccb (some agent.toFmBytes) arg n (i + 1) (blkNum + 1) (q ++ [skb]) := by
  rw [storeDataLoop, apduPreprocess_agent, ok_bind, harg.at_eq hname, ok_bind, derefOption_some,
    ok_bind, storeBlock]
  generalize freshCommand u i agent = skb
  cases dataGetByName ccb name.structBytes with
  | error e => rfl
  | ok parm =>
    rw [ok_bind, ok_bind, bind_assoc]
    rfl

/-- A spare slot is the end of it. -/
theorem storeDataLoop_spare {operands : List ByteString} {spare : ℕ}
    (harg : arg.Operands operands spare) {i : ℕ} (hle : operands.length ≤ i)
    (hlt : i < operands.length + spare) (n : ℕ) (blkNum : UInt8) (q : List Skb) :
    storeDataLoop u ccb (some agent.toFmBytes) arg (n + 1) i blkNum q = .error .nullDeref := by
  rw [storeDataLoop, apduPreprocess_agent, ok_bind, harg.at_spare hle hlt]
  rfl

/-- The header of a command. -/
theorem OutBuffer.payload_append {n : ℕ} (out : OutBuffer n) (bs : List UInt8) :
    (out.append bs).payload = out.body ++ bs := by
  unfold Skb.payload OutBuffer.append
  dsimp only
  rw [out.layout.data_eq, out.layout.len_eq, List.append_assoc, List.drop_left,
    ← List.length_append, List.take_left]

/-- A command that is made is a header without data, where nothing is found, or
it is empty. -/
theorem storeBlock_eq_ok {i : ℕ} {blkNum : UInt8} {name : ByteString} {skb : Skb}
    (h : storeBlock u ccb agent arg i blkNum name = .ok skb) :
    (∃ parm, dataGetByName ccb name.structBytes = .ok parm ∧
      ∀ d, parm = some d → u8 d.leng = 0) ∧
      skb.payload = [0x80, 0xE2, if (i : ℤ) = arg.size - 1 then 0x80 else 0x00, blkNum, 0] ∨
    skb.payload = [] := by
  obtain ⟨parm, hparm, h⟩ := bind_eq_ok.mp h
  obtain ⟨⟨r, made⟩, hmade, h⟩ := bind_eq_ok.mp h
  obtain rfl := Except.ok.inj h
  have hmade : _gpMakeApdu 0x80 0xE2 _ blkNum parm
      (commandBuffer (apduPreprocess_agent u i agent)).toSkb = .ok (r, made) := hmade
  by_cases hdata : ∀ d, parm = some d → u8 d.leng = 0
  · rw [_gpMakeApdu_empty _ hdata] at hmade
    obtain rfl := congrArg Prod.snd (Except.ok.inj hmade)
    exact .inl ⟨⟨parm, hparm, hdata⟩, OutBuffer.payload_append _ _⟩
  · push Not at hdata
    obtain ⟨d, rfl, hlen⟩ := hdata
    obtain rfl := congrArg Prod.snd (_gpMakeApdu_refused _ hlen hmade).2
    exact .inr (apduPreprocess_layout (apduPreprocess_agent u i agent)).payload_eq

/-- Where nothing is found it is made. -/
theorem exists_storeBlock (u : Unspec) (agent : ByteString) (arg : FmBytesArray) (i : ℕ)
    (blkNum : UInt8) {name : ByteString} {parm : Option FmBytes}
    (hparm : dataGetByName ccb name.structBytes = .ok parm)
    (hdata : ∀ d, parm = some d → u8 d.leng = 0) :
    ∃ skb, storeBlock u ccb agent arg i blkNum name = .ok skb ∧
      skb.payload = [0x80, 0xE2, if (i : ℤ) = arg.size - 1 then 0x80 else 0x00, blkNum, 0] := by
  let out := commandBuffer (apduPreprocess_agent u i agent)
  generalize hp1 : (if (i : ℤ) = arg.size - 1 then 0x80 else 0x00 : UInt8) = p1
  have hmade : _gpStoreData p1 blkNum parm (freshCommand u i agent) =
      .ok (fmOk, out.append [0x80, 0xE2, p1, blkNum, 0]) := _gpMakeApdu_empty out hdata
  refine ⟨out.append [0x80, 0xE2, p1, blkNum, 0], ?_, out.payload_append _⟩
  rw [storeBlock, hparm, ok_bind, hp1, hmade]
  rfl

/-! ## The loop -/

/-- **What the loop queues.** It comes to its end where no slot is spare, and a
command of every name is on the queue then. -/
theorem storeDataLoop_eq_ok {operands : List ByteString} (names : List ByteString) {spare i : ℕ}
    {blkNum : UInt8} {q q' : List Skb} (harg : arg.Operands operands spare)
    (hnames : operands.drop i = names) (hi : i + names.length = operands.length)
    (h : storeDataLoop u ccb (some agent.toFmBytes) arg (names.length + spare) i blkNum q =
      .ok q') :
    spare = 0 ∧ ∃ blocks, q' = q ++ blocks ∧ blocks.length = names.length ∧
      ∀ (j : ℕ) (name : ByteString) (skb : Skb), names[j]? = some name → blocks[j]? = some skb →
        storeBlock u ccb agent arg (i + j) (blkNum + UInt8.ofNat j) name = .ok skb := by
  induction names generalizing i blkNum q with
  | nil =>
    simp only [List.length_nil] at hi
    rw [List.length_nil, Nat.zero_add] at h
    cases spare with
    | zero =>
      obtain rfl := Except.ok.inj h
      exact ⟨rfl, [], (List.append_nil _).symm, rfl, by simp⟩
    | succ n =>
      rw [storeDataLoop_spare harg (by omega) (by omega)] at h
      cases h
  | cons name names ih =>
    simp only [List.length_cons] at hi
    obtain ⟨hname, hrest⟩ := next_of_drop hnames
    rw [List.length_cons, Nat.add_right_comm, storeDataLoop_succ harg hname] at h
    obtain ⟨skb, hskb, h⟩ := bind_eq_ok.mp h
    obtain ⟨hspare, blocks, rfl, hlen, hblocks⟩ := ih hrest (by omega) h
    refine ⟨hspare, skb :: blocks, by simp, by simp [hlen], fun j name' skb' hname' hskb' => ?_⟩
    cases j with
    | zero =>
      obtain rfl : name = name' := by simpa using hname'
      obtain rfl : skb = skb' := by simpa using hskb'
      simpa using hskb
    | succ j =>
      have hblock := hblocks j name' skb' (by simpa using hname') (by simpa using hskb')
      rw [show i + 1 + j = i + (j + 1) by omega] at hblock
      rw [show blkNum + UInt8.ofNat (j + 1) = blkNum + 1 + UInt8.ofNat j by
        rw [UInt8.ofNat_add, UInt8.add_comm (UInt8.ofNat j), UInt8.add_assoc]
        rfl]
      exact hblock

/-- It comes to its end where nothing is found of any name. -/
theorem exists_storeDataLoop (u : Unspec) (agent : ByteString) {operands names : List ByteString}
    {i : ℕ} (blkNum : UInt8) (q : List Skb) (harg : arg.Operands operands 0)
    (hnames : operands.drop i = names)
    (hfinds : ∀ name ∈ names, ∃ parm, dataGetByName ccb name.structBytes = .ok parm ∧
      ∀ d, parm = some d → u8 d.leng = 0) :
    ∃ q', storeDataLoop u ccb (some agent.toFmBytes) arg names.length i blkNum q = .ok q' := by
  induction names generalizing i blkNum q with
  | nil => exact ⟨q, rfl⟩
  | cons name names ih =>
    obtain ⟨hname, hrest⟩ := next_of_drop hnames
    obtain ⟨⟨parm, hparm, hdata⟩, hfinds⟩ := List.forall_mem_cons.mp hfinds
    obtain ⟨skb, hskb, -⟩ := exists_storeBlock u agent arg i blkNum hparm hdata
    obtain ⟨q', hq'⟩ := ih (blkNum + 1) (q ++ [skb]) hrest hfinds
    exact ⟨q', by rw [List.length_cons, storeDataLoop_succ harg hname, hskb, ok_bind, hq']⟩

end Block

/-! ## The bytecode -/

/-- What is left of the bytecode once its loop has run. -/
theorem gpStoreData_eq_ok_iff (s : StoredNames) {u : Unspec} {rsp : Ptr FmBytesArray} {ret : ℤ}
    {ccb' : Ccb} :
    gpStoreData u s.ccb rsp s.arg = .ok (ret, ccb') ↔
      (∃ q, skbQueuePurge s.ccb.apduQ = .ok q) ∧ ∃ queue,
        storeDataLoop u s.ccb (some s.agent.toFmBytes) s.arg (s.names.length + s.spare) 1 0 [] =
          .ok queue ∧ ret = 0 ∧ ccb' = { s.ccb with apduQ := queue, bootstrap := true } := by
  have hsize := s.operands.size_eq
  have hrounds : (s.arg.size - 1).toNat = s.names.length + s.spare := by
    rw [List.length_cons] at hsize
    omega
  have hagent : s.arg.at 0 = .ok (some s.agent.toFmBytes) := s.operands.at_eq (i := 0) rfl
  rw [gpStoreData, hagent, ok_bind, hrounds]
  constructor
  · intro h
    obtain ⟨q, hq, h⟩ := bind_eq_ok.mp h
    obtain rfl := skbQueuePurge_eq_nil hq
    obtain ⟨queue, hqueue, h⟩ := bind_eq_ok.mp h
    obtain ⟨rfl, rfl⟩ : 0 = ret ∧ { s.ccb with apduQ := queue, bootstrap := true } = ccb' := by
      simpa [ccbSetBootstrap, Ptr.deref] using h
    exact ⟨⟨[], hq⟩, queue, hqueue, rfl, rfl⟩
  · rintro ⟨⟨q, hq⟩, queue, hqueue, rfl, rfl⟩
    obtain rfl := skbQueuePurge_eq_nil hq
    rw [hq, ok_bind, hqueue]
    rfl

/-- The number of rounds it takes from the first name on. -/
theorem StoredNames.one_add_length (s : StoredNames) :
    1 + s.names.length = (s.agent :: s.names).length := by
  rw [List.length_cons, Nat.add_comm]

/-- Names that are stored. -/
theorem StoredNames.of_isStored (s : StoredNames) {u : Unspec} {rsp : Ptr FmBytesArray}
    (h : s.IsStored u rsp) : s.spare = 0 ∧ (∃ q, skbQueuePurge s.ccb.apduQ = .ok q) ∧
      ∀ name ∈ s.names, s.value name = [] ∧ s.FindsNothing name := by
  obtain ⟨ret, ccb', hcall, hlen, hpayloads⟩ := h
  obtain ⟨hpurge, queue, hqueue, rfl, rfl⟩ := (gpStoreData_eq_ok_iff s).mp hcall
  obtain ⟨hspare, blocks, hqueue_eq, hblocks_len, hblocks⟩ :=
    storeDataLoop_eq_ok s.names s.operands rfl s.one_add_length hqueue
  rw [List.nil_append] at hqueue_eq
  subst queue
  refine ⟨hspare, hpurge, fun name hname => ?_⟩
  obtain ⟨j, hj⟩ := List.mem_iff_getElem?.mp hname
  have hlt : j < blocks.length := hblocks_len ▸ (List.getElem?_eq_some_iff.mp hj).1
  have hskb : blocks[j]? = some blocks[j] := List.getElem?_eq_getElem hlt
  have hpayload := hpayloads j name blocks[j] hj hskb
  obtain ⟨hfinds, hheader⟩ | hempty := storeBlock_eq_ok (hblocks j name blocks[j] hj hskb)
  · rw [hheader] at hpayload
    have hlen := congrArg List.length hpayload
    simp only [List.length_append, List.length_cons, List.length_nil] at hlen
    exact ⟨List.length_eq_zero_iff.mp (by omega), hfinds⟩
  · rw [hempty] at hpayload
    cases hpayload

/-- **Which names are stored**: all of them are where no slot of the array is
spare, every value is empty, and nothing is found under the bytes of the operand
structures. -/
theorem isStored_iff (s : StoredNames) (u : Unspec) (rsp : Ptr FmBytesArray) :
    s.IsStored u rsp ↔ s.spare = 0 ∧ (∃ q, skbQueuePurge s.ccb.apduQ = .ok q) ∧
      ∀ name ∈ s.names, s.value name = [] ∧ s.FindsNothing name := by
  refine ⟨s.of_isStored, ?_⟩
  rintro ⟨hspare, hpurge, hnames⟩
  have hsize := s.operands.size_eq
  rw [List.length_cons] at hsize
  have harg := s.operands
  rw [hspare] at harg
  obtain ⟨queue, hqueue⟩ := exists_storeDataLoop u s.agent (i := 1) 0 [] harg rfl
    fun name hname => (hnames name hname).2
  obtain ⟨-, blocks, hqueue_eq, hblocks_len, hblocks⟩ :=
    storeDataLoop_eq_ok s.names harg rfl s.one_add_length hqueue
  rw [List.nil_append] at hqueue_eq
  subst queue
  have hloop : storeDataLoop u s.ccb (some s.agent.toFmBytes) s.arg (s.names.length + s.spare)
      1 0 [] = .ok blocks := by
    rw [hspare]
    exact hqueue
  refine ⟨0, _, (gpStoreData_eq_ok_iff s).mpr ⟨hpurge, blocks, hloop, rfl, rfl⟩, hblocks_len,
    fun j name skb hname hskb => ?_⟩
  obtain ⟨hvalue, parm, hparm, hdata⟩ := hnames name (List.mem_of_getElem? hname)
  obtain ⟨skb', hskb', hpayload⟩ := exists_storeBlock u s.agent s.arg (1 + j)
    (0 + UInt8.ofNat j) hparm hdata
  obtain rfl := Except.ok.inj (hskb'.symm.trans (hblocks j name skb hname hskb))
  have hlast : ((1 + j : ℕ) : ℤ) = s.arg.size - 1 ↔ j + 1 = s.names.length := by
    omega
  rw [hpayload, hvalue, UInt8.zero_add]
  simp only [hlast]
  rfl

/-- One name, bound to one byte, in an array of the loader. -/
def oneStoredName : StoredNames where
  ccb := { plainCcb 7 2 with
           bre := [⟨⟨[0x6E], none⟩, some (ByteString.of [0x2A]).toFmBytes, false⟩] }
  arg := { addr := 1, size := 5, cnt := 2,
           array := [some (ByteString.of [0x61]).toFmBytes, some (ByteString.of [0x6E]).toFmBytes,
             none, none, none] }
  agent := .of [0x61]
  names := [.of [0x6E]]
  spare := 3
  operands := ⟨rfl, rfl, rfl⟩
  names_ne := List.cons_ne_nil _ _
  few := by decide
  values := by
    intro name hname
    obtain rfl := List.mem_singleton.mp hname
    exact ⟨_, rfl, (ByteString.of [0x2A]).valid, by decide⟩

/-- It is not stored: the loop reads the spare slots. -/
theorem oneStoredName_fail : ¬ ∀ u rsp, oneStoredName.IsStored u rsp := by
  intro h
  have hspare := (oneStoredName.of_isStored (h plainUnspec .null)).1
  cases hspare

end TsmVm
