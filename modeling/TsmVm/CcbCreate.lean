import TsmVm.Ccb

/-!
# Creating a session (`ccb_create_ccb`)

The request of a client names the session, a script and the libraries whose
bytecodes the script uses. The model follows the source with the local `dl`,
which is never assigned; what the two loaders find is a parameter. The table a
session gets is the one `ccb_alloc_bc` makes: its last slot is `NULL`, so it
never is the table the request asks for.
-/

namespace TsmVm

/-- `bc_set_t`: the functions of a loaded library, by address. -/
structure BcSet where
  /-- Name of the library. -/
  name : List UInt8
  /-- Number of its first bytecode. -/
  base : ℤ
  /-- Addresses of its functions. -/
  bc : List ℕ
  /-- `dlsym` has found every one of them. -/
  bc_ne_zero : ∀ p ∈ bc, p ≠ 0

/-- Number of functions of a library. -/
def BcSet.cnt (s : BcSet) : ℤ := s.bc.length

theorem BcSet.cnt_of_empty {s : BcSet} (h : s.bc = []) : s.cnt = 0 := by
  rw [cnt, h, List.length_nil, Nat.cast_zero]

/-- The memory at `bc`. -/
def BcSet.bytes (s : BcSet) : List UInt8 := s.bc.flatMap (leBytes 8)

/-- `router_tlv_t`, as far as it is read here. -/
structure RouterTlv where
  /-- Kind of the entry. -/
  tag : UInt8
  /-- The memory at `val`. -/
  val : List UInt8

/-- `TAG_SESSION`. -/
def tagSession : UInt8 := 0x10

/-- `TAG_DLL`. -/
def tagDll : UInt8 := 0x11

/-- `TAG_SCRIPT`. -/
def tagScript : UInt8 := 0x12

/-- What the creation of a session depends on besides its arguments. -/
structure CreateEnv where
  /-- Address of `tsm_reserve`. -/
  reserve : ℕ
  /-- No function lies at `NULL`. -/
  reserve_ne_zero : reserve ≠ 0
  /-- What the unassigned local `dl` points to. -/
  dl : Ptr (List UInt8)
  /-- What `scloader_load` finds under a name. -/
  scloader : List UInt8 → Option ScriptEntry
  /-- What `bcloader_load` finds under a path. -/
  bcloader : List UInt8 → Option BcSet

/-- `BYTE_CODE_DEFAULT_SIZE`. -/
def byteCodeDefaultSize : ℕ := 512

/-- `ccb_alloc_bc`. -/
def ccbAllocBc (e : CreateEnv) : Res ByteCode := do
  let bc ← memsetInt (List.replicate (8 * byteCodeDefaultSize) 0) e.reserve byteCodeDefaultSize
  return { cnt := byteCodeDefaultSize, bc := bc }

/-- The loop of `ccb_add_bc` that grows the table; the first argument bounds the
rounds, each of which makes it larger by one at least if it makes it larger. -/
def ccbGrow (limit : ℤ) : ℕ → ℤ → Res ℤ
  | 0, cnt => if cnt < limit then .error .hang else .ok cnt
  | n + 1, cnt => if cnt < limit then ccbGrow limit n (cnt + cnt / 2) else .ok cnt

/-- `ccb_add_bc`. The offset of the new functions is counted in slots already
and multiplied by the size of a slot once more. -/
def ccbAddBc (e : CreateEnv) (bcs : Option BcSet) (bc : ByteCode) : Res ByteCode := do
  let bcs ← derefOption bcs
  let limit := bcs.base + bcs.cnt
  let cnt ← ccbGrow limit (limit - bc.cnt).toNat bc.cnt
  let p ← memsetInt (List.replicate (8 * cnt.toNat) 0) e.reserve cnt
  let p ← memcpyInt p bc.bc bc.cnt
  let offset := (64 * bc.cnt).toNat
  let tail ← memcpyInt (p.drop offset) bcs.bytes bcs.cnt
  return { cnt := cnt, bc := p.take offset ++ tail }

/-- The inner loop of `ccb_create_ccb`: the loaded library called `dl`. -/
def findSet (dl : Ptr (List UInt8)) : List BcSet → Res (Option BcSet)
  | [] => .ok none
  | set :: bcList => do
    let name ← dl.deref
    if set.name = name then return some set else findSet dl bcList

/-- `bcloader_load`: a library that is found joins the list. -/
def bcloaderLoad (e : CreateEnv) (bcList : List BcSet) : Res (Option BcSet × List BcSet) := do
  let path ← e.dl.deref
  match e.bcloader path with
  | none => return (none, bcList)
  | some set => return (some set, bcList ++ [set])

/-- The body of the last loop of `ccb_create_ccb` for a `TAG_DLL` entry. The
library joins the table `if(!temp_set)`. -/
def ccbLoadDll (e : CreateEnv) (bc : ByteCode) (bcList : List BcSet) :
    Res (ByteCode × List BcSet) := do
  let found ← findSet e.dl bcList
  let loaded ← (if found.isSome then .ok (found, bcList) else bcloaderLoad e bcList)
  let bc ← (if loaded.1.isNone then ccbAddBc e loaded.1 bc else .ok bc)
  return (bc, loaded.2)

/-- The last loop of `ccb_create_ccb`. -/
def ccbLoadDlls (e : CreateEnv) : List RouterTlv → ByteCode → List BcSet →
    Res (ByteCode × List BcSet)
  | [], bc, bcList => .ok (bc, bcList)
  | node :: tlv, bc, bcList =>
    if node.tag = tagDll then do
      let next ← ccbLoadDll e bc bcList
      ccbLoadDlls e tlv next.1 next.2
    else ccbLoadDlls e tlv bc bcList

/-- The session of the first `TAG_SESSION` entry. -/
def ccbSessionOf (tlv : List RouterTlv) : Res ℤ :=
  match tlv.find? (·.tag = tagSession) with
  | none => .ok 0
  | some node => atoi node.val

/-- The script of the first `TAG_SCRIPT` entry. -/
def ccbScriptOf (e : CreateEnv) (tlv : List RouterTlv) : Res (Option ScriptEntry) :=
  match tlv.find? (·.tag = tagScript) with
  | none => .ok none
  | some node => do
    let name ← cString node.val
    return e.scloader name

/-- `ccb_create_ccb`: the CCB and the list of loaded libraries. -/
def ccbCreateCcb (e : CreateEnv) (bcList : List BcSet) (tlv : List RouterTlv) :
    Res (Ccb × List BcSet) := do
  let session ← ccbSessionOf tlv
  let se ← ccbScriptOf e tlv
  let bc ← ccbAllocBc e
  let loaded ← ccbLoadDlls e tlv bc bcList
  return ({ pc := 0, writeBack := false, bootstrap := false, session := session, cmdQ := [],
            apduQ := [], bc := loaded.1, se := se, bre := [] }, loaded.2)

/-- A CCB as `ccb_create_ccb` leaves it: cleared by `calloc` but for the
session, the script and the bytecode table. -/
structure Ccb.Fresh (ccb : Ccb) : Prop where
  /-- The script starts at its first entry. -/
  pc_eq : ccb.pc = 0
  /-- No reply is due. -/
  writeBack_eq : ccb.writeBack = false
  /-- No package is to be put back. -/
  bootstrap_eq : ccb.bootstrap = false
  /-- No command is queued. -/
  cmdQ_eq : ccb.cmdQ = []
  /-- No command waits for a MAC. -/
  apduQ_eq : ccb.apduQ = []
  /-- No variable is bound. -/
  bre_eq : ccb.bre = []

/-- Every CCB the source creates is one. -/
theorem ccbCreateCcb_fresh {e : CreateEnv} {bcList bcList' : List BcSet} {tlv : List RouterTlv}
    {ccb : Ccb} (h : ccbCreateCcb e bcList tlv = .ok (ccb, bcList')) : ccb.Fresh := by
  obtain ⟨session, -, h⟩ := bind_eq_ok.mp h
  obtain ⟨se, -, h⟩ := bind_eq_ok.mp h
  obtain ⟨bc, -, h⟩ := bind_eq_ok.mp h
  obtain ⟨loaded, -, h⟩ := bind_eq_ok.mp h
  obtain ⟨rfl, -⟩ : _ = ccb ∧ loaded.2 = bcList' := by simpa using h
  constructor <;> rfl

/-- The table of a created CCB is what the libraries make of a new one. -/
theorem ccbCreateCcb_eq_ok {e : CreateEnv} {bcList bcList' : List BcSet} {tlv : List RouterTlv}
    {ccb : Ccb} (h : ccbCreateCcb e bcList tlv = .ok (ccb, bcList')) :
    ∃ bc, ccbAllocBc e = .ok bc ∧ ccbLoadDlls e tlv bc bcList = .ok (ccb.bc, bcList') := by
  obtain ⟨session, -, h⟩ := bind_eq_ok.mp h
  obtain ⟨se, -, h⟩ := bind_eq_ok.mp h
  obtain ⟨bc, hbc, h⟩ := bind_eq_ok.mp h
  obtain ⟨loaded, hloaded, h⟩ := bind_eq_ok.mp h
  obtain ⟨rfl, rfl⟩ : _ = ccb ∧ loaded.2 = bcList' := by simpa using h
  exact ⟨bc, hbc, hloaded⟩

/-- A CCB is created where its parts are found. -/
theorem ccbCreateCcb_of_parts {e : CreateEnv} {bcList bcList' : List BcSet} {tlv : List RouterTlv}
    {session : ℤ} {se : Option ScriptEntry} {t t' : ByteCode}
    (hsession : ccbSessionOf tlv = .ok session) (hse : ccbScriptOf e tlv = .ok se)
    (ht : ccbAllocBc e = .ok t) (hdlls : ccbLoadDlls e tlv t bcList = .ok (t', bcList')) :
    ∃ ccb, ccbCreateCcb e bcList tlv = .ok (ccb, bcList') ∧ ccb.session = session ∧ ccb.se = se ∧
      ccb.bc = t' := by
  refine ⟨{ pc := 0, writeBack := false, bootstrap := false, session := session, cmdQ := [],
            apduQ := [], bc := t', se := se, bre := [] }, ?_, rfl, rfl, rfl⟩
  unfold ccbCreateCcb
  simp only [hsession, hse, ht, hdlls, ok_bind, pure_eq_ok]

/-- A library that is found or loaded does not join the table, and one that is
not stops the creation. -/
theorem ccbLoadDll_bc {e : CreateEnv} {bc : ByteCode} {bcList : List BcSet}
    {r : ByteCode × List BcSet} (h : ccbLoadDll e bc bcList = .ok r) : r.1 = bc := by
  obtain ⟨found, -, h⟩ := bind_eq_ok.mp h
  obtain ⟨⟨set, bcList'⟩, -, h⟩ := bind_eq_ok.mp h
  obtain ⟨bc', hadd, h⟩ := bind_eq_ok.mp h
  obtain rfl : (bc', bcList') = r := by simpa using h
  cases set with
  | none =>
    have hnull : ccbAddBc e none bc = .ok bc' := hadd
    cases hnull
  | some set => exact (Except.ok.inj hadd).symm

/-- So the table stays as it was allocated. -/
theorem ccbLoadDlls_bc {e : CreateEnv} {tlv : List RouterTlv} {bc : ByteCode}
    {bcList : List BcSet} {r : ByteCode × List BcSet} (h : ccbLoadDlls e tlv bc bcList = .ok r) :
    r.1 = bc := by
  induction tlv generalizing bc bcList with
  | nil => exact congrArg Prod.fst (Except.ok.inj h).symm
  | cons node tlv ih =>
    unfold ccbLoadDlls at h
    split at h
    · obtain ⟨next, hnext, h⟩ := bind_eq_ok.mp h
      exact (ih h).trans (ccbLoadDll_bc hnext)
    · exact ih h

/-- A table can always be allocated. Its last slot is `NULL`. -/
theorem ccbAllocBc_ok (e : CreateEnv) :
    ∃ t, ccbAllocBc e = .ok t ∧ t.cnt = 512 ∧ t.slot 511 = .ok 0 := by
  obtain ⟨mem, hset, -, hzero⟩ := memsetInt_zeros e.reserve (n := 512) (by decide)
  refine ⟨{ cnt := 512, bc := mem }, ?_, rfl, slot_zero (j := 511) fun i hi hlt => ?_⟩
  · rw [ccbAllocBc, byteCodeDefaultSize, hset]
    rfl
  · exact hzero i (by omega) (by omega)

theorem ccbAllocBc_last {e : CreateEnv} {t : ByteCode} (h : ccbAllocBc e = .ok t) :
    t.cnt = 512 ∧ t.slot 511 = .ok 0 := by
  obtain ⟨t', halloc, hlast⟩ := ccbAllocBc_ok e
  obtain rfl := Except.ok.inj (halloc.symm.trans h)
  exact hlast

/-- What the request asks the table to be: the functions of the libraries at
their numbers, and `tsm_reserve` everywhere else. -/
structure TableFor (reserve : ℕ) (libs : List BcSet) (t : ByteCode) : Prop where
  /-- The functions of the libraries. -/
  functions : ∀ lib ∈ libs, ∀ (i p : ℕ), lib.bc[i]? = some p → t.slot (lib.base + i) = .ok p
  /-- All other slots. -/
  others : ∀ op : ℕ, (op : ℤ) < t.cnt →
    (∀ lib ∈ libs, ¬ (lib.base ≤ op ∧ (op : ℤ) < lib.base + lib.cnt)) → t.slot op = .ok reserve

/-- A table with `NULL` in a slot is not the one any request asks for. -/
theorem TableFor.slot_ne_zero {reserve : ℕ} {libs : List BcSet} {t : ByteCode}
    (h : TableFor reserve libs t) (hreserve : reserve ≠ 0) (op : ℕ) (hop : (op : ℤ) < t.cnt) :
    t.slot op ≠ .ok 0 := by
  intro hzero
  by_cases hlib : ∃ lib ∈ libs, lib.base ≤ op ∧ (op : ℤ) < lib.base + lib.cnt
  · obtain ⟨lib, hmem, hlow, hhigh⟩ := hlib
    have hi : ((op : ℤ) - lib.base).toNat < lib.bc.length := by
      unfold BcSet.cnt at hhigh
      omega
    have hpos : lib.base + (((op : ℤ) - lib.base).toNat : ℤ) = op := by omega
    have hslot := h.functions lib hmem _ _ (List.getElem?_eq_getElem hi)
    rw [hpos, hzero] at hslot
    exact lib.bc_ne_zero _ (List.getElem_mem hi) (Except.ok.inj hslot).symm
  · have hslot := h.others op hop fun lib hmem hin => hlib ⟨lib, hmem, hin⟩
    rw [hzero] at hslot
    exact hreserve (Except.ok.inj hslot).symm

/-- The names of the libraries a request asks for. -/
def requestedNames (tlv : List RouterTlv) : List (List UInt8) :=
  tlv.filterMap fun node =>
    if node.tag = tagDll then (cString node.val).toOption else none

/-- The libraries a request asks for: the loaded ones, and those the loader finds. -/
def requestedLibs (e : CreateEnv) (bcList : List BcSet) (tlv : List RouterTlv) : List BcSet :=
  (requestedNames tlv).filterMap fun name =>
    (bcList.find? (·.name = name)).or (e.bcloader name)

/-- The session gets the table its request asks for, and no library that is
loaded already is loaded again. -/
def CreatesTable (e : CreateEnv) (bcList : List BcSet) (tlv : List RouterTlv) : Prop :=
  ∃ ccb bcList', ccbCreateCcb e bcList tlv = .ok (ccb, bcList') ∧
    TableFor e.reserve (requestedLibs e bcList tlv) ccb.bc ∧
    bcList'.length ≤ bcList.length +
      ((requestedNames tlv).dedup.filter fun name => bcList.all (·.name ≠ name)).length

/-- **No session gets its table**, whatever is loaded, requested, and found in the
variable that should hold the name of a library. -/
theorem table_never_created (e : CreateEnv) (bcList : List BcSet) (tlv : List RouterTlv) :
    ¬ CreatesTable e bcList tlv := by
  rintro ⟨ccb, bcList', hcreate, htable, -⟩
  obtain ⟨bc, halloc, hload⟩ := ccbCreateCcb_eq_ok hcreate
  obtain rfl : ccb.bc = bc := ccbLoadDlls_bc hload
  obtain ⟨hcnt, hlast⟩ := ccbAllocBc_last halloc
  exact htable.slot_ne_zero e.reserve_ne_zero 511 (by rw [hcnt]; decide) hlast

/-- A loader that finds one library, of one function, under every path. -/
def oneLibEnv : CreateEnv :=
  { reserve := 0x401000, reserve_ne_zero := by decide, dl := .obj [0x61], scloader := fun _ => none,
    bcloader := fun name => some { name := name, base := 0, bc := [0x402000],
                                   bc_ne_zero := by decide } }

/-- A request for session 7 and a library whose name is in `dl` by chance. -/
def oneLibRequest : List RouterTlv := [⟨tagSession, [0x37, 0]⟩, ⟨tagDll, [0x61, 0]⟩]

/-- Even then the library does not get into the table. -/
theorem table_creation_fails : ¬ ∀ (e : CreateEnv) (bcList : List BcSet) (tlv : List RouterTlv),
    (requestedLibs e bcList tlv).Pairwise
      (fun a b => a.base + a.cnt ≤ b.base ∨ b.base + b.cnt ≤ a.base) → CreatesTable e bcList tlv := by
  intro h
  have hdisjoint : (requestedLibs oneLibEnv [] oneLibRequest).length = 1 := rfl
  obtain ⟨lib, hlib⟩ := List.length_eq_one_iff.mp hdisjoint
  obtain ⟨ccb, bcList', hcreate, htable, -⟩ := h oneLibEnv [] oneLibRequest (by simp [hlib])
  obtain ⟨bc, halloc, hload⟩ := ccbCreateCcb_eq_ok hcreate
  obtain rfl : ccb.bc = bc := ccbLoadDlls_bc hload
  obtain ⟨hcnt, hlast⟩ := ccbAllocBc_last halloc
  exact htable.slot_ne_zero oneLibEnv.reserve_ne_zero 511 (by rw [hcnt]; decide) hlast

end TsmVm
