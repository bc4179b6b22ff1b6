import TsmVm.Concurrent
import Mathlib.Data.Nat.Digits.Defs

/-!
# Loading code on a card (`gp_install_for_load_and_load`)

The content of a CAP file is to be sent in LOAD commands of at most 255 bytes,
behind a tag and its length, in numbered blocks the last of which is marked. The
variable that `_gp_make_apdu` keeps the address of the data in is a `u8`, so a
command either has no data, or is never finished. No command longer than its
header is ever queued.
-/

namespace TsmVm

/-- The length of a BER-TLV object: one byte below 128, otherwise the number of
bytes that follow, marked by the top bit. -/
def berLength (n : ℕ) : List UInt8 :=
  if n < 128 then [u8 n]
  else
    let digits := (Nat.digits 256 n).reverse.map UInt8.ofNat
    u8 (128 + digits.length : ℕ) :: digits

/-- A LOAD command with its block number, whether it is the last, and its data. -/
structure IsLoad (skb : Skb) (last : Bool) (block : ℕ) (data : List UInt8) : Prop where
  /-- The bytes of the command. -/
  payload_eq : skb.payload =
    [0x80, 0xE8, if last then 0x80 else 0, UInt8.ofNat block, u8 data.length] ++ data
  /-- The length fits into its byte. -/
  data_le : data.length ≤ 255

/-- The bytecode queues an INSTALL command, and behind it LOAD commands that carry
the content block by block. -/
def LoadsCap (u : Unspec) (ccb : Ccb) (rsp : Ptr FmBytesArray) (arg : FmBytesArray)
    (content : List UInt8) : Prop :=
  ∃ (ret : ℤ) (ccb' : Ccb) (install : Skb) (loads : List Skb) (blocks : List (List UInt8)),
    gpInstallForLoadAndLoad u ccb rsp arg = .ok (ret, ccb') ∧
    ccb'.apduQ = install :: loads ∧ loads.length = blocks.length ∧
    (∀ (k : ℕ) (skb : Skb) (data : List UInt8), loads[k]? = some skb → blocks[k]? = some data →
      IsLoad skb (k + 1 = loads.length) k data) ∧
    blocks.flatten = 0xC4 :: berLength content.length ++ content

/-- The CAP content of a session, which fits into 256 blocks: the first may carry
288 bytes of it, each of the others 232. -/
structure CapContent (ccb : Ccb) (content : List UInt8) : Prop where
  /-- The variable that holds it. -/
  bound : ∃ v, dataGetByLiteral ccb "cap content" = .ok (some v) ∧ v.buf = content ∧
    v.leng = content.length
  /-- There is some content. -/
  content_ne_nil : content ≠ []
  /-- It fits. -/
  length_le : content.length ≤ 288 + 255 * 232

/-! ## What is queued -/

/-- The five bytes of a header, behind which nothing is ever copied. -/
theorem header_len {cla ins p1 p2 size : UInt8} {out out' : Skb} {r : ℤ}
    (h : (do
      let out ← skbPutBytes out [cla]
      let out ← skbPutBytes out [ins]
      let out ← skbPutBytes out [p1]
      let out ← skbPutBytes out [p2]
      let out ← skbPutBytes out [size]
      if size ≠ 0 then
        let _ ← skbPut out size.toNat
        Except.error .wildAccess
      else return (fmOk, out) : Res (ℤ × Skb)) = .ok (r, out')) : out'.len = out.len + 5 := by
  obtain ⟨s₁, h₁, h⟩ := bind_eq_ok.mp h
  obtain ⟨s₂, h₂, h⟩ := bind_eq_ok.mp h
  obtain ⟨s₃, h₃, h⟩ := bind_eq_ok.mp h
  obtain ⟨s₄, h₄, h⟩ := bind_eq_ok.mp h
  obtain ⟨s₅, h₅, h⟩ := bind_eq_ok.mp h
  have hlen₁ := skbPutBytes_len h₁
  have hlen₂ := skbPutBytes_len h₂
  have hlen₃ := skbPutBytes_len h₃
  have hlen₄ := skbPutBytes_len h₄
  have hlen₅ := skbPutBytes_len h₅
  simp only [List.length_singleton] at hlen₁ hlen₂ hlen₃ hlen₄ hlen₅
  split at h
  · obtain ⟨_, -, h⟩ := bind_eq_ok.mp h
    cases h
  · obtain ⟨-, rfl⟩ : fmOk = r ∧ s₅ = out' := by simpa using h
    omega

/-- A command that is finished is no longer than its header. -/
theorem _gpMakeApdu_len {cla ins p1 p2 : UInt8} {data : Option FmBytes} {out out' : Skb} {r : ℤ}
    (h : _gpMakeApdu cla ins p1 p2 data out = .ok (r, out')) : out'.len ≤ out.len + 5 := by
  have hrefused : ∀ {e : ℤ}, (.ok (e, out) : Res (ℤ × Skb)) = .ok (r, out') → out' = out :=
    fun h => (congrArg Prod.snd (Except.ok.inj h)).symm
  unfold _gpMakeApdu at h
  split at h
  · rw [hrefused h]
    omega
  · cases data with
    | none =>
      dsimp only at h
      split at h
      · rw [hrefused h]
        omega
      · exact (header_len h).le
    | some d =>
      dsimp only at h
      split at h
      · rw [hrefused h]
        omega
      · exact (header_len h).le

/-- A fresh command is empty. -/
theorem apduPreprocess_len {u : Unspec} {k : ℕ} {agent : Option FmBytes} {skb : Skb}
    (h : apduPreprocess u k agent = .ok skb) : skb.len = 0 := by
  obtain ⟨len, -, h⟩ := bind_eq_ok.mp h
  obtain ⟨name, -, h⟩ := bind_eq_ok.mp h
  obtain rfl := Except.ok.inj h
  rfl

/-- A command is no longer than its header. -/
def Skb.HeaderOnly (s : Skb) : Prop := s.len ≤ 5

/-- What is made in a fresh buffer is no longer than its header. -/
theorem headerOnly_of_makeApdu {u : Unspec} {k : ℕ} {agent data : Option FmBytes}
    {cla ins p1 p2 : UInt8} {skb skb' : Skb} {r : ℤ} (hskb : apduPreprocess u k agent = .ok skb)
    (h : _gpMakeApdu cla ins p1 p2 data skb = .ok (r, skb')) : skb'.HeaderOnly := by
  have hempty := apduPreprocess_len hskb
  have hlen := _gpMakeApdu_len h
  unfold Skb.HeaderOnly
  omega

/-- The INSTALL command, too. -/
theorem headerOnly_of_install {u : Unspec} {k : ℕ} {agent : Option FmBytes} {p1 : UInt8}
    {fields : List (Option (Option FmBytes))} {skb skb' : Skb} {r : ℤ}
    (hskb : apduPreprocess u k agent = .ok skb)
    (h : installFields u p1 fields skb = .ok (r, skb')) : skb'.HeaderOnly := by
  obtain ⟨pos, -, h⟩ := bind_eq_ok.mp h
  obtain ⟨made, hmade, h⟩ := bind_eq_ok.mp h
  obtain rfl := congrArg Prod.snd (Except.ok.inj h)
  exact headerOnly_of_makeApdu hskb hmade

/-- One more command at the end of the queue. -/
theorem forall_headerOnly_append {q : List Skb} {skb : Skb} (hq : ∀ s ∈ q, s.HeaderOnly)
    (hskb : skb.HeaderOnly) : ∀ s ∈ q ++ [skb], s.HeaderOnly := by
  intro s hs
  obtain hs | hs := List.mem_append.mp hs
  · exact hq s hs
  · exact List.mem_singleton.mp hs ▸ hskb

/-- The loop adds such commands only. -/
theorem loadLoop_headerOnly {u : Unspec} {agent : Option FmBytes} {content : FmBytes}
    {rounds k pos : ℕ} {capLen : ℤ} {block : UInt8} {q q' : List Skb}
    (hq : ∀ s ∈ q, s.HeaderOnly)
    (h : loadLoop u agent content rounds k pos capLen block q = .ok q') :
    ∀ s ∈ q', s.HeaderOnly := by
  induction rounds generalizing k pos capLen block q with
  | zero =>
    unfold loadLoop at h
    split at h
    · cases h
    · exact Except.ok.inj h ▸ hq
  | succ rounds ih =>
    unfold loadLoop at h
    split at h
    · obtain ⟨skb, hskb, h⟩ := bind_eq_ok.mp h
      dsimp only at h
      split at h
      all_goals
        obtain ⟨made, hmade, h⟩ := bind_eq_ok.mp h
        exact ih (forall_headerOnly_append hq (headerOnly_of_makeApdu hskb hmade)) h
    · exact Except.ok.inj h ▸ hq

/-- **What the bytecode queues.** No command is longer than its header. -/
theorem gpInstallForLoadAndLoad_headerOnly {u : Unspec} {ccb ccb' : Ccb} {rsp : Ptr FmBytesArray}
    {arg : FmBytesArray} {ret : ℤ} (h : gpInstallForLoadAndLoad u ccb rsp arg = .ok (ret, ccb')) :
    ∀ s ∈ ccb'.apduQ, s.HeaderOnly := by
  unfold gpInstallForLoadAndLoad at h
  obtain ⟨agent, -, h⟩ := bind_eq_ok.mp h
  obtain ⟨sdAid, -, h⟩ := bind_eq_ok.mp h
  obtain ⟨pkgAid, -, h⟩ := bind_eq_ok.mp h
  obtain ⟨hash, -, h⟩ := bind_eq_ok.mp h
  obtain ⟨loadParm, -, h⟩ := bind_eq_ok.mp h
  obtain ⟨content, -, h⟩ := bind_eq_ok.mp h
  obtain ⟨loadToken, -, h⟩ := bind_eq_ok.mp h
  obtain ⟨apduQ, hpurge, h⟩ := bind_eq_ok.mp h
  obtain rfl := skbQueuePurge_eq_nil hpurge
  obtain ⟨capLen, -, h⟩ := bind_eq_ok.mp h
  obtain ⟨content', -, h⟩ := bind_eq_ok.mp h
  obtain ⟨skb₁, hskb₁, h⟩ := bind_eq_ok.mp h
  obtain ⟨install, hinstall, h⟩ := bind_eq_ok.mp h
  obtain ⟨skb₂, hskb₂, h⟩ := bind_eq_ok.mp h
  dsimp only at h
  obtain ⟨buf₁, -, h⟩ := bind_eq_ok.mp h
  obtain ⟨buf₂, -, h⟩ := bind_eq_ok.mp h
  obtain ⟨bs, -, h⟩ := bind_eq_ok.mp h
  obtain ⟨buf₃, -, h⟩ := bind_eq_ok.mp h
  obtain ⟨first, hfirst, h⟩ := bind_eq_ok.mp h
  obtain ⟨queue, hqueue, h⟩ := bind_eq_ok.mp h
  obtain ⟨-, rfl⟩ : 0 = ret ∧ { ccb with apduQ := queue, bootstrap := true } = ccb' := by
    simpa [ccbSetBootstrap, Ptr.deref] using h
  have hinstalled : ∀ s ∈ ([] : List Skb) ++ [install.2], s.HeaderOnly :=
    forall_headerOnly_append (by simp) (headerOnly_of_install hskb₁ hinstall)
  have hloaded := forall_headerOnly_append hinstalled (headerOnly_of_makeApdu hskb₂ hfirst)
  exact loadLoop_headerOnly hloaded hqueue

/-- A LOAD command that is no longer than its header has no data. -/
theorem IsLoad.data_eq_nil {skb : Skb} {last : Bool} {block : ℕ} {data : List UInt8}
    (h : IsLoad skb last block data) (hskb : skb.HeaderOnly) : data = [] := by
  have hlen : skb.payload.length ≤ skb.len := by
    unfold Skb.payload
    rw [List.length_take]
    exact min_le_left ..
  rw [h.payload_eq, List.length_append] at hlen
  simp only [List.length_cons, List.length_nil] at hlen
  unfold Skb.HeaderOnly at hskb
  have hzero : data.length = 0 := by omega
  exact List.length_eq_zero_iff.mp hzero

theorem not_loadsCap {u : Unspec} {ccb : Ccb} {rsp : Ptr FmBytesArray} {arg : FmBytesArray}
    {content : List UInt8} : ¬ LoadsCap u ccb rsp arg content := by
  rintro ⟨ret, ccb', install, loads, blocks, hcall, hqueue, hlen, hloads, hdata⟩
  have hempty : ∀ data ∈ blocks, data = [] := by
    intro data hmem
    obtain ⟨k, hk⟩ := List.mem_iff_getElem?.mp hmem
    have hlt : k < loads.length := hlen ▸ (List.getElem?_eq_some_iff.mp hk).1
    have hload := hloads k loads[k] data (List.getElem?_eq_getElem hlt) hk
    have hmem' : loads[k] ∈ ccb'.apduQ := by
      rw [hqueue]
      exact List.mem_cons_of_mem install (List.getElem_mem hlt)
    exact hload.data_eq_nil (gpInstallForLoadAndLoad_headerOnly hcall _ hmem')
  rw [List.flatten_eq_nil_iff.mpr hempty] at hdata
  cases hdata

/-- **No content is ever loaded**, whatever the session, the response and the
operands. -/
theorem cap_never_loaded (u : Unspec) (ccb : Ccb) (rsp : Ptr FmBytesArray) (arg : FmBytesArray)
    (content : List UInt8) : ¬ LoadsCap u ccb rsp arg content :=
  not_loadsCap

/-- A session whose CAP content is a single byte. -/
def oneByteCap : Ccb :=
  { plainCcb 7 1 with bre := [⟨⟨literal "cap content", none⟩, some ⟨1, 1, 1, [0x2A]⟩, false⟩] }

theorem oneByteCap_content : CapContent oneByteCap [0x2A] :=
  ⟨⟨⟨1, 1, 1, [0x2A]⟩, by decide, rfl, rfl⟩, by simp, by simp⟩

/-- Not even one byte. -/
theorem cap_loading_fails : ¬ ∀ (u : Unspec) (ccb : Ccb) (rsp : Ptr FmBytesArray)
    (arg : FmBytesArray) (content : List UInt8), CapContent ccb content →
      LoadsCap u ccb rsp arg content := fun h =>
  not_loadsCap (h plainUnspec oneByteCap .null (fmBytesArrayAlloc 1 5) _ oneByteCap_content)

end TsmVm
