import TsmVm.CommandBuffers
import TsmVm.ReplyEncoding
import TsmVm.Router

/-!
# The room in the reply

The buffer of a reply is as large as the padded commands and the two headers that
belong in front of them. The room for these is reserved at the front, the commands
fill the rest to the last byte, and then the inner header is appended. Before that
the name of the agent is copied from the first command; where there is none to copy
the thread comes no further.
-/

namespace TsmVm

/-- A command with room for its header of three bytes. -/
structure RoomyApdu where
  skb : Skb
  front : List UInt8
  /-- The room for the header. -/
  header : List UInt8
  body : List UInt8
  room : List UInt8
  layout : skb.Layout (front ++ header) body room
  header_length : header.length = 3

/-- What `tsm_vm` and `router_disaggregate_work` do with the buffers of a reply. -/
def replyBuffers (o : EvalOrder) (u : Unspec) (ccb : Ccb) : Res Skb := do
  let (out, _) ← tsmVmReply o u ccb
  routerDisaggregatePack out

/-- No `skb_put` or `skb_push` leaves the block. -/
def ReplyFits (o : EvalOrder) (u : Unspec) (ccb : Ccb) : Prop :=
  replyBuffers o u ccb ≠ .error .skbOverPanic ∧ replyBuffers o u ccb ≠ .error .skbUnderPanic

/-- There is a first command, and the name of its agent can be copied. -/
def AgentIsNamed (apdus : List RoomyApdu) : Prop :=
  ∃ a name, apdus.head? = some a ∧ a.skb.agent = .obj name ∧ name.Copyable

/-- A value is pushed where there is headroom. -/
theorem Skb.Layout.pushValue {s : Skb} {head old body room : List UInt8} (o : EvalOrder)
    (h : s.Layout (head ++ old) body room) (hold : old.length = 1) (f : Skb → UInt8) :
    ∃ b t, skbPushValue o s f = .ok t ∧ t.Layout head (b :: body) room := by
  have hdata : ¬ s.data < 1 := by
    have hlen := h.data_eq
    rw [List.length_append] at hlen
    omega
  obtain ⟨t, ht, hlayout, -⟩ :=
    h.push [f (o.pick s { s with data := s.data - 1, len := s.len + 1 })] hold
  refine ⟨_, t, ?_, hlayout⟩
  unfold skbPushBytes skbPush at ht
  unfold skbPushValue skbPush
  simp only [List.length_singleton, if_neg hdata, ok_bind] at ht ⊢
  exact ht

/-- The three pushes of `padding_tagA0`. -/
theorem RoomyApdu.padded (a : RoomyApdu) (o : EvalOrder) (seq : UInt8) :
    ∃ s₁ s₂ s₃ b, skbPushBytes a.skb [seq] = .ok s₁ ∧
      skbPushValue o s₁ (fun s => u8 s.len) = .ok s₂ ∧ skbPushBytes s₂ [tagA0] = .ok s₃ ∧
      s₃.Layout a.front (tagA0 :: b :: seq :: a.body) a.room := by
  obtain ⟨x, y, z, hheader⟩ : ∃ x y z, a.header = [x, y, z] :=
    List.length_eq_three.mp a.header_length
  have hlayout := a.layout
  rw [hheader, show a.front ++ [x, y, z] = a.front ++ [x] ++ [y] ++ [z] by simp] at hlayout
  obtain ⟨s₁, hs₁, hlayout₁, -⟩ := hlayout.push [seq] rfl
  obtain ⟨b, s₂, hs₂, hlayout₂⟩ := hlayout₁.pushValue o rfl fun s => u8 s.len
  obtain ⟨s₃, hs₃, hlayout₃, -⟩ := hlayout₂.push [tagA0] rfl
  exact ⟨s₁, s₂, s₃, b, hs₁, hs₂, hs₃, hlayout₃⟩

/-- `padding_tagA0` pads commands that have room. -/
theorem paddingTagA0Loop_roomy (o : EvalOrder) (apdus : List RoomyApdu) (seq : UInt8) (len : ℕ) :
    ∃ total q, paddingTagA0Loop o (apdus.map RoomyApdu.skb) seq len = .ok (total, q) ∧
      ∀ s ∈ q, ∃ head body room, s.Layout head body room := by
  induction apdus generalizing seq len with
  | nil => exact ⟨len, [], rfl, by simp⟩
  | cons a apdus ih =>
    obtain ⟨s₁, s₂, s₃, b, hs₁, hs₂, hs₃, hlayout⟩ := a.padded o seq
    obtain ⟨total, q, hloop, hq⟩ := ih (seq + 1) (len + s₃.len)
    refine ⟨total, s₃ :: q, ?_, List.forall_mem_cons.mpr ⟨⟨_, _, _, hlayout⟩, hq⟩⟩
    rw [List.map_cons, paddingTagA0Loop]
    simp only [hs₁, hs₂, hs₃, hloop, ok_bind, pure_eq_ok]

/-- The payload of a buffer can be copied. -/
theorem Skb.Layout.exists_memRead {s : Skb} {head body room : List UInt8}
    (h : s.Layout head body room) : ∃ bs, memRead s.buff s.data s.len = .ok bs := by
  have hfit : s.len ≤ (s.buff.drop s.data).length := by
    rw [h.buff_eq, h.data_eq, h.len_eq, List.length_drop]
    simp only [List.length_append]
    omega
  rw [memRead_natCast, if_pos hfit]
  exact ⟨_, rfl⟩

/-- Commands for which there is room are copied. -/
theorem paddingTagA1Body_fits {q : List Skb} {out : Skb}
    (hq : ∀ s ∈ q, ∃ head body room, s.Layout head body room) (hne : out.buff.length ≠ 0)
    (hfit : out.tail + (q.map Skb.len).sum ≤ out.buff.length) :
    ∃ out', paddingTagA1Body out q = .ok out' := by
  induction q generalizing out with
  | nil => exact ⟨out, rfl⟩
  | cons s q ih =>
    rw [List.map_cons, List.sum_cons] at hfit
    obtain ⟨head, body, room, hlayout⟩ := hq s List.mem_cons_self
    obtain ⟨bs, hread⟩ := hlayout.exists_memRead
    have hlen : bs.length = s.len := by exact_mod_cast memRead_length hread
    have hput : skbPut out s.len =
        .ok (out.tail, { out with tail := out.tail + s.len, len := out.len + s.len }) := by
      unfold skbPut
      rw [if_neg hne, if_neg (by omega)]
    have hsize := skbPut_poke_length hput hlen
    rw [paddingTagA1Body, hput]
    simp only [ok_bind, hread]
    apply ih
    · intro t ht
      exact hq t (List.mem_cons_of_mem s ht)
    · rw [hsize]
      exact hne
    · rw [hsize]
      simp only [Skb.poke]
      omega

/-- A full block takes no further byte. -/
theorem skbPutValue_panics {o : EvalOrder} {s : Skb} {f : Skb → UInt8} (hne : s.buff.length ≠ 0)
    (hfull : s.buff.length ≤ s.tail) : skbPutValue o s f = .error .skbOverPanic := by
  unfold skbPutValue skbPut
  rw [if_neg hne, if_pos (by omega)]
  rfl

/-- The header does not fit behind commands that fill the block. -/
theorem paddingTagA1_panics {o : EvalOrder} {out : Skb} {q : List Skb}
    (hq : ∀ s ∈ q, ∃ head body room, s.Layout head body room)
    (hroom : out.buff.length = out.tail + tagA1HeadRoom + (q.map Skb.len).sum) :
    paddingTagA1 o out q = .error .skbOverPanic := by
  have hroom' : out.buff.length = out.tail + 4 + (q.map Skb.len).sum := hroom
  have hfits : ∃ body, paddingTagA1Body (skbReserve out tagA1HeadRoom) q = .ok body := by
    apply paddingTagA1Body_fits hq
    · simp only [skbReserve]
      omega
    · simp only [skbReserve]
      omega
  obtain ⟨body, hbody⟩ := hfits
  obtain ⟨hfull, hsize⟩ := paddingTagA1Body_full hroom hbody
  have hne : body.buff.length ≠ 0 := by
    rw [hsize, hroom']
    omega
  have hlen : paddingTagA1Len o body = .error .skbOverPanic := by
    unfold paddingTagA1Len
    rw [skbPutValue_panics hne hfull]
    split <;> rfl
  unfold paddingTagA1 paddingTagA1Header
  rw [hbody, ok_bind, hlen]
  rfl

/-! ## The name of the agent -/

theorem skbPushBytes_agent {s t : Skb} {bs : List UInt8} (h : skbPushBytes s bs = .ok t) :
    t.agent = s.agent := by
  unfold skbPushBytes skbPush at h
  split at h
  · cases h
  · obtain rfl := Except.ok.inj h
    rfl

theorem skbPushValue_agent {o : EvalOrder} {s t : Skb} {f : Skb → UInt8}
    (h : skbPushValue o s f = .ok t) : t.agent = s.agent := by
  unfold skbPushValue skbPush at h
  split at h
  · cases h
  · obtain rfl := Except.ok.inj h
    rfl

/-- The padded commands are for the agents they were for. -/
theorem paddingTagA0Loop_agents {o : EvalOrder} {q q' : List Skb} {seq : UInt8} {len total : ℕ}
    (h : paddingTagA0Loop o q seq len = .ok (total, q')) :
    q'.map Skb.agent = q.map Skb.agent := by
  induction q generalizing seq len total q' with
  | nil =>
    obtain ⟨-, rfl⟩ : len = total ∧ [] = q' := by simpa [paddingTagA0Loop] using h
    rfl
  | cons pos q ih =>
    obtain ⟨s₁, h₁, h⟩ := bind_eq_ok.mp h
    obtain ⟨s₂, h₂, h⟩ := bind_eq_ok.mp h
    obtain ⟨s₃, h₃, h⟩ := bind_eq_ok.mp h
    obtain ⟨⟨total', rest⟩, hloop, h⟩ := bind_eq_ok.mp h
    obtain ⟨-, rfl⟩ : total' = total ∧ s₃ :: rest = q' := by simpa using h
    rw [List.map_cons, List.map_cons, ih hloop, skbPushBytes_agent h₃, skbPushValue_agent h₂,
      skbPushBytes_agent h₁]

/-- `setting_agent_info` returns where there is a name to copy. -/
theorem settingAgentInfo_iff (u : Unspec) (out : Skb) (q : List Skb) :
    (∃ t, settingAgentInfo u out q = .ok t) ↔
      ∃ s name, q.head? = some s ∧ s.agent = .obj name ∧ name.Copyable := by
  unfold settingAgentInfo
  simp only [exists_bind_ok, derefOption_eq_ok]
  constructor
  · rintro ⟨s, hs, agent, hagent, r, hcopy, -⟩
    obtain ⟨name, hname⟩ : ∃ name, s.agent = .obj name := by
      cases hptr : s.agent with
      | obj name => exact ⟨name, rfl⟩
      | null | wild =>
        rw [hptr] at hagent
        cases hagent
    rw [hname] at hagent
    obtain rfl : name = agent := Except.ok.inj hagent
    exact ⟨s, name, hs, hname, (fmBytesCopy_all_iff (u.addr_ne_zero 0) (u.behind 0) name).mp
      ⟨r, hcopy⟩⟩
  · rintro ⟨s, name, hs, hname, hcopyable⟩
    obtain ⟨r, hcopy⟩ :=
      (fmBytesCopy_all_iff (u.addr_ne_zero 0) (u.behind 0) name).mpr hcopyable
    exact ⟨s, hs, name, by rw [hname]; rfl, r, hcopy, _, rfl⟩

/-- Where it does not it has met a bad pointer. -/
theorem settingAgentInfo_faultsOnly (u : Unspec) (out : Skb) (q : List Skb) :
    FaultsOnly (settingAgentInfo u out q) := by
  refine derefOption_faultsOnly.seq fun skb => ?_
  refine Ptr.deref_faultsOnly.seq fun agent => ?_
  exact fmBytesCopy_faultsOnly.seq fun _ => .ok _

/-! ## The reply -/

section Reply

variable {o : EvalOrder} {u : Unspec} {ccb : Ccb} {apdus : List RoomyApdu}

/-- The reply with the name in it does not fit. -/
theorem tsmVmReply_panics (hcmdQ : ccb.cmdQ = apdus.map RoomyApdu.skb)
    (h : AgentIsNamed apdus) : tsmVmReply o u ccb = .error .skbOverPanic := by
  obtain ⟨total, q, hpad, hq⟩ := paddingTagA0Loop_roomy o apdus 1 0
  have htotal := paddingTagA0Loop_total hpad
  have hagents := paddingTagA0Loop_agents hpad
  have hpadded : paddingTagA0 o ccb.cmdQ = .ok (total, q) := by
    rw [hcmdQ]
    exact hpad
  obtain ⟨a, name, hfirst, hname, hcopyable⟩ := h
  have hhead : (q.map Skb.agent).head? = some (.obj name) := by
    rw [hagents, List.head?_map, List.head?_map, hfirst, ← hname]
    rfl
  obtain ⟨s, hs, hsname⟩ : ∃ s, q.head? = some s ∧ s.agent = .obj name := by
    rw [List.head?_map] at hhead
    exact Option.map_eq_some_iff.mp hhead
  obtain ⟨out, hagent⟩ := (settingAgentInfo_iff u
    (allocSkb (u.skb 0) (total + msgHeadLen + tagA1HeadRoom)) q).mpr ⟨s, name, hs, hsname, hcopyable⟩
  obtain ⟨hbuff, htail⟩ := settingAgentInfo_frame hagent
  have hstop : paddingTagA1 o
      (skbReserve { out with session := ccb.session, msgType := msgData } msgHeadLen) q =
        .error .skbOverPanic := by
    apply paddingTagA1_panics hq
    simp only [skbReserve, hbuff, htail, allocSkb, List.length_replicate]
    omega
  unfold tsmVmReply
  simp only [hpadded, hagent, ok_bind, hstop, error_bind]

/-- Without a name it is not begun. -/
theorem tsmVmReply_faultsOnly (hcmdQ : ccb.cmdQ = apdus.map RoomyApdu.skb)
    (h : ¬ AgentIsNamed apdus) : FaultsOnly (tsmVmReply o u ccb) := by
  obtain ⟨total, q, hpad, -⟩ := paddingTagA0Loop_roomy o apdus 1 0
  have hagents := paddingTagA0Loop_agents hpad
  have hpadded : paddingTagA0 o ccb.cmdQ = .ok (total, q) := by
    rw [hcmdQ]
    exact hpad
  unfold tsmVmReply
  rw [hpadded, ok_bind]
  refine (settingAgentInfo_faultsOnly u _ q).bind fun out hout => (h ?_).elim
  obtain ⟨s, name, hs, hname, hcopyable⟩ := (settingAgentInfo_iff u _ q).mp ⟨out, hout⟩
  have hhead : (apdus.head?.map fun a => a.skb.agent) = some (.obj name) := by
    have hmap := congrArg List.head? hagents
    rw [List.head?_map, List.head?_map, List.head?_map, hs, Option.map_some, hname,
      Option.map_map] at hmap
    exact hmap.symm
  obtain ⟨a, ha, hagent⟩ := Option.map_eq_some_iff.mp hhead
  exact ⟨a, name, ha, hagent, hcopyable⟩

end Reply

/-- **The room in the reply.** There is never enough: no `skb_put` leaves the block only
where the thread stops before the first of them, for want of a name to copy. -/
theorem reply_fits_iff (o : EvalOrder) (u : Unspec) (ccb : Ccb) (apdus : List RoomyApdu) :
    ReplyFits o u { ccb with cmdQ := apdus.map RoomyApdu.skb } ↔ ¬ AgentIsNamed apdus := by
  constructor
  · intro hfits hnamed
    refine hfits.1 ?_
    rw [replyBuffers, tsmVmReply_panics rfl hnamed]
    rfl
  · intro hnot
    have hfaults : FaultsOnly (replyBuffers o u { ccb with cmdQ := apdus.map RoomyApdu.skb }) :=
      (tsmVmReply_faultsOnly rfl hnot).bind fun r hr => (tsmVmReply_ne_ok o u _ r hr).elim
    exact ⟨hfaults.ne (by exact id), hfaults.ne (by exact id)⟩

/-- The command `00 A4 04 00 00` for the agent `a`, with room for its header. -/
def selectApdu : RoomyApdu :=
  { skb := { newPackage 2 7 [0, 0, 0, 0x00, 0xA4, 0x04, 0x00, 0x00] with
      agent := .obj { size := 1, leng := 1, addr := 1, buf := [0x61] }, data := 3, len := 5 },
    front := [], header := [0, 0, 0], body := [0x00, 0xA4, 0x04, 0x00, 0x00], room := [],
    layout := by constructor <;> rfl
    header_length := rfl }

/-- The reply with one command does not fit. -/
theorem select_reply_panics : ¬ ∀ (o : EvalOrder) (u : Unspec) (ccb : Ccb)
    (apdus : List RoomyApdu), ReplyFits o u { ccb with cmdQ := apdus.map RoomyApdu.skb } := by
  intro h
  refine (h .valueFirst plainUnspec (plainCcb 7 2) [selectApdu]).1 ?_
  have hnamed : AgentIsNamed [selectApdu] :=
    ⟨selectApdu, { size := 1, leng := 1, addr := 1, buf := [0x61] }, rfl, rfl, .inr le_rfl⟩
  rw [replyBuffers, tsmVmReply_panics rfl hnamed]
  rfl

end TsmVm
