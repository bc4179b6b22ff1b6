import TsmVm.Concurrent
import TsmVm.TagFormat

/-!
# The reply the VM builds

The buffer for a reply has room for the padded commands and for the two headers
in front of them. `padding_tagA1` appends its header, for which there is no room
behind the commands, so no reply is ever finished; with more room the header
would still be at the wrong end.
-/

namespace TsmVm

/-- The reply the format asks for. -/
def replyFormat (cmdQ : List Skb) : List UInt8 := tagMessage (numbered 1 (cmdQ.map Skb.payload))

/-- A full block takes no further byte. -/
theorem skbPutValue_ne_ok {o : EvalOrder} {s t : Skb} {f : Skb → UInt8}
    (hfull : s.buff.length ≤ s.tail) : skbPutValue o s f ≠ .ok t := by
  intro h
  obtain ⟨⟨p, s'⟩, hput, -⟩ := bind_eq_ok.mp h
  obtain ⟨-, -, hfit⟩ := skbPut_eq_ok hput
  omega

/-- A command that is padded, and those behind it. The tag is put in front last. -/
theorem paddingTagA0Loop_cons_eq_ok {o : EvalOrder} {pos : Skb} {q q' : List Skb} {seq : UInt8}
    {len total : ℕ} (h : paddingTagA0Loop o (pos :: q) seq len = .ok (total, q')) :
    ∃ sized pos' rest, skbPushBytes sized [tagA0] = .ok pos' ∧ q' = pos' :: rest ∧
      paddingTagA0Loop o q (seq + 1) (len + pos'.len) = .ok (total, rest) := by
  obtain ⟨counted, -, h⟩ := bind_eq_ok.mp h
  obtain ⟨sized, -, h⟩ := bind_eq_ok.mp h
  obtain ⟨pos', htag, h⟩ := bind_eq_ok.mp h
  obtain ⟨⟨total', rest⟩, hloop, h⟩ := bind_eq_ok.mp h
  obtain ⟨rfl, rfl⟩ : total' = total ∧ pos' :: rest = q' := by simpa using h
  exact ⟨sized, pos', rest, htag, rfl, hloop⟩

/-- The total `padding_tagA0` returns is the sum of the padded lengths. -/
theorem paddingTagA0Loop_total {o : EvalOrder} {q q' : List Skb} {seq : UInt8} {len total : ℕ}
    (h : paddingTagA0Loop o q seq len = .ok (total, q')) :
    total = len + (q'.map Skb.len).sum := by
  induction q generalizing seq len total q' with
  | nil =>
    obtain ⟨rfl, rfl⟩ : len = total ∧ [] = q' := by simpa [paddingTagA0Loop] using h
    simp
  | cons pos q ih =>
    obtain ⟨sized, pos', rest, -, rfl, hloop⟩ := paddingTagA0Loop_cons_eq_ok h
    rw [ih hloop, List.map_cons, List.sum_cons, Nat.add_assoc]

/-- The commands take up as much of the block as they are long. -/
theorem paddingTagA1Body_tail {out out' : Skb} {q : List Skb}
    (h : paddingTagA1Body out q = .ok out') :
    out'.tail = out.tail + (q.map Skb.len).sum ∧ out'.buff.length = out.buff.length := by
  induction q generalizing out with
  | nil =>
    obtain rfl : out = out' := by simpa [paddingTagA1Body] using h
    simp
  | cons pos q ih =>
    obtain ⟨⟨p, out₁⟩, hput, h⟩ := bind_eq_ok.mp h
    obtain ⟨bs, hread, h⟩ := bind_eq_ok.mp h
    have hlen : bs.length = pos.len := by exact_mod_cast memRead_length hread
    have hpoke := skbPut_poke_length hput hlen
    obtain ⟨rfl, rfl, -⟩ := skbPut_eq_ok hput
    obtain ⟨htail, hsize⟩ := ih h
    refine ⟨?_, hsize.trans hpoke⟩
    rw [htail, List.map_cons, List.sum_cons, ← Nat.add_assoc]
    rfl

/-- The commands may fill the block. -/
theorem paddingTagA1Body_full {out body : Skb} {q : List Skb}
    (hroom : out.buff.length = out.tail + tagA1HeadRoom + (q.map Skb.len).sum)
    (hbody : paddingTagA1Body (skbReserve out tagA1HeadRoom) q = .ok body) :
    body.buff.length ≤ body.tail ∧ body.buff.length = out.buff.length := by
  obtain ⟨htail, hsize⟩ := paddingTagA1Body_tail hbody
  refine ⟨?_, hsize⟩
  rw [hsize, htail]
  simp only [skbReserve]
  omega

/-- The header never fits behind commands that fill the block. -/
theorem paddingTagA1_ne_ok {o : EvalOrder} {out out' : Skb} {q : List Skb}
    (hroom : out.buff.length = out.tail + tagA1HeadRoom + (q.map Skb.len).sum) :
    paddingTagA1 o out q ≠ .ok out' := by
  intro h
  obtain ⟨body, hbody, h⟩ := bind_eq_ok.mp h
  have hfull := (paddingTagA1Body_full hroom hbody).1
  obtain ⟨last, hlast, -⟩ := bind_eq_ok.mp h
  unfold paddingTagA1Len at hlast
  split at hlast
  · obtain ⟨first, hfirst, -⟩ := bind_eq_ok.mp hlast
    exact skbPutValue_ne_ok hfull hfirst
  · exact skbPutValue_ne_ok hfull hlast

/-- The name of the agent is no part of the block. -/
theorem settingAgentInfo_frame {u : Unspec} {s out : Skb} {q : List Skb}
    (h : settingAgentInfo u s q = .ok out) : out.buff = s.buff ∧ out.tail = s.tail := by
  obtain ⟨skb, -, h⟩ := bind_eq_ok.mp h
  obtain ⟨agent, -, h⟩ := bind_eq_ok.mp h
  obtain ⟨⟨r, name⟩, -, h⟩ := bind_eq_ok.mp h
  obtain rfl : _ = out := by simpa using h
  exact ⟨rfl, rfl⟩

/-- **No reply is finished.** Whatever the command queue holds, building the
reply stops, in either order of evaluation. -/
theorem tsmVmReply_ne_ok (o : EvalOrder) (u : Unspec) (ccb : Ccb) (r : Skb × List Skb) :
    tsmVmReply o u ccb ≠ .ok r := by
  intro h
  obtain ⟨⟨len, cmdQ⟩, hpad, h⟩ := bind_eq_ok.mp h
  obtain ⟨out, hagent, h⟩ := bind_eq_ok.mp h
  obtain ⟨out', hA1, -⟩ := bind_eq_ok.mp h
  have htotal := paddingTagA0Loop_total hpad
  obtain ⟨hbuff, htail⟩ := settingAgentInfo_frame hagent
  refine paddingTagA1_ne_ok ?_ hA1
  simp only [skbReserve, hbuff, htail, allocSkb, List.length_replicate]
  omega

/-- The payload is not empty and starts with this byte. -/
structure Skb.StartsWith (s : Skb) (b : UInt8) : Prop where
  /-- There is a payload. -/
  pos : 0 < s.len
  /-- It ends behind its start. -/
  lt_tail : s.data < s.tail
  /-- It ends inside the block. -/
  tail_le : s.tail ≤ s.buff.length
  /-- Its first byte. -/
  first : s.buff[s.data]? = some b

namespace Skb.StartsWith

variable {s t : Skb} {b : UInt8} {o : EvalOrder}

/-- The first byte of the payload. -/
theorem payload_head? (h : s.StartsWith b) : s.payload.head? = some b := by
  have hdrop : (s.buff.drop s.data).head? = some b := by
    rw [List.head?_drop]
    exact h.first
  unfold Skb.payload
  cases hrest : s.buff.drop s.data with
  | nil => simp [hrest] at hdrop
  | cons c rest =>
    obtain rfl : c = b := by simpa [hrest] using hdrop
    cases hlen : s.len with
    | zero =>
      have := h.pos
      omega
    | succ n => rfl

/-- Appending leaves the first byte where it is. -/
theorem put {n p : ℕ} {bs : List UInt8} (h : s.StartsWith b) (hput : skbPut s n = .ok (p, t))
    (hbs : bs.length = n) : (t.poke p bs).StartsWith b := by
  have hsize := skbPut_poke_length hput hbs
  obtain ⟨rfl, rfl, hfit⟩ := skbPut_eq_ok hput
  have hlt := h.lt_tail
  refine ⟨Nat.lt_of_lt_of_le h.pos (Nat.le_add_right ..), Nat.lt_of_lt_of_le hlt
    (Nat.le_add_right ..), hsize ▸ hfit, ?_⟩
  have htake : s.data < (s.buff.take s.tail).length := by
    rw [List.length_take, Nat.min_eq_left h.tail_le]
    exact hlt
  simp only [Skb.poke, List.append_assoc]
  rw [List.getElem?_append_left htake, List.getElem?_take_of_lt hlt]
  exact h.first

/-- Appending one value leaves the first byte where it is. -/
theorem putValue {f : Skb → UInt8} (h : s.StartsWith b) (hvalue : skbPutValue o s f = .ok t) :
    t.StartsWith b := by
  obtain ⟨⟨p, s'⟩, hput, ht⟩ := bind_eq_ok.mp hvalue
  obtain rfl : _ = t := by simpa using ht
  exact h.put hput rfl

/-- Appending bytes leaves the first byte where it is. -/
theorem putBytes {bs : List UInt8} (h : s.StartsWith b) (hbytes : skbPutBytes s bs = .ok t) :
    t.StartsWith b := by
  obtain ⟨⟨p, s'⟩, hput, ht⟩ := bind_eq_ok.mp hbytes
  obtain rfl : _ = t := by simpa using ht
  exact h.put hput rfl

/-- So does the header of the reply. -/
theorem header (h : s.StartsWith b) (hheader : paddingTagA1Header o s = .ok t) :
    t.StartsWith b := by
  obtain ⟨s₁, hlen, hlast⟩ := bind_eq_ok.mp hheader
  refine putBytes ?_ hlast
  unfold paddingTagA1Len at hlen
  split at hlen
  · obtain ⟨s₂, hlow, hlen⟩ := bind_eq_ok.mp hlen
    obtain ⟨s₃, hhigh, hlen⟩ := bind_eq_ok.mp hlen
    exact ((h.putValue hlow).putValue hhigh).putBytes hlen
  · exact h.putValue hlen

/-- So do further commands. -/
theorem body {q : List Skb} (h : s.StartsWith b) (hbody : paddingTagA1Body s q = .ok t) :
    t.StartsWith b := by
  induction q generalizing s with
  | nil =>
    obtain rfl : s = t := by simpa [paddingTagA1Body] using hbody
    exact h
  | cons pos q ih =>
    obtain ⟨⟨p, s₁⟩, hput, hbody⟩ := bind_eq_ok.mp hbody
    obtain ⟨bs, hread, hbody⟩ := bind_eq_ok.mp hbody
    exact ih (h.put hput (by exact_mod_cast memRead_length hread)) hbody

end Skb.StartsWith

/-- A push stores its byte at the front of the payload, where that is inside the
block. -/
theorem skbPushBytes_first {s t : Skb} {b : UInt8} (h : skbPushBytes s [b] = .ok t) :
    0 < t.len ∧ (t.data < t.buff.length → t.buff[t.data]? = some b) := by
  obtain ⟨⟨p, s'⟩, hpush, ht⟩ := bind_eq_ok.mp h
  obtain rfl : s'.poke p [b] = t := by simpa using ht
  unfold skbPush at hpush
  split at hpush
  · cases hpush
  · obtain ⟨rfl, rfl⟩ : s.data - 1 = p ∧ _ = s' := by simpa using hpush
    refine ⟨Nat.succ_pos _, ?_⟩
    intro hlt
    simp only [Skb.poke, List.length_append, List.length_take, List.length_drop,
      List.length_singleton] at hlt ⊢
    have htake : (s.buff.take (s.data - 1)).length = s.data - 1 := by
      rw [List.length_take]
      omega
    rw [List.append_assoc, List.getElem?_append_right (by omega), htake, Nat.sub_self]
    rfl

/-- Every command `padding_tagA0` has padded starts with the tag. -/
theorem paddingTagA0Loop_first {o : EvalOrder} {q q' : List Skb} {seq : UInt8} {len total : ℕ}
    (h : paddingTagA0Loop o q seq len = .ok (total, q')) :
    q'.length = q.length ∧ ∀ pos ∈ q', 0 < pos.len ∧
      (pos.data < pos.buff.length → pos.buff[pos.data]? = some tagA0) := by
  induction q generalizing seq len total q' with
  | nil =>
    obtain ⟨rfl, rfl⟩ : len = total ∧ [] = q' := by simpa [paddingTagA0Loop] using h
    simp
  | cons pos q ih =>
    obtain ⟨sized, pos', rest, htag, rfl, hloop⟩ := paddingTagA0Loop_cons_eq_ok h
    obtain ⟨hlen, hall⟩ := ih hloop
    exact ⟨by simp [hlen], List.forall_mem_cons.mpr ⟨skbPushBytes_first htag, hall⟩⟩

/-- Commands that start with a byte, put in an empty buffer, leave it starting
with that byte. -/
theorem paddingTagA1Body_first {out out' pos : Skb} {q : List Skb} {b : UInt8}
    (hempty : out.data = out.tail) (hpos : 0 < pos.len)
    (hfirst : pos.data < pos.buff.length → pos.buff[pos.data]? = some b)
    (h : paddingTagA1Body out (pos :: q) = .ok out') : out'.StartsWith b := by
  obtain ⟨⟨p, out₁⟩, hput, h⟩ := bind_eq_ok.mp h
  obtain ⟨bs, hread, h⟩ := bind_eq_ok.mp h
  refine Skb.StartsWith.body ?_ h
  have hlen : bs.length = pos.len := by exact_mod_cast memRead_length hread
  have hsize := skbPut_poke_length hput hlen
  obtain ⟨rfl, rfl, hfit⟩ := skbPut_eq_ok hput
  have hbs : bs[0]? = some b := by
    unfold memRead at hread
    rw [if_neg (by omega)] at hread
    split at hread
    · rename_i hin
      obtain rfl : _ = bs := by simpa using hread
      rw [List.getElem?_take_of_lt (by omega), List.getElem?_drop]
      simpa using hfirst (by omega)
    · cases hread
  have htake : (out.buff.take out.tail).length = out.tail := by
    rw [List.length_take]
    omega
  refine ⟨Nat.lt_of_lt_of_le hpos (Nat.le_add_left ..), ?_, ?_, ?_⟩
  · simp only [Skb.poke]
    omega
  · rw [hsize]
    exact hfit
  · simp only [Skb.poke, hempty]
    rw [List.append_assoc, List.getElem?_append_right (by omega), htake, Nat.sub_self,
      List.getElem?_append_left (by omega)]
    exact hbs

/-- **The header is at the wrong end.** In any buffer with room enough for it,
the reply starts with the tag of its first command. -/
theorem paddingTagA1_startsWith {o : EvalOrder} {out out' : Skb} {q q' : List Skb} {len : ℕ}
    (hpad : paddingTagA0 o q = .ok (len, q')) (hq : q ≠ []) (hempty : out.data = out.tail)
    (h : paddingTagA1 o out q' = .ok out') : out'.StartsWith tagA0 := by
  obtain ⟨hlen, hall⟩ := paddingTagA0Loop_first hpad
  obtain ⟨body, hbody, hheader⟩ := bind_eq_ok.mp h
  refine Skb.StartsWith.header ?_ hheader
  cases q' with
  | nil => exact absurd (List.length_eq_zero_iff.mp hlen.symm) hq
  | cons pos q' =>
    obtain ⟨hpos, hfirst⟩ := hall pos (by simp)
    exact paddingTagA1Body_first (by simp [skbReserve, hempty]) hpos hfirst hbody

/-- **The reply is never the one the format asks for**: in the buffer `tsm_vm`
allocates it is never finished, and in a larger one it would start with the
wrong tag. -/
theorem reply_never_formatted (o : EvalOrder) (u : Unspec) (ccb : Ccb) :
    (¬ ∃ out cmdQ, tsmVmReply o u ccb = .ok (out, cmdQ) ∧ out.payload = replyFormat ccb.cmdQ) ∧
    ∀ out out' cmdQ len, ccb.cmdQ ≠ [] → paddingTagA0 o ccb.cmdQ = .ok (len, cmdQ) →
      out.data = out.tail → paddingTagA1 o out cmdQ = .ok out' →
      out'.payload ≠ replyFormat ccb.cmdQ := by
  constructor
  · rintro ⟨out, cmdQ, h, -⟩
    exact tsmVmReply_ne_ok o u ccb _ h
  · intro out out' cmdQ len hne hpad hempty h hpayload
    have hhead := (paddingTagA1_startsWith hpad hne hempty h).payload_head?
    rw [hpayload, replyFormat, tagMessage] at hhead
    simp [tagA0] at hhead

/-- A CCB that is to send the command `00 A4 04 00 00`. -/
def selectCcb : Ccb :=
  { plainCcb 7 1 with
    cmdQ := [{ newPackage 2 7 [0, 0, 0, 0x00, 0xA4, 0x04, 0x00, 0x00] with
               data := 3, len := 5, agent := .obj ⟨1, 1, 1, [0x61]⟩ }] }

/-- The reply to a single `SELECT` is not finished, in either order. -/
theorem select_reply_fails : ¬ ∀ (o : EvalOrder) (u : Unspec) (ccb : Ccb), ccb.cmdQ ≠ [] →
    ccb.cmdQ.length ≤ 255 → (replyFormat ccb.cmdQ).length ≤ 65535 →
    ∃ out cmdQ, tsmVmReply o u ccb = .ok (out, cmdQ) ∧ out.payload = replyFormat ccb.cmdQ := by
  intro h
  obtain ⟨out, cmdQ, hreply, -⟩ := h .valueFirst plainUnspec selectCcb (by decide) (by decide)
    (by decide)
  have hstop : tsmVmReply .valueFirst plainUnspec selectCcb = .error .skbOverPanic := by rfl
  rw [hstop] at hreply
  cases hreply

end TsmVm
