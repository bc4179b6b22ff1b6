import TsmVm.BcData
import TsmVm.CommandBuffers
import TsmVm.FilledBlocks
import TsmVm.ScriptLines

/-!
# Operand arrays

An array of operands has a capacity and a number of operands in use. The slots
behind those in use hold `NULL`. The loader makes no others: it starts with five
slots, and when they are used up it goes on with ten.
-/

namespace TsmVm

/-- The operands in use in front of the spare slots. -/
structure FmBytesArray.Operands (fba : FmBytesArray) (operands : List ByteString) (spare : ℕ) :
    Prop where
  /-- The slots. -/
  array_eq : fba.array =
    operands.map (fun p => some p.toFmBytes) ++ List.replicate spare none
  /-- The number of operands in use. -/
  cnt_eq : fba.cnt = operands.length
  /-- The capacity. -/
  size_eq : fba.size = (operands.length + spare : ℕ)

namespace FmBytesArray.Operands

variable {fba : FmBytesArray} {operands : List ByteString} {spare : ℕ}

/-- An operand in use. -/
theorem at_eq (h : fba.Operands operands spare) {i : ℕ} {p : ByteString}
    (hp : operands[i]? = some p) : fba.at i = .ok (some p.toFmBytes) := by
  have hi : i < operands.length := (List.getElem?_eq_some_iff.mp hp).1
  have hslot : fba.array[i]? = some (some p.toFmBytes) := by
    rw [h.array_eq, List.getElem?_append_left (by simpa using hi), List.getElem?_map, hp]
    rfl
  unfold FmBytesArray.at
  rw [if_neg (by omega), Int.toNat_natCast, hslot]

/-- A spare slot. -/
theorem at_spare (h : fba.Operands operands spare) {i : ℕ} (hle : operands.length ≤ i)
    (hlt : i < operands.length + spare) : fba.at i = .ok none := by
  have hslot : fba.array[i]? = some none := by
    rw [h.array_eq, List.getElem?_append_right (by simpa using hle), List.length_map,
      List.getElem?_replicate_of_lt (by omega)]
  unfold FmBytesArray.at
  rw [if_neg (by omega), Int.toNat_natCast, hslot]

/-- There are as many slots as recorded. -/
theorem length_array (h : fba.Operands operands spare) :
    fba.array.length = operands.length + spare := by
  rw [h.array_eq, List.length_append, List.length_map, List.length_replicate]

/-- A larger array holds the same operands. -/
theorem resize (h : fba.Operands operands spare) (addr newSize : ℕ) :
    ∃ spare', (fmBytesArrayResize addr fba newSize).Operands operands spare' := by
  unfold fmBytesArrayResize
  split
  · exact ⟨spare, h⟩
  · have hsize := h.size_eq
    have hused : fba.array.take fba.cnt.toNat = operands.map fun p => some p.toFmBytes := by
      rw [h.cnt_eq, Int.toNat_natCast, h.array_eq, List.take_left' (List.length_map _)]
    refine ⟨newSize - operands.length, ?_, h.cnt_eq, ?_⟩
    · dsimp only
      rw [hused, List.length_map]
    · dsimp only
      omega

/-- The first spare slot takes one more. -/
theorem store (h : fba.Operands operands spare) {p : ByteString} {r : FmBytesArray}
    (hstore : fba.store operands.length (some p.toFmBytes) = .ok r) :
    ∃ spare', ({ r with cnt := (operands.length : ℤ) + 1 } : FmBytesArray).Operands
      (operands ++ [p]) spare' := by
  have hlength := h.length_array
  unfold FmBytesArray.store at hstore
  split at hstore
  · rename_i hroom
    obtain rfl := Except.ok.inj hstore
    obtain ⟨spare', rfl⟩ : ∃ spare', spare = spare' + 1 := ⟨spare - 1, by omega⟩
    refine ⟨spare', ?_, ?_, ?_⟩
    · dsimp only
      rw [Int.toNat_natCast, h.array_eq, List.set_append_right _ _ (by simp), List.length_map,
        Nat.sub_self]
      simp [List.replicate_succ]
    · simp
    · have hsize := h.size_eq
      simp only [List.length_append, List.length_singleton]
      omega
  · cases hstore

end FmBytesArray.Operands

/-! ## Names in buffers -/

/-- The name the buffer of an operand spells, if it is terminated. -/
def ByteString.bufKey (p : ByteString) : List UInt8 :=
  match bufText (some p.toFmBytes) with
  | .ok key => key
  | .error _ => []

/-- The buffer is terminated. -/
def ByteString.Terminated (p : ByteString) : Prop := bufText (some p.toFmBytes) = .ok p.bufKey

theorem ByteString.bufText_eq_ok {p : ByteString} {key : List UInt8}
    (h : bufText (some p.toFmBytes) = .ok key) : p.Terminated ∧ key = p.bufKey := by
  have hkey : p.bufKey = key := by rw [bufKey, h]
  exact ⟨h.trans (hkey ▸ rfl), hkey.symm⟩

/-- An operand of one character in a buffer that is terminated. -/
def letter (c : UInt8) : ByteString where
  size := 2
  leng := 1
  addr := 1
  buf := [c, 0]
  valid := ⟨zero_le_one, Int.ofNat_le.mpr (Nat.le_add_left 1 1), one_ne_zero⟩

/-! ## The loader -/

section Loader

variable {u : Unspec}

end Loader

/-! ## Names of agents -/

/-- A byte string is copied into a block of its own. -/
theorem fmBytesCopy_alloc {addr : ℕ} (haddr : addr ≠ 0) (behind : List UInt8) (p : ByteString) :
    fmBytesCopy (fmBytesAlloc addr behind p.leng) 0 (some p.toFmBytes) 0 p.leng =
      .ok (0, some { size := p.leng, leng := p.leng, addr := addr,
                     buf := p.content ++ behind }) := by
  obtain ⟨n, hn⟩ : ∃ n : ℕ, p.leng = n := Int.eq_ofNat_of_zero_le p.valid.leng_nonneg
  have hlen : p.content.length = n := by
    have := p.length_content
    omega
  have hcopy := fmBytesCopy_filledBytes behind haddr p.valid [] n 0 n (by omega) (by simp)
  rw [List.drop_zero, List.nil_append, List.take_of_length_le hlen.le] at hcopy
  have hfull : filledBytes addr behind n p.content =
      { size := n, leng := n, addr := addr, buf := p.content ++ behind } := by
    rw [filledBytes, hlen, Nat.sub_self]
    rfl
  rw [hn, fmBytesAlloc_filledBytes, ← hfull]
  exact hcopy

/-- The copy of the name of an agent that a command carries. -/
def agentName (u : Unspec) (k : ℕ) (agent : ByteString) : FmBytes :=
  { size := agent.leng, leng := agent.leng, addr := u.addr k, buf := agent.content ++ u.behind k }

/-- It is the name. -/
theorem content_agentName (u : Unspec) (k : ℕ) (agent : ByteString) :
    (agentName u k agent).content = agent.content := by
  have hlen := agent.length_content
  change (agent.content ++ u.behind k).take agent.leng.toNat = agent.content
  rw [← hlen, Int.toNat_natCast, List.take_left]

/-- The buffer of a command for an agent. -/
def freshCommand (u : Unspec) (k : ℕ) (agent : ByteString) : Skb :=
  skbReserve { allocSkb (u.skb k) maxApduLen with agent := .obj (agentName u k agent) }
    tagA0HeadRoom

/-- A command is addressed to the agent it is for. -/
theorem apduPreprocess_agent (u : Unspec) (k : ℕ) (agent : ByteString) :
    apduPreprocess u k (some agent.toFmBytes) = .ok (freshCommand u k agent) := by
  have hcopy := fmBytesCopy_alloc (u.addr_ne_zero k) (u.behind k) agent
  unfold apduPreprocess fmBytesGetLength
  rw [derefOption_some, ok_bind]
  dsimp only [pure_eq_ok, ok_bind]
  rw [hcopy, ok_bind]
  rfl

end TsmVm
