import TsmVm.CommandBuffers
import Mathlib.Logic.Function.Iterate

/-!
# The loop over the blocks of a CAP file

What is left to load is reduced by the offset of the next block in place of the
size of the last. The offset is a byte; where it comes out as zero an iteration
leaves what is left as it is, in one branch of the loop as in the other. The
next iteration does not: it starts at offset zero.
-/

namespace TsmVm

/-- The two variables that decide when the loop ends. -/
structure LoadCounters where
  /-- The offset of the next block, `pos`. -/
  pos : ℕ
  /-- What is left to load, `cap_len`. -/
  capLen : ℤ

/-- The counters in front of the loop, for a content of `capLen` bytes. -/
def LoadCounters.start (capLen : ℤ) : LoadCounters :=
  let first := if capLen < 288 then capLen else 288
  let pos := u32 first % 256
  { pos := pos, capLen := capLen - pos }

/-- The counters after one more iteration. -/
def LoadCounters.next (c : LoadCounters) : LoadCounters :=
  if maxLoadDataSize < c.capLen then
    let pos := (c.pos + 232) % 256
    { pos := pos, capLen := c.capLen - pos }
  else
    let pos := (c.pos + c.capLen.toNat) % 256
    { pos := pos, capLen := c.capLen - pos }

/-- What every iteration makes smaller: twice what is left, and one more where
the next iteration may leave it as it is. -/
def LoadCounters.measure (c : LoadCounters) : ℕ :=
  2 * c.capLen.toNat + if c.pos = 0 then 0 else 1

theorem LoadCounters.measure_next_lt {c : LoadCounters} (h : 0 < c.capLen) :
    c.next.measure < c.measure := by
  have hmax : maxLoadDataSize = 232 := rfl
  unfold next measure
  split
  · dsimp only
    split_ifs <;> omega
  · dsimp only
    split_ifs <;> omega

/-- Iterations that make a number smaller come to an end. -/
theorem exists_iterate_not {σ : Type} (go : σ → Prop) {step : σ → σ} {measure : σ → ℕ}
    (hstep : ∀ s, go s → measure (step s) < measure s) (s : σ) :
    ∃ n ≤ measure s, ¬ go (step^[n] s) := by
  induction hm : measure s using Nat.strong_induction_on generalizing s with
  | _ m ih =>
    by_cases hgo : go s
    · have hlt := hstep s hgo
      obtain ⟨n, hn, hend⟩ := ih _ (hm ▸ hlt) (step s) rfl
      exact ⟨n + 1, by omega, hend⟩
    · exact ⟨0, Nat.zero_le _, hgo⟩

/-- The counters come to an end. -/
theorem LoadCounters.ends (c : LoadCounters) :
    ∃ n ≤ c.measure, (next^[n] c).capLen ≤ 0 := by
  obtain ⟨n, hn, hend⟩ :=
    exists_iterate_not (fun c => 0 < c.capLen) (fun _ h => measure_next_lt h) c
  exact ⟨n, hn, not_lt.mp hend⟩

/-! ## The loop -/

section Loop

variable {u : Unspec} {agent : Option FmBytes} {content : FmBytes}

/-- The command an iteration queues. -/
def loadBlock (u : Unspec) (agent : Option FmBytes) (content : FmBytes) (k : ℕ) (c : LoadCounters)
    (block : UInt8) : Res Skb := do
  let skb ← apduPreprocess u k agent
  let data : FmBytes := { size := maxApduLen, leng := 0, addr := content.addr + c.pos,
                          buf := content.buf.drop c.pos }
  if maxLoadDataSize < c.capLen then
    let (_, skb) ← _gpLoad 0x80 block (some (data.setLength maxLoadDataSize)) skb
    return skb
  else
    let (_, skb) ← _gpLoad 0x00 block (some (data.setLength c.capLen)) skb
    return skb

/-- An iteration of the loop queues a command and moves the counters on. -/
theorem loadLoop_succ {c : LoadCounters} (h : 0 < c.capLen) (rounds k : ℕ) (block : UInt8)
    (q : List Skb) :
    loadLoop u agent content (rounds + 1) k c.pos c.capLen block q =
      loadBlock u agent content k c block >>= fun skb =>
        loadLoop u agent content rounds (k + 1) c.next.pos c.next.capLen (block + 1)
          (q ++ [skb]) := by
  unfold LoadCounters.next loadBlock
  rw [loadLoop, if_pos h, bind_assoc]
  congr 1
  funext skb
  split
  · rw [bind_assoc]
    rfl
  · rw [bind_assoc]
    rfl

/-- With nothing left the loop is left. -/
theorem loadLoop_end {pos : ℕ} {capLen : ℤ} (h : capLen ≤ 0) (rounds k : ℕ) (block : UInt8)
    (q : List Skb) : loadLoop u agent content rounds k pos capLen block q = .ok q := by
  cases rounds with
  | zero => rw [loadLoop, if_neg (by omega)]
  | succ rounds => rw [loadLoop, if_neg (by omega)]

theorem loadBlock_faultsOnly {k : ℕ} {c : LoadCounters} {block : UInt8} :
    FaultsOnly (loadBlock u agent content k c block) := by
  refine apduPreprocess_faultsOnly.bind fun skb hskb => ?_
  dsimp only
  split
  · exact (_gpMakeApdu_fresh_faultsOnly hskb).seq fun _ => .ok _
  · exact (_gpMakeApdu_fresh_faultsOnly hskb).seq fun _ => .ok _

/-- With as many rounds as the counters take the loop does not run out of them. -/
theorem loadLoop_faultsOnly {rounds k : ℕ} {c : LoadCounters} {block : UInt8} {q : List Skb}
    (h : c.measure ≤ rounds) :
    FaultsOnly (loadLoop u agent content rounds k c.pos c.capLen block q) := by
  induction rounds generalizing k c block q with
  | zero =>
    have hend : c.capLen ≤ 0 := by
      unfold LoadCounters.measure at h
      omega
    rw [loadLoop_end hend]
    exact .ok q
  | succ rounds ih =>
    by_cases hgo : 0 < c.capLen
    · have hlt := LoadCounters.measure_next_lt hgo
      rw [loadLoop_succ hgo]
      exact loadBlock_faultsOnly.seq fun skb => ih (by omega)
    · rw [loadLoop_end (by omega)]
      exact .ok q

end Loop

/-- The bytecode ends with a result or at a bad pointer. -/
theorem gpInstallForLoadAndLoad_faultsOnly (rsp : Ptr FmBytesArray) {u : Unspec} {ccb : Ccb}
    {arg : FmBytesArray} : FaultsOnly (gpInstallForLoadAndLoad u ccb rsp arg) := by
  unfold gpInstallForLoadAndLoad
  refine FmBytesArray.at_faultsOnly.seq fun agent => ?_
  refine FmBytesArray.at_faultsOnly.seq fun sdAid => ?_
  refine dataGetByLiteral_faultsOnly.seq fun pkgAid => ?_
  refine dataGetByLiteral_faultsOnly.seq fun hash => ?_
  refine dataGetByLiteral_faultsOnly.seq fun loadParm => ?_
  refine dataGetByLiteral_faultsOnly.seq fun content => ?_
  refine dataGetByLiteral_faultsOnly.seq fun loadToken => ?_
  refine skbQueuePurge_faultsOnly.seq fun apduQ => ?_
  refine fmBytesGetLength_faultsOnly.seq fun capLen => ?_
  refine derefOption_faultsOnly.seq fun content => ?_
  refine apduPreprocess_faultsOnly.bind fun skb hskb => ?_
  refine (installFields_faultsOnly hskb).seq fun install => ?_
  refine apduPreprocess_faultsOnly.bind fun skb hskb => ?_
  refine memWrite_faultsOnly.seq fun buf => ?_
  refine memWrite_faultsOnly.seq fun buf => ?_
  refine memRead_faultsOnly.seq fun bs => ?_
  refine memWrite_faultsOnly.seq fun buf => ?_
  refine (_gpMakeApdu_fresh_faultsOnly hskb).seq fun first => ?_
  have hrounds : (LoadCounters.start capLen).measure ≤
      2 * (LoadCounters.start capLen).capLen.toNat + 2 := by
    unfold LoadCounters.measure
    split_ifs <;> omega
  refine (loadLoop_faultsOnly hrounds).seq fun queue => ?_
  exact ccbSetBootstrap_faultsOnly.seq fun _ => .ok _

/-- **The loop over the blocks ends**: whatever the length of the content, the
counters are used up after finitely many iterations, and the bytecode never
stays in the loop. -/
theorem load_loop_ends :
    (∀ capLen : ℤ, ∃ n ≤ 2 * capLen.toNat + 1,
      (LoadCounters.next^[n] (.start capLen)).capLen ≤ 0) ∧
    ∀ (u : Unspec) (ccb : Ccb) (rsp : Ptr FmBytesArray) (arg : FmBytesArray),
      gpInstallForLoadAndLoad u ccb rsp arg ≠ .error .hang := by
  constructor
  · intro capLen
    obtain ⟨n, hn, hend⟩ := (LoadCounters.start capLen).ends
    refine ⟨n, hn.trans ?_, hend⟩
    unfold LoadCounters.measure LoadCounters.start
    dsimp only
    split_ifs <;> omega
  · intro u ccb rsp arg
    exact (gpInstallForLoadAndLoad_faultsOnly rsp).ne (by exact id)

end TsmVm
