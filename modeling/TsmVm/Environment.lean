import TsmVm.Concurrent
import TsmVm.Lib.WriteLog
import TsmVm.Overwriting

/-!
# The variable environment as a map

What the data bytecodes are for: each of them writes values under names, and a
name holds what was last written to it. The code follows this where the memory
it takes for a name spells the operand, and nowhere else. It passes the operand
structure where it means the text, a fresh empty string where it means a copy of
the text, and the value bound to a name where it means the name.
-/

namespace TsmVm

/-- What has been written to the environment. -/
abbrev Env := WriteLog (List UInt8) FmBytes

/-- The name an operand in range stands for. -/
def nameOf (p : Option FmBytes) : Res (List UInt8) := do
  let p ← derefOption p
  if p.leng < 0 then Except.error .outOfBounds else return p.content

/-- The five bytecodes that write the environment. -/
inductive DataFn
  | dataSet | dataExtractRsp | dataExtract | dataConcat | dataReverse
  deriving DecidableEq, Repr

/-- The bytecode. -/
def DataFn.call : DataFn → TsmBytecode
  | .dataSet => TsmVm.dataSet
  | .dataExtractRsp => TsmVm.dataExtractRsp
  | .dataExtract => TsmVm.dataExtract
  | .dataConcat => TsmVm.dataConcat
  | .dataReverse => TsmVm.dataReverse

/-- One call of a data bytecode. -/
structure DataCall where
  /-- The bytecode. -/
  fn : DataFn
  /-- What C leaves open for the call. -/
  u : Unspec
  /-- The response. -/
  rsp : Ptr FmBytesArray
  /-- The operands. -/
  arg : FmBytesArray

/-- The code. -/
def DataCall.run (c : DataCall) (ccb : Ccb) : Res Ccb := do
  let (_, ccb) ← c.fn.call c.u ccb c.rsp c.arg
  return ccb

/-! ## What the bytecodes are for -/

/-- A pair of `data_set`, `data0:name0`. -/
def setRound (u : Unspec) (arg : FmBytesArray) (k : ℕ) (env : Env) : Res Env := do
  let src ← arg.at (2 * k : ℕ)
  let hex ← hexValue u k src
  let name ← arg.at (2 * k + 1 : ℕ)
  let text ← nameOf name
  return env.write text hex

/-- A tuple of `data_extract_rsp`, `frm:start:end:name`. -/
def extractRspRound (u : Unspec) (rsp : Ptr FmBytesArray) (arg : FmBytesArray) (k : ℕ)
    (env : Env) : Res Env := do
  let frm ← arg.at (4 * k : ℕ) >>= fmBytes2intBE (u.word (3 * k))
  let start ← arg.at (4 * k + 1 : ℕ) >>= fmBytes2intBE (u.word (3 * k + 1))
  let stop ← arg.at (4 * k + 2 : ℕ) >>= fmBytes2intBE (u.word (3 * k + 2))
  let name ← arg.at (4 * k + 3 : ℕ)
  let text ← nameOf name
  let fba ← rsp.deref
  let raw ← fba.at frm
  let data ← cutValue u k raw start stop
  return env.write text data

/-- A tuple of `data_extract`, `src0:start0:end0:dest0`. -/
def extractRound (u : Unspec) (arg : FmBytesArray) (k : ℕ) (env : Env) : Res Env := do
  let source ← arg.at (4 * k : ℕ)
  let src ← nameOf source
  let start ← arg.at (4 * k + 1 : ℕ) >>= fmBytes2intBE (u.word (2 * k))
  let stop ← arg.at (4 * k + 2 : ℕ) >>= fmBytes2intBE (u.word (2 * k + 1))
  let name ← arg.at (4 * k + 3 : ℕ)
  let text ← nameOf name
  let data ← cutValue u k (env.value src) start stop
  return env.write text data

/-- The parts of `data_concat` from operand `i` on, and their bytes. -/
def concatBytes (arg : FmBytesArray) (env : Env) : ℕ → ℕ → Res (List UInt8)
  | 0, _ => .ok []
  | n + 1, i => do
    let text ← arg.at i >>= nameOf
    let sub ← derefOption (env.value text)
    let bs ← concatBytes arg env n (i + 1)
    return sub.content ++ bs

/-- `data_concat,sub0,sub1,subn,name`. -/
def concatSpec (u : Unspec) (arg : FmBytesArray) (env : Env) : Res Env := do
  let bs ← concatBytes arg env (arg.cnt - 1).toNat 0
  let text ← arg.at (arg.cnt - 1) >>= nameOf
  return env.write text (some ⟨bs.length, bs.length, u.addr 0, bs ++ u.behind 0⟩)

/-- A pair of `data_reverse`, `src0:des0`. -/
def reverseRound (u : Unspec) (arg : FmBytesArray) (k : ℕ) (env : Env) : Res Env := do
  let source ← arg.at (2 * k : ℕ)
  let src ← nameOf source
  let des ← arg.at (2 * k + 1 : ℕ)
  let desData ← dataReverseValue u k (env.value src)
  let text ← nameOf des
  return env.write text desData

/-- How many groups of `width` operands a call works on: none if they do not come
out even. -/
def FmBytesArray.groups (arg : FmBytesArray) (width : ℤ) : ℕ :=
  if arg.cnt.tmod width ≠ 0 then 0 else (arg.cnt / width).toNat

/-- What a call is to write. -/
def DataCall.spec (c : DataCall) (env : Env) : Res Env :=
  match c.fn with
  | .dataSet => loopFrom (setRound c.u c.arg) (c.arg.groups 2) 0 env
  | .dataExtractRsp => loopFrom (extractRspRound c.u c.rsp c.arg) (c.arg.groups 4) 0 env
  | .dataExtract => loopFrom (extractRound c.u c.arg) (c.arg.groups 4) 0 env
  | .dataConcat => concatSpec c.u c.arg env
  | .dataReverse => loopFrom (reverseRound c.u c.arg) (c.arg.groups 2) 0 env

/-! ## Where the code does it -/

/-- What a bytecode takes for the name in operand `i` is that operand. -/
def Spelled (text : Option FmBytes → Res (List UInt8)) (arg : FmBytesArray) (i : ℕ) : Prop :=
  ∀ p, arg.at i = .ok (some p) → text (some p) = .ok p.content

/-- The names of a call are spelled by what its bytecode takes for them.
`data_concat` takes the value bound to its destination for the name of it. -/
def DataCall.NamesSpelled (c : DataCall) : Prop :=
  match c.fn with
  | .dataSet => ∀ k < c.arg.groups 2, Spelled structText c.arg (2 * k + 1)
  | .dataExtractRsp => ∀ k < c.arg.groups 4, Spelled freshText c.arg (4 * k + 3)
  | .dataExtract => ∀ k < c.arg.groups 4,
      Spelled structText c.arg (4 * k) ∧ Spelled freshText c.arg (4 * k + 3)
  | .dataConcat => False
  | .dataReverse => ∀ k < c.arg.groups 2,
      Spelled bufText c.arg (2 * k) ∧ Spelled bufText c.arg (2 * k + 1)

/-- A usable table that holds what has been written. -/
structure Represents (bre : Bre) (env : Env) : Prop where
  /-- The table can be used. -/
  clean : bre.Clean
  /-- It holds what the last writes have stored. -/
  lookup_eq : ∀ x, bre.lookup x = env.value x

theorem represents_nil : Represents [] [] := ⟨.nil, fun _ => rfl⟩

/-- Writing under a key of its own storage. -/
theorem Represents.put {bre : Bre} {env : Env} (h : Represents bre env) (text : List UInt8)
    (v : Option FmBytes) :
    Simulates Represents (zcHashtablePut bre ⟨text, none⟩ v) (Except.ok (env.write text v)) := by
  obtain ⟨bre', hput, hclean, hlookup⟩ := h.clean.put ⟨text, none⟩ rfl v
  rw [hput]
  refine .ok ⟨hclean, fun x => ?_⟩
  rw [hlookup, h.lookup_eq, WriteLog.value_write]

/-- Reading. -/
theorem Represents.get {bre : Bre} {env : Env} (h : Represents bre env) (text : List UInt8) :
    zcHashtableGet bre text = .ok (env.value text) := by
  rw [h.clean.get, h.lookup_eq]

/-- What is taken for a name that is spelled is the name. -/
theorem Spelled.simulates {text : Option FmBytes → Res (List UInt8)} {arg : FmBytesArray} {i : ℕ}
    {p : Option FmBytes} (h : Spelled text arg i) (hp : arg.at i = .ok p) :
    Simulates Eq (text p) (nameOf p) := by
  intro t ht
  obtain ⟨q, hq, hname⟩ := bind_eq_ok.mp ht
  obtain rfl := derefOption_eq_ok.mp hq
  refine ⟨q.content, h q hp, ?_⟩
  split at hname
  · cases hname
  · exact Except.ok.inj hname

section Rounds

variable {u : Unspec} {rsp : Ptr FmBytesArray} {arg : FmBytesArray} {bre : Bre} {env : Env} {k : ℕ}

/-- A round of `data_set` writes the pair. -/
theorem dataSetRound_simulates (hname : Spelled structText arg (2 * k + 1))
    (h : Represents bre env) :
    Simulates Represents (dataSetRound u arg k bre) (setRound u arg k env) := by
  refine .bind_same fun src _ => .bind_same fun hex _ => .bind_same fun name hat => ?_
  refine (hname.simulates hat).bind fun text _ heq => ?_
  subst heq
  exact h.put text hex

/-- A round of `data_extract_rsp` writes what it cuts from the response. -/
theorem dataExtractRspRound_simulates (hname : Spelled freshText arg (4 * k + 3))
    (h : Represents bre env) :
    Simulates Represents (dataExtractRspRound u rsp arg k bre)
      (extractRspRound u rsp arg k env) := by
  refine .bind_same fun frm _ => .bind_same fun start _ => .bind_same fun stop _ => ?_
  refine .bind_same fun name hat => (hname.simulates hat).bind fun text _ heq => ?_
  subst heq
  refine .bind_same fun fba _ => .bind_same fun raw _ => .bind_same fun data _ => ?_
  exact h.put text data

/-- A round of `data_extract` writes what it cuts from the source. -/
theorem dataExtractRound_simulates (hsource : Spelled structText arg (4 * k))
    (hname : Spelled freshText arg (4 * k + 3)) (h : Represents bre env) :
    Simulates Represents (dataExtractRound u arg k bre) (extractRound u arg k env) := by
  refine .bind_same fun source hat => (hsource.simulates hat).bind fun src _ heq => ?_
  subst heq
  rw [h.get, ok_bind]
  refine .bind_same fun start _ => .bind_same fun stop _ => .bind_same fun name hat => ?_
  refine (hname.simulates hat).bind fun text _ heq => ?_
  subst heq
  exact .bind_same fun data _ => h.put text data

/-- A round of `data_reverse` writes what it makes of the source. -/
theorem dataReverseRound_simulates (hsource : Spelled bufText arg (2 * k))
    (hname : Spelled bufText arg (2 * k + 1)) (h : Represents bre env) :
    Simulates Represents (dataReverseRound u arg k bre) (reverseRound u arg k env) := by
  refine .bind_same fun source hat => (hsource.simulates hat).bind fun src _ heq => ?_
  subst heq
  rw [h.get, ok_bind]
  refine .bind_same fun des hat => .bind_same fun data _ => ?_
  refine (hname.simulates hat).bind fun text _ heq => ?_
  subst heq
  exact h.put text data

/-- Where its rounds do what they are for, so does the loop. -/
theorem dataGroups_simulates {width : ℤ} {round : ℕ → Bre → Res Bre} {spec : ℕ → Env → Res Env}
    {ccb : Ccb} (h : Represents ccb.bre env)
    (hround : ∀ k < arg.groups width, ∀ bre env, Represents bre env →
      Simulates Represents (round k bre) (spec k env)) :
    Simulates (fun r env => Represents r.2.bre env) (dataGroups width round ccb arg)
      (loopFrom spec (arg.groups width) 0 env) := by
  unfold dataGroups
  by_cases heven : arg.cnt.tmod width ≠ 0
  · have hnone : arg.groups width = 0 := if_pos heven
    rw [if_pos heven, hnone]
    exact .ok h
  · have hsome : arg.groups width = (arg.cnt / width).toNat := if_neg heven
    rw [if_neg heven, ← hsome]
    intro env' henv'
    obtain ⟨bre', hloop, h'⟩ := Simulates.loop hround (Nat.zero_add _) h env' henv'
    exact ⟨_, by rw [hloop]; rfl, h'⟩

end Rounds

/-- A call whose names are spelled writes what it is to write. -/
theorem DataCall.run_simulates {c : DataCall} (hnames : c.NamesSpelled) {ccb : Ccb} {env : Env}
    (h : Represents ccb.bre env) :
    Simulates (fun ccb env => Represents ccb.bre env) (c.run ccb) (c.spec env) := by
  obtain ⟨fn, u, rsp, arg⟩ := c
  have hcall : Simulates (fun r env => Represents r.2.bre env) (fn.call u ccb rsp arg)
      (DataCall.spec ⟨fn, u, rsp, arg⟩ env) := by
    cases fn with
    | dataSet =>
      exact dataGroups_simulates h fun k hk _ _ h => dataSetRound_simulates (hnames k hk) h
    | dataExtractRsp =>
      exact dataGroups_simulates h fun k hk _ _ h => dataExtractRspRound_simulates (hnames k hk) h
    | dataExtract =>
      exact dataGroups_simulates h fun k hk _ _ h =>
        dataExtractRound_simulates (hnames k hk).1 (hnames k hk).2 h
    | dataConcat => exact hnames.elim
    | dataReverse =>
      exact dataGroups_simulates h fun k hk _ _ h =>
        dataReverseRound_simulates (hnames k hk).1 (hnames k hk).2 h
  intro env' henv'
  obtain ⟨⟨ret, ccb'⟩, hok, h'⟩ := hcall env' henv'
  exact ⟨ccb', by simp only [DataCall.run, hok]; rfl, h'⟩

/-- Asking for a name by a C string. -/
theorem Represents.dataGetByName {ccb : Ccb} {env : Env} (h : Represents ccb.bre env)
    {mem text : List UInt8} (hmem : cString mem = .ok text) :
    dataGetByName ccb mem = .ok (env.value text) := by
  rw [TsmVm.dataGetByName, hmem, ok_bind, h.get]

/-- Calls behind each other. -/
def runCalls (calls : List DataCall) (ccb : Ccb) : Res Ccb :=
  calls.foldlM (fun ccb c => c.run ccb) ccb

/-- What calls behind each other are to write. -/
def specCalls (calls : List DataCall) (env : Env) : Res Env :=
  calls.foldlM (fun env c => c.spec env) env

/-- **The environment is a map** after calls whose names are spelled. Whoever asks
for a name gets what was last written to it: by a C string, by a literal as the
other bytecodes do, and by an operand structure that spells its operand. -/
theorem environment_is_map (calls : List DataCall) (ccb : Ccb) (env : Env) (hbre : ccb.bre = [])
    (hnames : ∀ c ∈ calls, c.NamesSpelled) (henv : specCalls calls [] = .ok env) :
    ∃ ccb', runCalls calls ccb = .ok ccb' ∧
      (∀ mem text, cString mem = .ok text → dataGetByName ccb' mem = .ok (env.value text)) ∧
      (∀ name : String, (∀ b ∈ literal name, b ≠ 0) →
        dataGetByLiteral ccb' name = .ok (env.value (literal name))) ∧
      ∀ p : FmBytes, structText (some p) = .ok p.content →
        dataGetByName ccb' p.structBytes = .ok (env.value p.content) := by
  have hstart : Represents ccb.bre [] := hbre ▸ represents_nil
  have hrun : Simulates (fun ccb env => Represents ccb.bre env) (runCalls calls ccb)
      (specCalls calls []) :=
    Simulates.foldlM (fun c hc _ _ h => DataCall.run_simulates (hnames c hc) h) hstart
  obtain ⟨ccb', hok, h⟩ := hrun env henv
  refine ⟨ccb', hok, fun _ _ hmem => h.dataGetByName hmem, ?_, ?_⟩
  · intro name hname
    exact h.dataGetByName (cString_terminated hname [])
  · intro p hp
    exact h.dataGetByName hp

/-- An operand as the script loader makes it, with nothing behind its buffer. -/
def operand (text : List UInt8) : FmBytes :=
  { size := text.length, leng := text.length, addr := 1, buf := text }

/-- `data_set,01:name`. -/
def setCall (name : List UInt8) : DataCall :=
  { fn := .dataSet, u := plainUnspec, rsp := .null,
    arg := { addr := 1, size := 10, cnt := 2,
             array := [some (operand [0x30, 0x31]), some (operand name)] } }

/-- The structure of an operand with the single byte 1 spells it: its first byte
is the length. -/
theorem setCall_spelled : (setCall [1]).NamesSpelled := by
  intro k hk p hp
  obtain rfl : k = 0 := by
    have : k < 1 := hk
    omega
  obtain rfl : operand [1] = p := by simpa using Except.ok.inj hp
  rfl

/-- An operand of one byte, with a zero behind it. -/
def nameOperand (b : UInt8) : FmBytes := { size := 1, leng := 1, addr := 1, buf := [b, 0] }

/-- `data_reverse,src:des`, with names of one byte. -/
def reverseCall (src des : UInt8) : DataCall :=
  { fn := .dataReverse, u := plainUnspec, rsp := .null,
    arg := { addr := 1, size := 10, cnt := 2,
             array := [some (nameOperand src), some (nameOperand des)] } }

/-- Its names are read up to the zero. -/
theorem reverseCall_spelled {src des : UInt8} (hsrc : src ≠ 0) (hdes : des ≠ 0) :
    (reverseCall src des).NamesSpelled := by
  have hname : ∀ b : UInt8, b ≠ 0 → bufText (some (nameOperand b)) =
      .ok (nameOperand b).content := by
    intro b hb
    exact cString_terminated (s := [b]) (by simpa using hb) []
  intro k hk
  obtain rfl : k = 0 := by
    have : k < 1 := hk
    omega
  constructor
  · intro p hp
    obtain rfl : nameOperand src = p := by simpa using Except.ok.inj hp
    exact hname src hsrc
  · intro p hp
    obtain rfl : nameOperand des = p := by simpa using Except.ok.inj hp
    exact hname des hdes

/-- A value is set, another made from it under a second name, and the first overwritten by
what is made from that one: each name has what was written to it last. -/
theorem environment_is_map_one_byte : ∃ (ccb' : Ccb) (v w : FmBytes),
    runCalls [setCall [1], reverseCall 1 2, reverseCall 2 1] (plainCcb 7 2) = .ok ccb' ∧
      v.buf = [254] ∧ w.buf = [] ∧ dataGetByName ccb' [2, 0] = .ok (some v) ∧
      dataGetByName ccb' [1, 0] = .ok (some w) ∧
      dataGetByName ccb' (operand [1]).structBytes = .ok (some w) := by
  have hnames : ∀ c ∈ [setCall [1], reverseCall 1 2, reverseCall 2 1], c.NamesSpelled := by
    simp only [List.forall_mem_cons]
    exact ⟨setCall_spelled, reverseCall_spelled (by decide) (by decide),
      reverseCall_spelled (by decide) (by decide), by simp⟩
  obtain ⟨ccb', hrun, hget, -, hstruct⟩ := environment_is_map
    [setCall [1], reverseCall 1 2, reverseCall 2 1] (plainCcb 7 2)
    [([1], some ⟨1, 1, 1, [1]⟩), ([2], some ⟨1, 0, 1, [254]⟩), ([1], some ⟨0, 0, 1, []⟩)]
    rfl hnames rfl
  exact ⟨ccb', _, _, hrun, rfl, rfl, hget [2, 0] [2] rfl, hget [1, 0] [1] rfl,
    hstruct (operand [1]) rfl⟩

/-- After `data_set,01:ab` there is nothing under `ab`. -/
theorem environment_fails : ∃ (ccb' : Ccb) (v : FmBytes),
    runCalls [setCall [0x61, 0x62]] (plainCcb 7 2) = .ok ccb' ∧
      specCalls [setCall [0x61, 0x62]] [] = .ok [([0x61, 0x62], some v)] ∧
      dataGetByName ccb' [0x61, 0x62, 0] = .ok none := by
  exact ⟨_, ⟨1, 1, 1, [1]⟩, rfl, rfl, rfl⟩

end TsmVm
