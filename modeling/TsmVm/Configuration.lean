import TsmVm.ScriptFiles
import TsmVm.TsmCfg

/-!
# What the configuration file says, and what is loaded

A file in the format of `tsm.conf` gives three limits and then the agents, line by
line. The limits are loaded. No agent is: the line is not what is scanned, a `%s`
takes the commas with it, and the list in the structure was never set up.
-/

namespace TsmVm

/-- The limits of the `[global]` section. -/
structure CfgLimits where
  bcParmMax : ℕ
  bcClassNum : ℕ
  bcClassRoom : ℕ

/-- An agent as a line of the `[agent]` section gives it. -/
structure AgentFields where
  agentId : ℕ
  name : List UInt8
  rFifo : List UInt8
  wFifo : List UInt8

/-- The text is a number in decimal. -/
structure IsDecimal (text : List UInt8) (n : ℕ) : Prop where
  ne_nil : text ≠ []
  digits : ∀ b ∈ text, isDigit b = true
  value : decimalOf text = n

/-- The text is the line of an option. -/
def IsOptionLine (option : String) (n : ℕ) (text : List UInt8) : Prop :=
  ∃ number, IsDecimal number n ∧ text = literal option ++ literal " = " ++ number

/-- The characters of a field. -/
def IsFieldText (text : List UInt8) : Prop :=
  text ≠ [] ∧ ∀ b ∈ text, b ≠ 0 ∧ b ≠ 44 ∧ isSpace b = false

/-- The text is the line of an agent. -/
def IsAgentLine (agent : AgentFields) (text : List UInt8) : Prop :=
  IsFieldText agent.name ∧ IsFieldText agent.rFifo ∧ IsFieldText agent.wFifo ∧
    ∃ number, IsDecimal number agent.agentId ∧
      text = number ++ [44] ++ agent.name ++ [44] ++ agent.rFifo ++ [44] ++ agent.wFifo

/-- The text of a line without its leading blanks. -/
def ScriptLine.content (l : ScriptLine) : List UInt8 := l.text.dropWhile isTrim

/-- A file in the format of `tsm.conf`, with any comments and blank lines. -/
structure ConfigFile (limits : CfgLimits) (agents : List AgentFields) (file : ScriptFile) :
    Prop where
  /-- What is in the lines that are neither comments nor blank. -/
  sections : ∃ parmMax classMax classRoom agentLines,
    file.code.map ScriptLine.content = literal "[global]" :: parmMax :: classMax :: classRoom ::
      literal "[agent]" :: agentLines ∧
    IsOptionLine "bytecode parameter max" limits.bcParmMax parmMax ∧
    IsOptionLine "bytecode class max" limits.bcClassNum classMax ∧
    IsOptionLine "bytecode class room" limits.bcClassRoom classRoom ∧
    List.Forall₂ IsAgentLine agents agentLines
  /-- The limits are `int`s. -/
  limits_lt : limits.bcParmMax < 2147483648 ∧ limits.bcClassNum < 2147483648 ∧
    limits.bcClassRoom < 2147483648
  /-- So are the numbers of the agents. -/
  agents_lt : ∀ agent ∈ agents, agent.agentId < 2147483648
  /-- Every line is shorter than 1023 characters. -/
  fits : ∀ l ∈ file.lines, l.bytes.length < 1023

/-- An entry of the list has the fields of an agent, as C strings. -/
structure AgentInfo.Holds (info : AgentInfo) (agent : AgentFields) : Prop where
  agentId : info.agentId = agent.agentId
  name : cString info.name = .ok agent.name
  rFifo : cString info.agentRFifo = .ok agent.rFifo
  wFifo : cString info.agentWFifo = .ok agent.wFifo

/-- The configuration has just these limits and agents. -/
structure TsmCfg.Holds (cfg : TsmCfg) (limits : CfgLimits) (agents : List AgentFields) :
    Prop where
  bcParmMax : cfg.bcParmMax = limits.bcParmMax
  bcClassNum : cfg.bcClassNum = limits.bcClassNum
  bcClassRoom : cfg.bcClassRoom = limits.bcClassRoom
  agents : ∃ infos, listForEach cfg.agList = .ok infos ∧
    List.Forall₂ AgentInfo.Holds infos agents

/-- `cfg_load` returns what the file says. -/
def LoadsConfig (us : ℕ → Unspec) (path : List UInt8) (file : ScriptFile) (limits : CfgLimits)
    (agents : List AgentFields) : Prop :=
  ∃ cfg, cfgLoad us (fun _ => some file.bytes) path = .ok (some cfg) ∧ cfg.Holds limits agents

/-! ## The agents -/

/-- Behind the word a `%s` has read no comma follows. -/
theorem sscanf_word_comma (fmt : List ScanDirective) (s : List UInt8) (k : ℕ) :
    (sscanf (.word :: .char 44 :: fmt) s k).length ≤ 1 := by
  rw [sscanf]
  split
  · simp
  · cases hrest : ((s.dropWhile isSpace).dropWhile (!isSpace ·)) with
    | nil => simp [sscanf]
    | cons b rest =>
      have hspace : isSpace b = true := by
        have hhead := List.head_dropWhile_not (!isSpace ·) (l := s.dropWhile isSpace)
          (by rw [hrest]; exact List.cons_ne_nil b rest)
        simpa [hrest] using hhead
      have hcomma : b ≠ 44 := by
        rintro rfl
        exact absurd hspace (by decide)
      simp [sscanf, hcomma]

/-- No string gives four fields. -/
theorem scanCount_agentFormat (s : List UInt8) : scanCount (sscanf agentFormat s 0) ≠ 4 := by
  have hlength : (sscanf agentFormat s 0).length ≤ 2 := by
    unfold agentFormat
    rw [sscanf]
    split
    · simp
    · rename_i v t hscan
      rw [List.length_cons]
      cases t with
      | nil => simp [sscanf]
      | cons b t =>
        rw [sscanf]
        split
        · have hword := sscanf_word_comma [.word, .char 44, .word] t
            (0 + (s.length - (b :: t).length) + 1)
          omega
        · simp
  have hcount : scanCount (sscanf agentFormat s 0) ≤ (sscanf agentFormat s 0).length :=
    List.countP_le_length
  omega

/-- A line of the second section is always rejected. -/
theorem cfgParseAgent_eq {name : List UInt8} {cfg : TsmCfg} {r : TsmCfg × ℤ}
    (h : cfgParseAgent name cfg = .ok r) : r = (cfg, -1) := by
  unfold cfgParseAgent at h
  obtain ⟨text, -, h⟩ := bind_eq_ok.mp h
  obtain ⟨word1, -, h⟩ := bind_eq_ok.mp h
  obtain ⟨word2, -, h⟩ := bind_eq_ok.mp h
  obtain ⟨word3, -, h⟩ := bind_eq_ok.mp h
  rw [if_pos (scanCount_agentFormat text)] at h
  exact (Except.ok.inj h).symm

/-- An option is rejected, or it changes a limit and no agent. -/
theorem cfgParseOption_eq_ok {cfg : TsmCfg} {line : List UInt8} {r : TsmCfg × ℤ}
    (h : cfgParseOption cfg line = .ok r) :
    r = (cfg, -1) ∨ r.1.agList = cfg.agList ∧ r.2 = 0 := by
  have hset : ∀ {v : Res ℤ} {f : ℤ → TsmCfg}, (∀ n, (f n).agList = cfg.agList) →
      (do let n ← v; return (f n, 0) : Res (TsmCfg × ℤ)) = .ok r →
      r.1.agList = cfg.agList ∧ r.2 = 0 := by
    intro v f hf hv
    obtain ⟨n, -, hv⟩ := bind_eq_ok.mp hv
    obtain rfl := Except.ok.inj hv
    exact ⟨hf n, rfl⟩
  unfold cfgParseOption at h
  obtain ⟨name, -, h⟩ := bind_eq_ok.mp h
  obtain ⟨value, -, h⟩ := bind_eq_ok.mp h
  split at h
  · exact .inl (Except.ok.inj h).symm
  obtain ⟨word1, -, h⟩ := bind_eq_ok.mp h
  obtain ⟨word2, -, h⟩ := bind_eq_ok.mp h
  obtain ⟨word3, -, h⟩ := bind_eq_ok.mp h
  split at h
  · split at h
    · exact .inr (hset (f := fun n => { cfg with bcParmMax := n }) (fun _ => rfl) h)
    split at h
    · exact .inr (hset (f := fun n => { cfg with bcClassNum := n }) (fun _ => rfl) h)
    split at h
    · exact .inr (hset (f := fun n => { cfg with bcClassRoom := n }) (fun _ => rfl) h)
    · exact .inl (Except.ok.inj h).symm
  · exact .inl (Except.ok.inj h).symm

/-- No line changes the list of agents. -/
theorem cfgParseLine_agList {u : Unspec} {cfg : TsmCfg} {line : List UInt8} {sec : ℕ}
    {r : TsmCfg × ℕ × ℤ} (h : cfgParseLine u cfg line sec = .ok r) :
    r.1.agList = cfg.agList := by
  unfold cfgParseLine at h
  dsimp only at h
  split at h
  · obtain ⟨p, -, h⟩ := bind_eq_ok.mp h
    obtain rfl := Except.ok.inj h
    rfl
  split at h
  · obtain ⟨p, hp, h⟩ := bind_eq_ok.mp h
    obtain rfl := Except.ok.inj h
    obtain rfl | hset := cfgParseOption_eq_ok hp
    · rfl
    · exact hset.1
  split at h
  · obtain ⟨p, hp, h⟩ := bind_eq_ok.mp h
    obtain rfl := Except.ok.inj h
    rw [cfgParseAgent_eq hp]
  · obtain rfl := Except.ok.inj h
    rfl

/-- Nor does a line of the file. -/
theorem cfgLoadLine_agList {u : Unspec} {cfg : TsmCfg} {sec : ℕ} {read : List UInt8}
    {r : TsmCfg × ℕ} (h : cfgLoadLine u cfg sec read = .ok r) : r.1.agList = cfg.agList := by
  unfold cfgLoadLine at h
  obtain ⟨first, -, h⟩ := bind_eq_ok.mp h
  split at h
  · obtain rfl := Except.ok.inj h
    rfl
  · obtain ⟨text, -, h⟩ := bind_eq_ok.mp h
    obtain ⟨last, -, h⟩ := bind_eq_ok.mp h
    obtain ⟨line, -, h⟩ := bind_eq_ok.mp h
    obtain ⟨trimmed, -, h⟩ := bind_eq_ok.mp h
    obtain ⟨p, hp, h⟩ := bind_eq_ok.mp h
    obtain rfl := Except.ok.inj h
    exact cfgParseLine_agList hp

/-- The list of agents stays as `calloc` left it. -/
theorem cfgLoadLoop_agList {us : ℕ → Unspec} {reads : List (List UInt8)} {k sec : ℕ}
    {cfg cfg' : TsmCfg} (h : cfgLoadLoop us reads k cfg sec = .ok cfg') :
    cfg'.agList = cfg.agList := by
  induction reads generalizing k cfg sec with
  | nil =>
    obtain rfl := Except.ok.inj h
    rfl
  | cons read reads ih =>
    obtain ⟨r, hr, h⟩ := bind_eq_ok.mp h
    exact (ih h).trans (cfgLoadLine_agList hr)

/-- Nor does `cfg_load` set it up. -/
theorem cfgLoad_agList {us : ℕ → Unspec} {files : List UInt8 → Option (List UInt8)}
    {path : List UInt8} {cfg : TsmCfg} (h : cfgLoad us files path = .ok (some cfg)) :
    cfg.agList = .zeroed := by
  unfold cfgLoad at h
  split at h
  · cases h
  · obtain ⟨cfg', hloop, hcfg⟩ := bind_eq_ok.mp h
    obtain rfl : cfg' = cfg := by simpa using hcfg
    exact cfgLoadLoop_agList hloop

/-- **The configuration.** What `cfg_load` returns has no list of agents, whatever the
file says. -/
theorem config_never_loaded (us : ℕ → Unspec) (path : List UInt8) (file : ScriptFile)
    (limits : CfgLimits) (agents : List AgentFields) :
    ¬ LoadsConfig us path file limits agents := by
  rintro ⟨cfg, hload, hholds⟩
  obtain ⟨infos, hinfos, -⟩ := hholds.agents
  rw [cfgLoad_agList hload] at hinfos
  cases hinfos

/-- A configuration with one agent: `0,A,R,W`. -/
def sampleConfig : ScriptFile :=
  { lines := [⟨literal "[global]", .lf, by decide +kernel, by decide +kernel⟩,
      ⟨literal "bytecode parameter max = 20", .lf, by decide +kernel, by decide +kernel⟩,
      ⟨literal "bytecode class max = 8", .lf, by decide +kernel, by decide +kernel⟩,
      ⟨literal "bytecode class room = 32", .lf, by decide +kernel, by decide +kernel⟩,
      ⟨literal "[agent]", .lf, by decide +kernel, by decide +kernel⟩,
      ⟨literal "0,A,R,W", .lf, by decide +kernel, by decide +kernel⟩],
    ended := by simp
    last_ne := by simp }

/-- The agent of the sample is not loaded. -/
theorem config_not_loaded : ¬ ∀ (us : ℕ → Unspec) (path : List UInt8) (file : ScriptFile)
    (limits : CfgLimits) (agents : List AgentFields), ConfigFile limits agents file →
      LoadsConfig us path file limits agents := by
  intro h
  have hfield : ∀ b : UInt8, b ∈ [65, 82, 87] → IsFieldText [b] := by
    intro b hb
    simp only [List.mem_cons, List.not_mem_nil, or_false] at hb
    obtain rfl | rfl | rfl := hb <;> exact ⟨by simp, by simp [isSpace]⟩
  have hfile : ConfigFile ⟨20, 8, 32⟩ [⟨0, [65], [82], [87]⟩] sampleConfig := by
    refine ⟨⟨_, _, _, [literal "0,A,R,W"], rfl, ⟨literal "20", ?_, rfl⟩, ⟨literal "8", ?_, rfl⟩,
      ⟨literal "32", ?_, rfl⟩, ?_⟩, by decide, by simp, by decide +kernel⟩
    · exact ⟨by decide, by decide +kernel, by decide⟩
    · exact ⟨by decide, by decide +kernel, by decide⟩
    · exact ⟨by decide, by decide +kernel, by decide⟩
    · refine .cons ⟨hfield 65 (by simp), hfield 82 (by simp), hfield 87 (by simp),
        literal "0", ?_, rfl⟩ .nil
      exact ⟨by decide, by decide +kernel, by decide⟩
  obtain ⟨cfg, hload, hholds⟩ := h (fun _ => plainUnspec) [] sampleConfig _ _ hfile
  obtain ⟨infos, hinfos, -⟩ := hholds.agents
  rw [cfgLoad_agList hload] at hinfos
  cases hinfos

end TsmVm
