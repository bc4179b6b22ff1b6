import TsmVm.Configuration

/-!
# Rejected lines of a configuration

`cfg_load` ignores what `cfg_parse_line` returns and goes on with the section the
line has left. A header that comes too late is rejected behind the assignment of its
section, so that the lines behind it are read in a section that was over.
-/

namespace TsmVm

/-- A rejected line has no effect, and an accepted header raises the section. -/
def LineKept (u : Unspec) (cfg : TsmCfg) (line : CText) (sec : ℕ) : Prop :=
  ∀ (cfg' : TsmCfg) (sec' : ℕ) (ret : ℤ),
    cfgParseLine u cfg line.chars sec = .ok (cfg', sec', ret) →
      (ret = -1 → cfg' = cfg ∧ sec' = sec) ∧
        (line.chars.head? = some 91 → ret ≠ -1 → sec < sec')

/-- What is taken for the name of a header: its first word, or what the buffer happens
to hold. -/
def headerName (u : Unspec) (line : CText) : List UInt8 :=
  match (sscanf sectionFormat line.chars 0).head? with
  | some (.text w) => w ++ [0]
  | _ => (List.range 1024).map u.stack

/-- The memory spells the name of a section. -/
inductive SpellsSection : List UInt8 → ℕ → Prop
  | global (rest : List UInt8) : SpellsSection (literal "global" ++ 0 :: rest) 1
  | agent (rest : List UInt8) : SpellsSection (literal "agent" ++ 0 :: rest) 2

/-- The line is the header of a section. -/
def IsHeader (u : Unspec) (line : CText) (n : ℕ) : Prop :=
  line.chars.head? = some 91 ∧ SpellsSection (headerName u line) n

variable {u : Unspec} {cfg cfg' : TsmCfg} {line : CText} {name text : List UInt8} {sec sec' : ℕ}
  {ret : ℤ}

/-- A string that compares equal is spelled by the memory. -/
theorem strcmpEq_true (h : strcmpEq name text = .ok true) : ∃ rest, name = text ++ 0 :: rest := by
  induction name generalizing text with
  | nil => cases h
  | cons b name ih =>
    cases text with
    | nil =>
      obtain rfl : b = 0 := by simpa [strcmpEq] using h
      exact ⟨name, rfl⟩
    | cons c text =>
      rw [strcmpEq] at h
      split at h
      · obtain ⟨rest, rfl⟩ := ih h
        subst b
        exact ⟨rest, rfl⟩
      · cases h

/-- The names of the sections are strings. -/
theorem literal_global_ne_zero : ∀ b ∈ literal "global", b ≠ 0 := fun _ hb =>
  ne_of_mem_of_not_mem hb (by decide)

theorem literal_agent_ne_zero : ∀ b ∈ literal "agent", b ≠ 0 := fun _ hb =>
  ne_of_mem_of_not_mem hb (by decide)

/-- What is read of a header is part of the line. -/
theorem sectionName_ne_zero {w : List UInt8}
    (hw : (sscanf sectionFormat line.chars 0).head? = some (.text w)) : ∀ b ∈ w, b ≠ 0 := by
  have hsub : ∀ b ∈ w, b ∈ line.chars := by
    unfold sectionFormat at hw
    cases hline : line.chars with
    | nil =>
      rw [hline] at hw
      simp [sscanf] at hw
    | cons c chars =>
      rw [hline, sscanf] at hw
      split at hw
      · rw [sscanf, sscanf] at hw
        split at hw
        · cases hw
        · obtain rfl := Scanned.text.inj (Option.some.inj hw)
          intro b hb
          have htake := (List.takeWhile_sublist _).subset hb
          exact List.mem_cons_of_mem c ((List.dropWhile_sublist _).subset htake)
      · cases hw
  exact fun b hb => line.ne_zero b (hsub b hb)

theorem headerName_text {w : List UInt8}
    (hw : (sscanf sectionFormat line.chars 0).head? = some (.text w)) :
    headerName u line = w ++ [0] := by
  unfold headerName
  rw [hw]

theorem headerName_stack
    (hno : ∀ w, (sscanf sectionFormat line.chars 0).head? = some (.text w) → False) :
    headerName u line = (List.range 1024).map u.stack := by
  unfold headerName
  split
  · exact (hno _ ‹_›).elim
  · rfl

/-- Which section a header selects, and what is returned. -/
theorem cfgParseSection_eq_ok {r : ℕ × ℤ}
    (h : cfgParseSection ((List.range 1024).map u.stack) line.chars sec = .ok r) :
    (∃ n, SpellsSection (headerName u line) n ∧ r = (n, if sec ≥ n then -1 else 0)) ∨
      r = (sec, -1) := by
  unfold cfgParseSection at h
  obtain ⟨name, hname, h⟩ := bind_eq_ok.mp h
  obtain rfl : headerName u line = name := by
    split at hname
    · split at hname
      · exact (headerName_text ‹_›).trans (Except.ok.inj hname)
      · cases hname
    · exact (headerName_stack ‹_›).trans (Except.ok.inj hname)
  obtain ⟨isGlobal, hglobal, h⟩ := bind_eq_ok.mp h
  obtain ⟨isAgent, hagent, h⟩ := bind_eq_ok.mp h
  cases isGlobal with
  | true =>
    obtain ⟨rest, hrest⟩ := strcmpEq_true hglobal
    exact .inl ⟨1, hrest ▸ .global rest, (Except.ok.inj h).symm⟩
  | false =>
    cases isAgent with
    | true =>
      obtain ⟨rest, hrest⟩ := strcmpEq_true hagent
      exact .inl ⟨2, hrest ▸ .agent rest, (Except.ok.inj h).symm⟩
    | false => exact .inr (Except.ok.inj h).symm

/-- The comparisons find the section whose name the memory spells. -/
theorem compare_spells {n : ℕ} (h : SpellsSection name n) : (do
    let isGlobal ← strcmpEq name (literal "global")
    let isAgent ← strcmpEq name (literal "agent")
    if isGlobal then return (1, if sec ≥ 1 then -1 else 0)
    else if isAgent then return (2, if sec ≥ 2 then -1 else 0)
    else return (sec, -1) : Res (ℕ × ℤ)) = .ok (n, if sec ≥ n then -1 else 0) := by
  cases h with
  | global rest =>
    rw [strcmpEq_terminated literal_global_ne_zero literal_global_ne_zero, ok_bind,
      strcmpEq_terminated literal_global_ne_zero literal_agent_ne_zero, ok_bind]
    rfl
  | agent rest =>
    rw [strcmpEq_terminated literal_agent_ne_zero literal_global_ne_zero, ok_bind,
      strcmpEq_terminated literal_agent_ne_zero literal_agent_ne_zero, ok_bind]
    rfl

/-- A name of a section is read, and compares equal to it. -/
theorem cfgParseSection_of_spells {n : ℕ} (h : SpellsSection (headerName u line) n) :
    cfgParseSection ((List.range 1024).map u.stack) line.chars sec =
      .ok (n, if sec ≥ n then -1 else 0) := by
  have hshort : ∀ w, (sscanf sectionFormat line.chars 0).head? = some (.text w) →
      w.length < 1024 := by
    intro w hw
    -- a name that spells the one or the other is as long as it
    have hlen : ∀ x, (∀ b ∈ x, b ≠ 0) → (∃ rest, w ++ [0] = x ++ 0 :: rest) → w = x := by
      rintro x hx ⟨rest, hrest⟩
      have hw0 := cString_terminated (sectionName_ne_zero hw) []
      rw [hrest, cString_terminated hx] at hw0
      exact (Except.ok.inj hw0).symm
    rw [headerName_text hw] at h
    generalize hmem : w ++ [0] = mem at h
    cases h with
    | global rest =>
      obtain rfl := hlen _ literal_global_ne_zero ⟨rest, hmem⟩
      decide
    | agent rest =>
      obtain rfl := hlen _ literal_agent_ne_zero ⟨rest, hmem⟩
      decide
  unfold cfgParseSection
  split
  · rename_i w hw
    rw [if_pos (hshort w hw), ok_bind, ← headerName_text hw]
    exact compare_spells h
  · rename_i hno
    rw [ok_bind, ← headerName_stack hno]
    exact compare_spells h

/-- A rejected line that is no header has no effect. -/
theorem cfgParseLine_rejected (h : cfgParseLine u cfg line.chars sec = .ok (cfg', sec', ret))
    (hline : line.chars.head? ≠ some 91) (hret : ret = -1) : cfg' = cfg ∧ sec' = sec := by
  unfold cfgParseLine at h
  rw [if_neg hline] at h
  split at h
  · obtain ⟨r, hr, h⟩ := bind_eq_ok.mp h
    obtain ⟨rfl, rfl, rfl⟩ : r.1 = cfg' ∧ sec = sec' ∧ r.2 = ret := by simpa using h
    obtain rfl | hset := cfgParseOption_eq_ok hr
    · exact ⟨rfl, rfl⟩
    · rw [hset.2] at hret
      cases hret
  split at h
  · obtain ⟨r, hr, h⟩ := bind_eq_ok.mp h
    obtain ⟨rfl, rfl, rfl⟩ : r.1 = cfg' ∧ sec = sec' ∧ r.2 = ret := by simpa using h
    rw [cfgParseAgent_eq hr]
    exact ⟨rfl, rfl⟩
  · obtain ⟨rfl, rfl, -⟩ : cfg = cfg' ∧ sec = sec' ∧ -1 = ret := by simpa using h
    exact ⟨rfl, rfl⟩

/-- What a header does. -/
theorem cfgParseLine_header (hline : line.chars.head? = some 91) :
    cfgParseLine u cfg line.chars sec =
      (cfgParseSection ((List.range 1024).map u.stack) line.chars sec >>= fun r =>
        return (cfg, r.1, r.2)) := by
  unfold cfgParseLine
  rw [if_pos hline]

/-- A header of a lower section is rejected, and lowers the section. -/
theorem le_of_lineKept (h : LineKept u cfg line sec) {n : ℕ} (hheader : IsHeader u line n) :
    sec ≤ n := by
  obtain ⟨hline, hspells⟩ := hheader
  by_contra hlate
  have hrun : cfgParseLine u cfg line.chars sec = .ok (cfg, n, -1) := by
    rw [cfgParseLine_header hline, cfgParseSection_of_spells hspells, ok_bind, if_pos (by omega)]
    rfl
  have hsame := ((h cfg n (-1) hrun).1 rfl).2
  omega

/-- **Rejected lines.** A rejected line has no effect, and an accepted header raises the
section, exactly where the line is no header of a section lower than the current one. -/
theorem lineKept_iff (u : Unspec) (cfg : TsmCfg) (line : CText) (sec : ℕ) :
    LineKept u cfg line sec ↔ ∀ n, IsHeader u line n → sec ≤ n := by
  constructor
  · exact fun h n hheader => le_of_lineKept h hheader
  · intro h cfg' sec' ret hrun
    by_cases hline : line.chars.head? = some 91
    · rw [cfgParseLine_header hline] at hrun
      obtain ⟨r, hr, hrun⟩ := bind_eq_ok.mp hrun
      obtain ⟨rfl, rfl⟩ : cfg = cfg' ∧ r = (sec', ret) := by simpa using hrun
      obtain ⟨n, hspells, heq⟩ | heq := cfgParseSection_eq_ok hr
      · have hle := h n ⟨hline, hspells⟩
        obtain ⟨rfl, rfl⟩ := Prod.mk.inj heq
        by_cases hge : sec ≥ sec'
        · rw [if_pos hge]
          exact ⟨fun _ => ⟨rfl, by omega⟩, fun _ hret => absurd rfl hret⟩
        · rw [if_neg hge]
          exact ⟨fun hret => absurd hret (by decide), fun _ _ => by omega⟩
      · obtain ⟨rfl, rfl⟩ := Prod.mk.inj heq
        exact ⟨fun _ => ⟨rfl, rfl⟩, fun _ hret => absurd rfl hret⟩
    · exact ⟨cfgParseLine_rejected hrun hline, fun hhead => absurd hhead hline⟩

/-- The header of the first section. -/
def globalHeader : CText where
  chars := literal "[global]"
  ne_zero _ hb := ne_of_mem_of_not_mem hb (by decide)

/-- Behind the agents the header of the first section is rejected, and makes the lines
behind it options. -/
theorem globalHeader_fail : ¬ ∀ (u : Unspec) (cfg : TsmCfg) (line : CText) (sec : ℕ),
    LineKept u cfg line sec := by
  intro h
  have hname : headerName plainUnspec globalHeader = literal "global" ++ [0] := rfl
  have hheader : IsHeader plainUnspec globalHeader 1 := ⟨rfl, hname ▸ .global []⟩
  have hle := le_of_lineKept (h plainUnspec tsmCfgCalloc globalHeader 2) hheader
  exact absurd hle (by decide)

end TsmVm
