import TsmVm.CapLoader
import Mathlib.Algebra.BigOperators.Intervals

/-!
# What the loops over the applets touch

The first loop moves by the sum of the lengths it has read, the second by the length of
each entry. Both stay inside their blocks exactly where all they read lies in the memory
of the component, and where the AIDs together are no longer than the sum the first loop
ends with.
-/

namespace TsmVm

/-- The length at an offset of the memory. -/
def lengthAt (mem : List UInt8) (offset : ℕ) : UInt8 := mem.getD offset 0

/-- A round of the first loop: the length is added to the sum, and the offset moves by
the sum. -/
def nextSum (mem : List UInt8) (r : ℕ × UInt8) : ℕ × UInt8 :=
  (r.1 + ((r.2 + lengthAt mem r.1).toNat + 3), r.2 + lengthAt mem r.1)

/-- The offset and the sum after some rounds. -/
def sumAfter (mem : List UInt8) (k : ℕ) : ℕ × UInt8 := (nextSum mem)^[k] (4, 0)

/-- Where the entry behind the one at an offset is. -/
def nextApplet (mem : List UInt8) (offset : ℕ) : ℕ := offset + ((lengthAt mem offset).toNat + 3)

/-- Where the entry with a number is. -/
def appletAt (mem : List UInt8) (k : ℕ) : ℕ := (nextApplet mem)^[k] 4

/-- The number of applets. -/
def appletCount (mem : List UInt8) : ℕ := (lengthAt mem 3).toNat

/-- The loops stay inside the memory of the component, and inside the block that is
allocated for the AIDs. -/
structure AidsFit (mem : List UInt8) : Prop where
  count : 3 < mem.length
  /-- Wherever the first loop takes a byte for a length there is one. -/
  sums : ∀ k < appletCount mem, (sumAfter mem k).1 < mem.length
  /-- The AIDs are there. -/
  aids : ∀ k < appletCount mem, appletAt mem k + (lengthAt mem (appletAt mem k)).toNat < mem.length
  /-- They are no longer than the sum. -/
  room : ∑ k ∈ Finset.range (appletCount mem), (lengthAt mem (appletAt mem k)).toNat ≤
    (sumAfter mem (appletCount mem)).2.toNat

section Loops

variable {mem des : List UInt8} {adiLen sum : UInt8} {n offset pos : ℕ}

/-- A length is read where there is one. -/
theorem byteAt_eq_ok_iff {b : UInt8} :
    byteAt mem offset = .ok b ↔ offset < mem.length ∧ b = lengthAt mem offset := by
  obtain hlt | hge := Nat.lt_or_ge offset mem.length
  · have hget : mem[offset]? = some (lengthAt mem offset) := by
      rw [lengthAt, List.getD_eq_getElem?_getD, List.getElem?_eq_getElem hlt, Option.getD_some]
    rw [byteAt_natCast hget]
    exact ⟨fun h => ⟨hlt, (Except.ok.inj h).symm⟩, fun h => congrArg Except.ok h.2.symm⟩
  · rw [byteAt_end hge]
    exact ⟨fun h => (by cases h), fun h => by omega⟩

/-- The first loop, from any offset and any sum. -/
theorem aidLenLoop_eq_ok_iff : aidLenLoop mem n offset sum = .ok adiLen ↔
    (∀ k < n, ((nextSum mem)^[k] (offset, sum)).1 < mem.length) ∧
      adiLen = ((nextSum mem)^[n] (offset, sum)).2 := by
  induction n generalizing offset sum with
  | zero => simp [aidLenLoop, eq_comm]
  | succ n ih =>
    rw [aidLenLoop, bind_eq_ok]
    constructor
    · rintro ⟨len, hlen, hloop⟩
      obtain ⟨hlt, rfl⟩ := byteAt_eq_ok_iff.mp hlen
      obtain ⟨hall, hsum⟩ := ih.mp hloop
      refine ⟨fun k hk => ?_, hsum⟩
      cases k with
      | zero => exact hlt
      | succ k => exact hall k (by omega)
    · rintro ⟨hall, hsum⟩
      have hrest : ∀ k < n, ((nextSum mem)^[k] (nextSum mem (offset, sum))).1 < mem.length :=
        fun k hk => hall (k + 1) (by omega)
      exact ⟨lengthAt mem offset, byteAt_eq_ok_iff.mpr ⟨hall 0 (by omega), rfl⟩,
        ih.mpr ⟨hrest, hsum⟩⟩

/-- A round of the second loop copies the AID where it lies in the memory and fits into the
block. -/
theorem copyRound_ok_iff (hpos : pos ≤ des.length) (hlt : offset < mem.length) {len : UInt8} :
    (∃ des', (memRead mem (offset + 1 : ℕ) len.toNat >>= fun aid =>
      memWrite des des.length pos aid) = .ok des') ↔
      offset + len.toNat < mem.length ∧ pos + len.toNat ≤ des.length := by
  rw [memRead_natCast, List.length_drop]
  by_cases hread : len.toNat ≤ mem.length - (offset + 1)
  · have haid : ((mem.drop (offset + 1)).take len.toNat).length = len.toNat := by
      rw [List.length_take, List.length_drop]
      omega
    rw [if_pos hread, ok_bind, memWrite_ok_iff, ← List.length_eq_zero_iff, haid]
    omega
  · rw [if_neg hread]
    constructor
    · rintro ⟨des', h⟩
      cases h
    · intro h
      omega

/-- The second loop, from any offset and with some AIDs copied. -/
theorem aidCopyLoop_ok_iff (hpos : pos ≤ des.length) :
    (∃ r, aidCopyLoop mem n offset pos adiLen des = .ok r) ↔
      (∀ k < n, (nextApplet mem)^[k] offset +
        (lengthAt mem ((nextApplet mem)^[k] offset)).toNat < mem.length) ∧
      pos + ∑ k ∈ Finset.range n, (lengthAt mem ((nextApplet mem)^[k] offset)).toNat ≤
        des.length := by
  induction n generalizing offset pos adiLen des with
  | zero => simpa [aidCopyLoop] using hpos
  | succ n ih =>
    rw [Finset.sum_range_succ']
    simp only [Function.iterate_succ_apply, Function.iterate_zero_apply]
    constructor
    · rintro ⟨r, hr⟩
      obtain ⟨len, hlen, hr⟩ := bind_eq_ok.mp hr
      obtain ⟨hlt, rfl⟩ := byteAt_eq_ok_iff.mp hlen
      obtain ⟨aid, haid, hr⟩ := bind_eq_ok.mp hr
      obtain ⟨des', hdes, hr⟩ := bind_eq_ok.mp hr
      obtain ⟨hread, hfit⟩ := (copyRound_ok_iff hpos hlt).mp ⟨des', by rw [haid, ok_bind, hdes]⟩
      have hlength := (memWrite_drop hdes le_rfl).1
      obtain ⟨hall, hroom⟩ := (ih (by omega)).mp ⟨r, hr⟩
      refine ⟨fun k hk => ?_, ?_⟩
      · cases k with
        | zero => exact hread
        | succ k => exact hall k (by omega)
      · rw [hlength] at hroom
        rw [nextApplet]
        omega
    · rintro ⟨hall, hroom⟩
      have hread : offset + (lengthAt mem offset).toNat < mem.length := hall 0 (by omega)
      obtain ⟨des', hround⟩ := (copyRound_ok_iff hpos (by omega)).mpr ⟨hread, by omega⟩
      obtain ⟨aid, haid, hdes⟩ := bind_eq_ok.mp hround
      have hlength := (memWrite_drop hdes le_rfl).1
      have hrest : ∃ r, aidCopyLoop mem n (nextApplet mem offset)
          (pos + (lengthAt mem offset).toNat) (lengthAt mem offset) des' = .ok r :=
        (ih (by omega)).mpr ⟨fun k hk => hall (k + 1) (by omega), by omega⟩
      obtain ⟨r, hr⟩ := hrest
      refine ⟨r, ?_⟩
      rw [aidCopyLoop, byteAt_eq_ok_iff.mpr ⟨by omega, rfl⟩, ok_bind, haid, ok_bind, hdes, ok_bind]
      exact hr

theorem length_fmshMalloc (junk : ℕ → UInt8) (size : ℕ) : (fmshMalloc junk size).length = size := by
  rw [fmshMalloc, List.length_map, List.length_range]

/-- The AIDs of the applets are taken exactly where the loops stay inside their blocks. -/
theorem getAppletAid_ok_iff (junk : ℕ → UInt8) (mem : List UInt8) (appletAid : CapBuffer) :
    (∃ r, getAppletAid junk mem appletAid = .ok r) ↔ AidsFit mem := by
  have hcopied (adiLen : UInt8) : (∃ r, aidCopyLoop mem (appletCount mem) 4 0 adiLen
      (fmshMalloc junk adiLen.toNat) = .ok r) ↔ (∀ k < appletCount mem,
        appletAt mem k + (lengthAt mem (appletAt mem k)).toNat < mem.length) ∧
      0 + ∑ k ∈ Finset.range (appletCount mem), (lengthAt mem (appletAt mem k)).toNat ≤
        (fmshMalloc junk adiLen.toNat).length := aidCopyLoop_ok_iff (Nat.zero_le _)
  simp only [length_fmshMalloc, Nat.zero_add] at hcopied
  rw [getAppletAid, exists_bind_ok]
  constructor
  · rintro ⟨appCnt, hcount, hrun⟩
    obtain ⟨hlt, rfl⟩ := byteAt_eq_ok_iff.mp hcount
    obtain ⟨adiLen, hsum, hrun⟩ := exists_bind_ok.mp hrun
    obtain ⟨hsums, rfl⟩ := aidLenLoop_eq_ok_iff.mp hsum
    obtain ⟨copied, hcopy, -⟩ := exists_bind_ok.mp hrun
    obtain ⟨haids, hroom⟩ := (hcopied _).mp ⟨copied, hcopy⟩
    exact ⟨hlt, hsums, haids, hroom⟩
  · intro h
    obtain ⟨copied, hcopy⟩ := (hcopied _).mpr ⟨h.aids, h.room⟩
    exact ⟨_, byteAt_eq_ok_iff.mpr ⟨h.count, rfl⟩, exists_bind_ok.mpr
      ⟨_, aidLenLoop_eq_ok_iff.mpr ⟨h.sums, rfl⟩, exists_bind_ok.mpr ⟨copied, hcopy, _, rfl⟩⟩⟩

end Loops

/-- One applet fits where its AID is in the memory: both loops read the same length. -/
theorem aidsFit_one {mem : List UInt8} (hcount : appletCount mem = 1)
    (h : 4 + (lengthAt mem 4).toNat < mem.length) : AidsFit mem := by
  have hzero : ∀ k < appletCount mem, k = 0 := fun k hk => by omega
  constructor
  · omega
  · intro k hk
    rw [hzero k hk]
    exact (Nat.le_add_right _ _).trans_lt h
  · intro k hk
    rw [hzero k hk]
    exact h
  · rw [hcount, Finset.sum_range_one]
    have hsum : (sumAfter mem 1).2 = 0 + lengthAt mem 4 := rfl
    rw [hsum, UInt8.zero_add]
    rfl

end TsmVm
