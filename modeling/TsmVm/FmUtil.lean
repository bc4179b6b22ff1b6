import TsmVm.FmBytes

/-!
# Helpers on raw memory (`fm_Util.c`)

Searching, conversion and bulk copying over memory the caller vouches for. The
lengths are the callers' own; a helper that looks further than the memory it
was given is stopped there.
-/

namespace TsmVm

/-- The inner loop of `fm_strstr`: does the text match the pattern from here,
the first `j` bytes of which have already matched? -/
def strstrMatch (subLen : ℤ) : List UInt8 → List UInt8 → ℕ → Res Bool
  | a :: str, b :: sub, j =>
    if a = b then
      if ((j + 1 : ℕ) : ℤ) = subLen then .ok true else strstrMatch subLen str sub (j + 1)
    else .ok false
  | _, _, _ => .error .outOfBounds

/-- The outer loop of `fm_strstr` from index `i`, with `n` rounds to go. -/
def fmStrstrLoop (sub : List UInt8) (subLen : ℤ) : ℕ → List UInt8 → ℕ → Res (Option ℕ)
  | 0, _, _ => .ok none
  | n + 1, str, i => do
    let found ← strstrMatch subLen str sub 0
    if found then return some i else fmStrstrLoop sub subLen n str.tail (i + 1)

/-- `fm_strstr`: the index of the first match, `none` for `NULL`. -/
def fmStrstr (str : List UInt8) (len : ℤ) (sub : List UInt8) (subLen : ℤ) : Res (Option ℕ) :=
  fmStrstrLoop sub subLen len.toNat str 0

/-- The loop of `is_all_zero` from index `i`, with `n` rounds to go. -/
def isAllZeroLoop (mem : List UInt8) : ℕ → ℤ → Res Bool
  | 0, _ => .ok true
  | n + 1, i => do
    let b ← byteAt mem i
    if b ≠ 0 then return false else isAllZeroLoop mem n (i + 1)

/-- `is_all_zero` on the memory from offset `off` on. -/
def isAllZero (mem : List UInt8) (off len : ℤ) : Res Bool := isAllZeroLoop mem len.toNat off

/-- `fmbytes_concat_with_len` at offset `pos` of a buffer: the return value and
the buffer. The length byte is cut to eight bits, the copy is not. -/
def fmbytesConcatWithLen (des : List UInt8) (pos : ℕ) (src : Option FmBytes) :
    Res (ℕ × List UInt8) :=
  match src with
  | none => do
    let des ← memWrite des des.length pos [0]
    return (1, des)
  | some p => do
    let des ← memWrite des des.length pos [u8 p.leng]
    let bs ← memRead p.buf 0 p.leng
    let des ← memWrite des des.length (pos + 1) bs
    -- the return value reads the length byte back
    let lead ← byteAt des pos
    return (lead.toNat + 1, des)

/-- The rounds of the `do … while` loop of `get_BERLen` that counts the bytes of
a length of at most `k` bytes. -/
def berLenFirst : ℕ → ℕ → ℕ
  | 0, _ => 0
  | k + 1, length => if length / 256 = 0 then 1 else berLenFirst k (length / 256) + 1

/-- The loop of `get_BERLen` that stores the bytes of a length from the last. -/
def berFill : ℕ → ℕ → List UInt8 → List UInt8
  | 0, _, berlen => berlen
  | i + 1, length, berlen => berFill i (length / 256) (berlen.set (i + 1) (u8 length))

/-- `get_BERLen` for a 32-bit length: the return value and the buffer. -/
def getBERLen (len : ℕ) (berlen : List UInt8) : ℕ × List UInt8 :=
  if len < 128 then (1, berlen.set 0 (u8 len))
  else
    let lenFirst := berLenFirst 4 len
    (lenFirst + 1, berFill lenFirst len (berlen.set 0 (u8 (lenFirst + 128))))

/-- `int2byteBE`: the four bytes stored to the buffer. -/
def int2byteBE (v : ℤ) : List UInt8 :=
  [u8 (u32 v / 16777216 : ℕ), u8 (u32 v / 65536 : ℕ), u8 (u32 v / 256 : ℕ), u8 (u32 v)]

@[simp] theorem int2byteBE_length (v : ℤ) : (int2byteBE v).length = 4 := rfl

/-- The loop of `hexstr_to_hex` from digit pair `k`, with `n` pairs to go. -/
def hexstrToHexLoop (ibuf : List UInt8) (size : ℕ) : ℕ → ℕ → List UInt8 → Res (List UInt8)
  | 0, _, obuf => .ok obuf
  | n + 1, k, obuf => do
    let hi ← byteAt ibuf (2 * k : ℕ)
    let lo ← byteAt ibuf (2 * k + 1 : ℕ)
    let obuf ← memWrite obuf size k [((hi - 0x30) <<< 4) ||| (lo - 0x30)]
    hexstrToHexLoop ibuf size n (k + 1) obuf

/-- `hexstr_to_hex`: the return value and the output afterwards. The lengths are
read before the test for `NULL`. -/
def hexstrToHex (hexstr out : Option FmBytes) : Res (ℤ × Option FmBytes) := do
  let h ← derefOption hexstr
  let o ← derefOption out
  -- C division truncates towards zero
  if o.size < h.leng.tdiv 2 then return (-1, out)
  -- the loop runs while `i < len_in`, so an odd length gets a pair of its own
  let obuf ← hexstrToHexLoop h.buf o.size.toNat ((h.leng + 1) / 2).toNat 0 o.buf
  return (0, some { o with buf := obuf, leng := h.leng.tdiv 2 })

/-- The loop of `memset_int` from offset `i`, with `n` rounds to go. Each round
stores an `int` of four bytes, the offset moves by one. -/
def memsetIntLoop (val : ℕ) : ℕ → ℕ → List UInt8 → Res (List UInt8)
  | 0, _, mem => .ok mem
  | n + 1, i, mem => do
    let mem ← memWrite mem mem.length i (leBytes 4 val)
    memsetIntLoop val n (i + 1) mem

/-- `memset_int`. The value is an `int`, whatever the caller passed. -/
def memsetInt (mem : List UInt8) (val len : ℤ) : Res (List UInt8) :=
  memsetIntLoop (u32 val) len.toNat 0 mem

/-- The loop of `memcpy_int` from offset `i`, with `n` rounds to go. -/
def memcpyIntLoop (des : List UInt8) : ℕ → ℕ → List UInt8 → Res (List UInt8)
  | 0, _, src => .ok src
  | n + 1, i, src => do
    let word ← memRead des i 4
    let src ← memWrite src src.length i word
    memcpyIntLoop des n (i + 1) src

/-- `memcpy_int`, which copies from `des` to `src` as its callers expect. -/
def memcpyInt (src des : List UInt8) (len : ℤ) : Res (List UInt8) :=
  memcpyIntLoop des len.toNat 0 src

/-- A word that has been stored. All but its first byte lies where the next round stores. -/
theorem stored_word {mem word : List UInt8} {i : ℕ} (hword : word.length = 4)
    (hroom : i + 4 ≤ mem.length) :
    (mem.take i ++ word ++ mem.drop (i + 4)).length = mem.length ∧
      (mem.take i ++ word ++ mem.drop (i + 4)).take (i + 1) = mem.take i ++ word.take 1 ∧
      ∀ k, i + 4 ≤ k → (mem.take i ++ word ++ mem.drop (i + 4)).drop k = mem.drop k := by
  have hfront : (mem.take i).length = i := List.length_take_of_le (by omega)
  have hlen : (mem.take i ++ word).length = i + 4 := by
    rw [List.length_append, hfront, hword]
  refine ⟨?_, ?_, fun k hk => ?_⟩
  · rw [List.length_append, hlen, List.length_drop]
    omega
  · rw [List.append_assoc, List.take_append, hfront, Nat.add_sub_cancel_left,
      List.take_append_of_le_length (by omega), List.take_of_length_le (by omega)]
  · rw [List.drop_append, hlen, List.drop_of_length_le (by omega), List.nil_append,
      List.drop_drop, Nat.add_sub_cancel' hk]

/-- Where there is room `memset_int` stores the low byte of the value once a round, and
behind them the rest of the word of the last round. -/
theorem memsetIntLoop_eq (val : ℕ) {mem : List UInt8} {n i : ℕ} (h : i + n + 4 ≤ mem.length) :
    memsetIntLoop val (n + 1) i mem =
      .ok (mem.take i ++ (List.replicate n (UInt8.ofNat (val % 256)) ++ leBytes 4 val) ++
        mem.drop (i + n + 4)) := by
  have hwrite : ∀ {m : List UInt8} {j : ℕ}, j + 4 ≤ m.length →
      memWrite m m.length j (leBytes 4 val) =
        .ok (m.take j ++ leBytes 4 val ++ m.drop (j + 4)) := fun hfit => by
    rw [memWrite_natCast, leBytes_length, if_pos (.inr ⟨hfit, le_rfl⟩)]
  induction n generalizing i mem with
  | zero =>
    rw [memsetIntLoop, hwrite (by omega), ok_bind]
    rfl
  | succ n ih =>
    obtain ⟨hlen, htake, hdrop⟩ := stored_word (leBytes_length 4 val)
      (show i + 4 ≤ mem.length by omega)
    rw [memsetIntLoop, hwrite (by omega), ok_bind, ih (by omega), htake, hdrop _ (by omega),
      List.append_assoc (mem.take i), ← List.append_assoc ((leBytes 4 val).take 1),
      show i + 1 + n + 4 = i + (n + 1) + 4 by omega]
    rfl

/-- `memset_int` succeeds where the block has room for three bytes more than rounds, and
leaves what lies behind them. -/
theorem memsetIntLoop_ok (val : ℕ) {n i : ℕ} {mem : List UInt8} (h : i + n + 3 ≤ mem.length) :
    ∃ mem', memsetIntLoop val n i mem = .ok mem' ∧ mem'.length = mem.length ∧
      mem'.drop (i + n + 3) = mem.drop (i + n + 3) := by
  cases n with
  | zero => exact ⟨mem, rfl, rfl, rfl⟩
  | succ n =>
    have hstored : (mem.take i ++ (List.replicate n (UInt8.ofNat (val % 256)) ++
        leBytes 4 val)).length = i + (n + 1) + 3 := by
      rw [List.length_append, List.length_append, List.length_replicate, leBytes_length,
        List.length_take]
      omega
    refine ⟨_, memsetIntLoop_eq val (by omega), ?_, ?_⟩
    · rw [List.length_append, hstored, List.length_drop]
      omega
    · exact List.drop_left' hstored

/-- The filling of a cleared table does not reach its end. -/
theorem memsetInt_zeros (val : ℤ) {n : ℕ} (hn : 1 ≤ n) :
    ∃ mem, memsetInt (List.replicate (8 * n) 0) val n = .ok mem ∧ mem.length = 8 * n ∧
      ∀ i, n + 3 ≤ i → i < 8 * n → mem[i]? = some 0 := by
  have hroom : 0 + n + 3 ≤ (List.replicate (8 * n) (0 : UInt8)).length := by
    rw [List.length_replicate]
    omega
  obtain ⟨mem, hset, hlen, hdrop⟩ := memsetIntLoop_ok (u32 val) hroom
  refine ⟨mem, hset, by rw [hlen, List.length_replicate], fun i hi hlt => ?_⟩
  rw [getElem?_of_drop_eq hdrop (by omega), List.getElem?_replicate, if_pos hlt]

/-- A round of `memcpy_int` that gets through stores a word it has room for. -/
theorem memcpyIntLoop_succ_eq_ok {des src mem : List UInt8} {n i : ℕ}
    (h : memcpyIntLoop des (n + 1) i src = .ok mem) :
    ∃ word : List UInt8, word.length = 4 ∧ i + 4 ≤ src.length ∧
      memcpyIntLoop des n (i + 1) (src.take i ++ word ++ src.drop (i + 4)) = .ok mem := by
  obtain ⟨word, hread, h⟩ := bind_eq_ok.mp h
  obtain ⟨mem₁, hwrite, h⟩ := bind_eq_ok.mp h
  have hword : word.length = 4 := by exact_mod_cast memRead_length hread
  rw [memWrite_natCast, hword] at hwrite
  split at hwrite
  · rename_i hfit
    have hne : word ≠ [] := List.length_pos_iff.mp (by omega)
    have hroom := hfit.resolve_left hne
    obtain rfl := Except.ok.inj hwrite
    exact ⟨word, hword, by omega, h⟩
  · cases hwrite

/-- What lies three bytes behind the last round of `memcpy_int` stays. -/
theorem memcpyIntLoop_drop {des : List UInt8} {n i k : ℕ} {mem mem' : List UInt8}
    (h : memcpyIntLoop des n i mem = .ok mem') (hk : i + n + 3 ≤ k) :
    mem'.length = mem.length ∧ mem'.drop k = mem.drop k := by
  induction n generalizing i mem with
  | zero =>
    obtain rfl := Except.ok.inj h
    exact ⟨rfl, rfl⟩
  | succ n ih =>
    obtain ⟨word, hword, hroom, h⟩ := memcpyIntLoop_succ_eq_ok h
    obtain ⟨hlen, -, hdrop⟩ := stored_word hword hroom
    obtain ⟨hlen', hdrop'⟩ := ih h (by omega)
    exact ⟨hlen'.trans hlen, hdrop'.trans (hdrop k (by omega))⟩

/-- Without room for that many it does not get to its end. -/
theorem memcpyIntLoop_fits {des src mem : List UInt8} {n i : ℕ}
    (h : memcpyIntLoop des (n + 1) i src = .ok mem) : i + n + 4 ≤ src.length := by
  induction n generalizing i src with
  | zero =>
    obtain ⟨-, -, hroom, -⟩ := memcpyIntLoop_succ_eq_ok h
    exact hroom
  | succ n ih =>
    obtain ⟨word, hword, hroom, h⟩ := memcpyIntLoop_succ_eq_ok h
    have hlen := (stored_word hword hroom).1
    have := ih h
    omega

/-- One round of `memcpy_int`, where there is room. -/
theorem memcpyIntLoop_succ {des src : List UInt8} {i : ℕ} (n : ℕ) (hdes : i + 4 ≤ des.length)
    (hsrc : i + 4 ≤ src.length) :
    memcpyIntLoop des (n + 1) i src =
      memcpyIntLoop des n (i + 1) (src.take i ++ (des.drop i).take 4 ++ src.drop (i + 4)) := by
  have hword : ((des.drop i).take 4).length = 4 := by
    rw [List.length_take, List.length_drop]
    omega
  have hread : memRead des i 4 = .ok ((des.drop i).take 4) := by
    have h := memRead_natCast des i 4
    rwa [if_pos (by rw [List.length_drop]; omega)] at h
  rw [memcpyIntLoop, hread, ok_bind, memWrite_natCast, hword, if_pos (Or.inr (by omega)), ok_bind]

/-- Where there is room `memcpy_int` copies three bytes more than rounds. -/
theorem memcpyIntLoop_eq {des src : List UInt8} {n i : ℕ} (hdes : i + n + 4 ≤ des.length)
    (hsrc : i + n + 4 ≤ src.length) :
    memcpyIntLoop des (n + 1) i src =
      .ok (src.take i ++ (des.drop i).take (n + 4) ++ src.drop (i + n + 4)) := by
  induction n generalizing i src with
  | zero =>
    rw [memcpyIntLoop_succ 0 (by omega) (by omega)]
    rfl
  | succ n ih =>
    rw [memcpyIntLoop_succ (n + 1) (by omega) (by omega)]
    -- the next round overwrites all but the first byte of this one
    have hfirst : (des.drop i).take (n + 1 + 4) =
        ((des.drop i).take 4).take 1 ++ (des.drop (i + 1)).take (n + 4) := by
      rw [List.take_take, ← List.drop_drop, show n + 1 + 4 = 1 + (n + 4) by omega, List.take_add]
      rfl
    have hword : ((des.drop i).take 4).length = 4 := by
      rw [List.length_take, List.length_drop]
      omega
    obtain ⟨hlen, htake, hdrop⟩ := stored_word hword (show i + 4 ≤ src.length by omega)
    rw [hfirst, ih (by omega) (by omega), htake, hdrop _ (by omega),
      List.append_assoc (src.take i), show i + 1 + n + 4 = i + (n + 1) + 4 by omega]

/-- `_get_Tag_Ax_len` on the memory from `p` on. -/
def getTagAxLen (p : List UInt8) : Res ℕ := do
  let b ← byteAt p 1
  if b = 0xFF then
    let hi ← byteAt p 2
    let lo ← byteAt p 3
    return hi.toNat * 256 + lo.toNat
  else return b.toNat

/-- `_skip_Tag_Ax` on the memory from `p` on: how far it moves the pointer. -/
def skipTagAxOffset (p : List UInt8) : Res ℕ := do
  let b ← byteAt p 1
  if b = 0xFF then return 4 else return 2

/-- `isspace` in the C locale. -/
def isSpace (b : UInt8) : Bool := b = 32 || (9 ≤ b && b ≤ 13)

/-- `isdigit`. -/
def isDigit (b : UInt8) : Bool := 48 ≤ b && b ≤ 57

/-- The digits `atoi` reads, on top of the value read so far. -/
def atoiDigits : List UInt8 → ℤ → Res ℤ
  | [], _ => .error .outOfBounds
  | b :: mem, acc =>
    if isDigit b then atoiDigits mem (acc * 10 + (b.toNat - 48)) else .ok acc

/-- The optional sign `atoi` reads before the digits. -/
def atoiSign : List UInt8 → Res ℤ
  | [] => .error .outOfBounds
  | b :: mem =>
    if b = 45 then do
      let v ← atoiDigits mem 0
      return -v
    else if b = 43 then atoiDigits mem 0
    else atoiDigits (b :: mem) 0

/-- The value of a `long` kept in range, then cut to an `int`. -/
def longToInt (v : ℤ) : ℤ :=
  (max (-9223372036854775808) (min 9223372036854775807 v)).bmod 4294967296

/-- `atoi` on the memory a pointer points to. -/
def atoi : List UInt8 → Res ℤ
  | [] => .error .outOfBounds
  | b :: mem => if isSpace b then atoi mem else do
      let v ← atoiSign (b :: mem)
      return longToInt v

/-- `strcmp(name,text) == 0`, where the memory at `name` may end. -/
def strcmpEq : List UInt8 → List UInt8 → Res Bool
  | [], _ => .error .outOfBounds
  | b :: _, [] => .ok (b = 0)
  | b :: name, c :: text => if b = c then strcmpEq name text else .ok false

/-- The comparison of two C strings. -/
theorem strcmpEq_terminated {name text : List UInt8} (hname : ∀ b ∈ name, b ≠ 0)
    (htext : ∀ b ∈ text, b ≠ 0) (behind : List UInt8) :
    strcmpEq (name ++ 0 :: behind) text = .ok (decide (name = text)) := by
  induction name generalizing text with
  | nil =>
    cases text with
    | nil => rfl
    | cons c text =>
      have hc : (0 : UInt8) ≠ c := (htext c List.mem_cons_self).symm
      simp [strcmpEq, hc]
  | cons b name ih =>
    have hb : b ≠ 0 := hname b List.mem_cons_self
    cases text with
    | nil => simp [strcmpEq, hb]
    | cons c text =>
      rw [List.cons_append, strcmpEq]
      split
      · subst b
        rw [ih (fun b hb => hname b (List.mem_cons_of_mem c hb))
          (fun b hb => htext b (List.mem_cons_of_mem c hb))]
        simp
      · simp [‹b ≠ c›]

end TsmVm
