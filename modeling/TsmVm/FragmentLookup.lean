import TsmVm.FilledBlocks
import TsmVm.MalformedResponses

/-!
# Looking up a fragment

A well-formed message is a list of entries, each of a sequence number, data and a
status word, with a length of either form in front of every entry and of them all.
The search for a sequence number skips the other entries by their lengths, so that
nothing in their data is taken for a tag or a number. The pointer behind each header
goes through an `int`, and the search follows it only where it survives that.
-/

namespace TsmVm

/-- An entry of a message. -/
structure TagEntry where
  /-- The sequence number. -/
  seq : UInt8
  /-- The data. -/
  data : List UInt8
  /-- The status word. -/
  sw1 : UInt8
  sw2 : UInt8

/-- What the length of an entry counts. -/
def TagEntry.body (e : TagEntry) : List UInt8 := e.seq :: (e.data ++ [e.sw1, e.sw2])

/-- An entry in one of its encodings. -/
structure EncodedEntry extends TagEntry where
  /-- The tag `A0` and the length, in either form. -/
  hdr : List UInt8
  header : AxHeader hdr toTagEntry.body.length
  tag : hdr.head? = some tagA0

/-- The bytes of an entry. -/
def EncodedEntry.bytes (e : EncodedEntry) : List UInt8 := e.hdr ++ e.body

/-- A message in one of its encodings. Either form of the length bounds it by
65535 bytes. -/
structure EncodedMessage where
  /-- The entries. -/
  entries : List EncodedEntry
  /-- The tag `A1` and the length. -/
  hdr : List UInt8
  header : AxHeader hdr (entries.flatMap EncodedEntry.bytes).length
  tag : hdr.head? = some 0xA1

/-- The encoded entries. -/
def EncodedMessage.body (m : EncodedMessage) : List UInt8 := m.entries.flatMap EncodedEntry.bytes

/-- The bytes of a message. -/
def EncodedMessage.bytes (m : EncodedMessage) : List UInt8 := m.hdr ++ m.body

/-- The search returns the data of an entry, or `NULL` where there is none. -/
def FindsEntry (r : Res (Option FmBytes)) (found : Option EncodedEntry) : Prop :=
  match found with
  | none => r = .ok none
  | some e => ∃ p : FmBytes, r = .ok (some p) ∧ p.leng = e.data.length ∧ p.content = e.data

/-- In the message at `addr` the search returns the data of the first entry with the
number, and `NULL` where there is none, whatever lies behind the message and elsewhere. -/
def EncodedMessage.IsSearched (m : EncodedMessage) (u : Unspec) (addr : ℕ) (seq : UInt8) : Prop :=
  ∀ (behind : List UInt8) (others : List MemBlock),
    FindsEntry (getTagA0At u (⟨addr, m.bytes ++ behind⟩ :: others) addr seq)
      (m.entries.find? (·.seq = seq))

/-- Of the entries from `x` on, up to the first with the number, the addresses behind their
headers are kept. -/
def KeepsPointers (seq : UInt8) : List EncodedEntry → ℕ → Prop
  | [], _ => True
  | e :: es, x =>
    Kept (x + e.hdr.length) ∧ (e.seq ≠ seq → KeepsPointers seq es (x + e.bytes.length))

variable {u : Unspec} {p behind : List UInt8} {others : List MemBlock} {seq : UInt8}
variable {addr stop rounds i : ℕ}

/-- The data of the entry that is found lies in a block of its own. -/
theorem tagA0Data_eq (u : Unspec) (data rest : List UInt8) :
    tagA0Data u (data ++ rest) data.length =
      .ok (some (filledBytes (u.addr 0) (u.behind 0) data.length data)) := by
  have hread : memRead (data ++ rest) 0 data.length = .ok data := by
    rw [memRead_front (by rw [List.length_append]; omega), List.take_left]
  have hroom : ([] : List UInt8).length + data.length ≤ data.length := by
    rw [List.length_nil]
    omega
  have hwrite := memWrite_filledBytes (u.addr 0) (u.behind 0) [] data hroom
  rw [List.nil_append, List.length_nil] at hwrite
  unfold tagA0Data
  rw [fmBytesAlloc_filledBytes, derefOption_some, ok_bind, hread, ok_bind]
  have hsize : (filledBytes (u.addr 0) (u.behind 0) data.length []).size.toNat = data.length :=
    Int.toNat_natCast _
  rw [hsize]
  have hzero : ((0 : ℕ) : ℤ) = 0 := rfl
  rw [← hzero, hwrite, ok_bind]
  rfl

/-- An entry in front of what follows it. -/
theorem EncodedEntry.bytes_append (e : EncodedEntry) (rest : List UInt8) :
    e.bytes ++ rest = e.hdr ++ e.seq :: (e.data ++ ([e.sw1, e.sw2] ++ rest)) := by
  simp [bytes, TagEntry.body]

/-- What is behind an entry. -/
theorem drop_behind_entry {e : EncodedEntry} {rest : List UInt8}
    (hdrop : p.drop i = e.bytes ++ rest) :
    p.drop (i + e.hdr.length + e.body.length) = rest := by
  rw [← List.drop_drop, ← List.drop_drop, hdrop, EncodedEntry.bytes, List.append_assoc,
    List.drop_left, List.drop_left]

/-- The loop over the entries finds the first one with the number, whatever lies in front of
them, behind and elsewhere, where it keeps its pointers. -/
theorem getTagA0Loop_finds {es : List EncodedEntry}
    (hdrop : p.drop i = es.flatMap EncodedEntry.bytes ++ behind)
    (hstop : stop = addr + i + (es.flatMap EncodedEntry.bytes).length)
    (hrounds : (es.flatMap EncodedEntry.bytes).length ≤ rounds)
    (hkeeps : KeepsPointers seq es (addr + i)) :
    FindsEntry (getTagA0Loop u (⟨addr, p⟩ :: others) seq stop rounds (addr + i))
      (es.find? (·.seq = seq)) := by
  induction es generalizing i rounds with
  | nil =>
    have hend : ¬ addr + i < stop := by
      rw [hstop, List.flatMap_nil, List.length_nil]
      omega
    cases rounds with
    | zero => exact if_neg hend
    | succ rounds => exact if_neg hend
  | cons e es ih =>
    have hpos := e.header.length_pos
    have hbytes : e.bytes.length = e.hdr.length + e.body.length := List.length_append
    have hlen : e.body.length = e.data.length + 3 := by simp [TagEntry.body]
    rw [List.flatMap_cons, List.length_append] at hstop hrounds
    rw [List.flatMap_cons, List.append_assoc] at hdrop
    obtain ⟨rounds, rfl⟩ : ∃ n, rounds = n + 1 := ⟨rounds - 1, by omega⟩
    obtain ⟨hkept, hnext⟩ := hkeeps
    have hbehind := drop_behind_entry hdrop
    rw [e.bytes_append] at hdrop
    rw [Nat.add_assoc] at hkept
    rw [getTagA0Loop_element e.header e.tag hdrop (by omega) hkept]
    by_cases hseq : e.seq = seq
    · have hcount : ((e.body.length : ℕ) : ℤ) - 3 = e.data.length := by
        rw [hlen]
        omega
      rw [if_pos hseq, hcount, tagA0Data_eq, List.find?_cons_of_pos (by simpa using hseq)]
      exact ⟨_, rfl, rfl, content_filledBytes⟩
    · rw [if_neg hseq, List.find?_cons_of_neg (by simpa using hseq)]
      apply ih hbehind (by omega) (by omega)
      have hkeeps := hnext hseq
      rwa [hbytes, Nat.add_assoc addr, ← Nat.add_assoc i] at hkeeps

/-- A loop that gets through the entries has kept its pointers. -/
theorem keepsPointers_of_loop {es : List EncodedEntry} (hlen : p.length < 4294967296)
    (hdrop : p.drop i = es.flatMap EncodedEntry.bytes)
    (hrounds : (es.flatMap EncodedEntry.bytes).length ≤ rounds)
    (hok : ∃ r, getTagA0Loop u [⟨addr, p⟩] seq (addr + p.length) rounds (addr + i) = .ok r) :
    KeepsPointers seq es (addr + i) := by
  induction es generalizing i rounds with
  | nil => trivial
  | cons e es ih =>
    have hpos := e.header.length_pos
    have hbytes : e.bytes.length = e.hdr.length + e.body.length := List.length_append
    have hlength := congrArg List.length hdrop
    rw [List.flatMap_cons, List.length_append] at hlength hrounds
    rw [List.length_drop] at hlength
    rw [List.flatMap_cons] at hdrop
    obtain ⟨rounds, rfl⟩ : ∃ n, rounds = n + 1 := ⟨rounds - 1, by omega⟩
    have hbehind := drop_behind_entry hdrop
    rw [e.bytes_append] at hdrop
    have hkept : Kept (addr + (i + e.hdr.length)) := by
      by_contra hcut
      obtain ⟨r, hr⟩ := hok
      rw [getTagA0Loop_cut e.header e.tag hdrop hlen (by omega) (by omega) hcut] at hr
      cases hr
    refine ⟨by rwa [Nat.add_assoc], fun hseq => ?_⟩
    rw [getTagA0Loop_element e.header e.tag hdrop (by omega) hkept, if_neg hseq] at hok
    have hkeeps := ih hbehind (by omega) hok
    rwa [hbytes, Nat.add_assoc addr, ← Nat.add_assoc i]

namespace EncodedMessage

variable (m : EncodedMessage)

/-- A message without entries has no body. -/
theorem body_eq_nil_iff : m.body = [] ↔ m.entries = [] := by
  constructor
  · intro hnil
    cases hentries : m.entries with
    | nil => rfl
    | cons e es =>
      have hpos := e.header.length_pos
      have hlength := congrArg List.length hnil
      rw [body, hentries, List.flatMap_cons, List.length_append, EncodedEntry.bytes,
        List.length_append, List.length_nil] at hlength
      omega
  · intro hnil
    rw [body, hnil]
    rfl

/-- The search of a message whose content is where the pointer behind its header leads. -/
theorem getTagA0At_eq (h : Kept (addr + m.hdr.length)) (rest : List UInt8) :
    getTagA0At u (⟨addr, m.hdr ++ rest⟩ :: others) addr seq =
      getTagA0Loop u (⟨addr, m.hdr ++ rest⟩ :: others) seq
        (addr + m.hdr.length + m.body.length) m.body.length (addr + m.hdr.length) := by
  have heq : getTagA0At u (⟨addr, m.hdr ++ rest⟩ :: others) addr seq =
      getTagA0Loop u (⟨addr, m.hdr ++ rest⟩ :: others) seq
        (throughInt (addr + m.hdr.length) + m.body.length) m.body.length
        (throughInt (addr + m.hdr.length)) := TsmVm.getTagA0At_eq m.header seq
  unfold Kept at h
  rw [heq, h]

/-- Where the pointers are kept the search finds what it is to find. -/
theorem isSearched_of_kept (h : m.entries = [] ∨
    Kept (addr + m.hdr.length) ∧ KeepsPointers seq m.entries (addr + m.hdr.length)) :
    m.IsSearched u addr seq := by
  intro behind others
  rw [bytes, List.append_assoc]
  rcases h with hnil | ⟨hkept, hkeeps⟩
  · have hbody := m.body_eq_nil_iff.mpr hnil
    have heq : getTagA0At u (⟨addr, m.hdr ++ (m.body ++ behind)⟩ :: others) addr seq = _ :=
      TsmVm.getTagA0At_eq m.header seq
    have hzero : (m.entries.flatMap EncodedEntry.bytes).length = 0 := by
      rw [hnil, List.flatMap_nil, List.length_nil]
    rw [heq, hzero, hnil, getTagA0Loop, if_neg (by omega)]
    rfl
  · rw [m.getTagA0At_eq hkept]
    exact getTagA0Loop_finds List.drop_left rfl le_rfl hkeeps

/-- A search that finds what it is to find has kept its pointers. -/
theorem kept_of_isSearched (h : m.IsSearched u addr seq) : m.entries = [] ∨
    Kept (addr + m.hdr.length) ∧ KeepsPointers seq m.entries (addr + m.hdr.length) := by
  by_cases hnil : m.entries = []
  · exact .inl hnil
  have hok : ∃ r, getTagA0At u [⟨addr, m.hdr ++ m.body⟩] addr seq = .ok r := by
    have hfinds := h [] []
    rw [List.append_nil, bytes] at hfinds
    cases hfound : m.entries.find? (·.seq = seq) with
    | none =>
      rw [hfound] at hfinds
      exact ⟨none, hfinds⟩
    | some e =>
      rw [hfound] at hfinds
      obtain ⟨d, hd, -⟩ := hfinds
      exact ⟨some d, hd⟩
  have hharmless : SearchesHarmlessly u addr (m.hdr ++ m.body ++ [])
      (m.hdr.length + m.body.length) seq := by
    unfold SearchesHarmlessly
    rwa [List.append_nil, ← List.length_append, List.take_length]
  obtain hbody | ⟨hkept, -⟩ := (searchesHarmlessly_iff m.header u addr seq []).mp hharmless
  · exact .inl (m.body_eq_nil_iff.mp hbody)
  have hbound := m.header.bounded
  have hlength : (m.hdr ++ m.body).length = m.hdr.length + m.body.length := List.length_append
  have hbody : m.body.length ≤ 65535 := hbound.2
  rw [m.getTagA0At_eq hkept, Nat.add_assoc, ← hlength] at hok
  have hlt : (m.hdr ++ m.body).length < 4294967296 := by omega
  exact .inr ⟨hkept, keepsPointers_of_loop hlt List.drop_left le_rfl hok⟩

end EncodedMessage

/-- **Fragment lookup.** In an encoding of a message at `addr` the search returns the data of
the first entry with the number, and `NULL` where there is none, exactly where there is no
entry, or each pointer to the content of the message and of its entries, up to the one that
is found, is the same after it has been an `int`. -/
theorem fragment_lookup_iff (u : Unspec) (m : EncodedMessage) (addr : ℕ) (seq : UInt8) :
    m.IsSearched u addr seq ↔ m.entries = [] ∨
      Kept (addr + m.hdr.length) ∧ KeepsPointers seq m.entries (addr + m.hdr.length) :=
  ⟨m.kept_of_isSearched, m.isSearched_of_kept⟩

/-- The message `A1 06 A0 04 01 AA 90 00`. -/
def oneFragment : EncodedMessage where
  entries := [{ seq := 1, data := [0xAA], sw1 := 0x90, sw2 := 0x00, hdr := [0xA0, 0x04],
                header := .short 0xA0 0x04 (by decide), tag := rfl }]
  hdr := [0xA1, 0x06]
  header := .short 0xA1 0x06 (by decide)
  tag := rfl

/-- In static memory the fragment is found. -/
theorem oneFragment_found : oneFragment.IsSearched plainUnspec 0x4A3000 1 := by
  have houter : Kept (0x4A3000 + oneFragment.hdr.length) := by decide +kernel
  have hinner : Kept (0x4A3000 + oneFragment.hdr.length + [0xA0, 0x04].length) := by
    decide +kernel
  apply EncodedMessage.isSearched_of_kept
  exact .inr ⟨houter, hinner, fun hne => (hne rfl).elim⟩

/-- On the stack of the main thread it is not. -/
theorem fragment_lookup_fails : ¬ ∀ (u : Unspec) (m : EncodedMessage) (addr : ℕ) (seq : UInt8),
    m.IsSearched u addr seq := by
  intro h
  have hcut : ¬ Kept (0x7FFDD4E3A010 + oneFragment.hdr.length) := by decide +kernel
  obtain hnil | ⟨hkept, -⟩ :=
    oneFragment.kept_of_isSearched (h plainUnspec oneFragment 0x7FFDD4E3A010 1)
  · cases hnil
  · exact hcut hkept

end TsmVm
