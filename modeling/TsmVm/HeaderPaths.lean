import TsmVm.Bcloader
import TsmVm.Substrings
import Mathlib.Data.List.TakeWhile

/-!
# The path of a header

The directory is kept and `libX.so` becomes `X.h`. Two kinds of path go wrong: that of a
library in the root directory, because `last_index_of` does not look at the first
character, and one with a file name of just the size of the buffer, which has no room
for its terminator. A third is longer than an `int` can tell.
-/

namespace TsmVm

/-- The file name of a library. -/
def libName (stem : List UInt8) : List UInt8 := literal "lib" ++ stem ++ literal ".so"

/-- The file name of its header. -/
def hfileName (stem : List UInt8) : List UInt8 := stem ++ literal ".h"

/-- The path of a library, the names for which fit into the buffers. -/
structure LibraryPath (path dir stem : List UInt8) : Prop where
  path_eq : path = dir ++ libName stem
  dir_end : dir = [] ∨ ∃ front, dir = front ++ [47]
  stem_ne : stem ≠ []
  stem_chars : ∀ b ∈ stem, b ≠ 47 ∧ isSpace b = false
  no_so : ¬ literal ".so" <:+: stem
  lib_fits : (libName stem).length < 512
  header_fits : (dir ++ hfileName stem).length < 512

/-- The buffers hold the three names. -/
structure HeaderNames.Holds (names : HeaderNames) (dir stem : List UInt8) : Prop where
  libfileName_eq : cString names.libfileName = .ok (libName stem)
  hfile_eq : cString names.hfile = .ok (hfileName stem)
  hpath_eq : cString names.hpath = .ok (dir ++ hfileName stem)
  ret_eq : names.ret = 0

/-- The names of a library are derived from its path, and no other path makes the
functions leave their buffers. -/
def DerivesNames (path : CText) : Prop :=
  (∀ dir stem, LibraryPath path.chars dir stem →
    ∃ names, bcloaderNames (some path.chars) = .ok (some names) ∧ names.Holds dir stem) ∧
  ((∀ dir stem, ¬ LibraryPath path.chars dir stem) →
    ∃ r, bcloaderNames (some path.chars) = .ok r)

/-- What stands behind the last slash that is not the first character. -/
def filePart (path : List UInt8) : List UInt8 :=
  if (47 : UInt8) ∈ path.tail then (path.reverse.takeWhile (· ≠ 47)).reverse else path

/-! ## The last slash -/

variable {path front back str stem dir libname word : List UInt8} {d : UInt8} {n i size : ℕ}

theorem lastIndexOfLoop_eq_none (h : ∀ b ∈ str.tail, b ≠ d) (n : ℕ) :
    lastIndexOfLoop str d n = none := by
  induction n with
  | zero => rfl
  | succ n ih =>
    have hno : str[n + 1]? ≠ some d := by
      intro hget
      rw [← List.getElem?_tail] at hget
      exact h d (List.mem_of_getElem? hget) rfl
    rw [lastIndexOfLoop, if_neg hno, ih]

/-- The loop stops at the last one. -/
theorem lastIndexOfLoop_append (hfront : front ≠ []) (hback : ∀ b ∈ back, b ≠ d)
    (hn : front.length ≤ n) : lastIndexOfLoop (front ++ d :: back) d n = some front.length := by
  induction n with
  | zero => exact absurd (List.length_eq_zero_iff.mp (Nat.le_zero.mp hn)) hfront
  | succ n ih =>
    obtain heq | hlt := Nat.eq_or_lt_of_le hn
    · rw [lastIndexOfLoop, ← heq, List.getElem?_append_right le_rfl, Nat.sub_self]
      exact if_pos rfl
    · have hno : (front ++ d :: back)[n + 1]? ≠ some d := by
        obtain ⟨k, hk⟩ : ∃ k, n + 1 - front.length = k + 1 := ⟨n - front.length, by omega⟩
        rw [List.getElem?_append_right (by omega), hk, List.getElem?_cons_succ]
        exact fun hget => hback d (List.mem_of_getElem? hget) rfl
      rw [lastIndexOfLoop, if_neg hno, ih (by omega)]

theorem lastIndexOfLoop_le (h : lastIndexOfLoop str d n = some i) : i ≤ n := by
  induction n with
  | zero => cases h
  | succ n ih =>
    rw [lastIndexOfLoop] at h
    split at h
    · obtain rfl := Option.some.inj h
      exact le_rfl
    · exact (ih h).trans (Nat.le_succ n)

/-- Where there is a slash behind the first character there is a last one. -/
theorem exists_last_slash (h : (47 : UInt8) ∈ path.tail) :
    ∃ front back, path = front ++ 47 :: back ∧ front ≠ [] ∧ ∀ b ∈ back, b ≠ 47 := by
  cases path with
  | nil => cases h
  | cons c path =>
    obtain ⟨bs, as, hsplit, hno⟩ :=
      List.eq_append_cons_of_mem (List.mem_reverse.mpr (List.mem_of_mem_tail h))
    have hsplit := congrArg List.reverse hsplit
    simp only [List.reverse_reverse, List.reverse_append, List.reverse_cons,
      List.append_assoc, List.singleton_append] at hsplit
    have hback : ∀ b ∈ bs.reverse, b ≠ 47 := by
      rintro b hb rfl
      exact hno (List.mem_reverse.mp hb)
    refine ⟨as.reverse, bs.reverse, hsplit, ?_, hback⟩
    intro hnil
    rw [hnil, List.nil_append] at hsplit
    obtain ⟨-, rfl⟩ := List.cons.inj hsplit
    exact hback 47 h rfl

theorem filePart_append (hfront : front ≠ []) (hback : ∀ b ∈ back, b ≠ 47) :
    filePart (front ++ 47 :: back) = back := by
  obtain ⟨c, front, rfl⟩ := List.exists_cons_of_ne_nil hfront
  have htake : (back.reverse ++ 47 :: (c :: front).reverse).takeWhile (· ≠ 47) =
      back.reverse := by
    rw [List.takeWhile_append_of_pos (by simpa using hback)]
    simp
  rw [filePart, if_pos (by simp), List.reverse_append, List.reverse_cons, List.append_assoc,
    List.singleton_append, htake, List.reverse_reverse]

theorem filePart_of_not_mem (h : (47 : UInt8) ∉ path.tail) : filePart path = path := if_neg h

/-- A string of an `int` length is searched as a whole. -/
theorem lastIndexOfString_of_short (h : str.length < 2147483648) :
    lastIndexOfString str d = .ok (lastIndexOfLoop str d str.length) := by
  have hlen : (str.length : ℤ).bmod 4294967296 = str.length := by
    rw [Int.bmod_eq_emod]
    split <;> omega
  unfold lastIndexOfString
  rw [hlen]
  exact if_neg (by omega)

/-- Of a longer one only a part is searched, far from its end. -/
theorem lastIndexOfString_of_long (hlong : 2147483648 ≤ str.length)
    (hlen : 0 ≤ (str.length : ℤ).bmod 4294967296) :
    ∃ index, lastIndexOfString str d = .ok index ∧
      ∀ i, index = some i → i + 2147483648 ≤ str.length := by
  have hfar : (str.length : ℤ).bmod 4294967296 + 4294967296 ≤ str.length := by
    rw [Int.bmod_eq_emod] at hlen ⊢
    split at hlen <;> split <;> omega
  unfold lastIndexOfString
  dsimp only
  rw [if_neg (by omega)]
  refine ⟨_, rfl, fun i hi => ?_⟩
  have hle := lastIndexOfLoop_le hi
  omega

/-! ## The name of the library -/

/-- A whole path takes its terminator with it. -/
theorem getFilenameInto_whole (hno : (47 : UInt8) ∉ path.tail) (hshort : path.length < 2147483648)
    (name : List UInt8) (size : ℕ) :
    getFilenameInto (some path) name size =
      if size < path.length then .ok (-1, name)
      else do
        let name ← memWrite name name.length 0 (path ++ [0])
        return (0, name) := by
  have hnone : lastIndexOfLoop path 47 path.length = none :=
    lastIndexOfLoop_eq_none (fun b hb => by rintro rfl; exact hno hb) _
  simp only [getFilenameInto, lastIndexOfString_of_short hshort, hnone, ok_bind]
  rfl

/-- A part of it does not. -/
theorem getFilenameInto_part (hfront : front ≠ []) (hback : ∀ b ∈ back, b ≠ 47)
    (hshort : (front ++ 47 :: back).length < 2147483648) (name : List UInt8) (size : ℕ) :
    getFilenameInto (some (front ++ 47 :: back)) name size =
      if size < back.length then .ok (-1, name)
      else do
        let name ← memWrite name name.length 0 back
        return (0, name) := by
  have hindex : lastIndexOfLoop (front ++ 47 :: back) 47 (front ++ 47 :: back).length =
      some front.length := lastIndexOfLoop_append hfront hback (by simp)
  have hdrop : (front ++ 47 :: back).drop (front.length + 1) = back := by
    rw [← List.drop_drop, List.drop_left]
    rfl
  simp only [getFilenameInto, lastIndexOfString_of_short hshort, hindex, ok_bind, hdrop]
  rfl

/-- A file name with room for its terminator. -/
theorem getFilenameInto_of_lt (hshort : path.length < 2147483648)
    (h : (filePart path).length < size) :
    getFilenameInto (some path) (List.replicate size 0) size =
      .ok (0, zeroed size (filePart path)) := by
  by_cases hslash : (47 : UInt8) ∈ path.tail
  · obtain ⟨front, back, rfl, hfront, hback⟩ := exists_last_slash hslash
    rw [filePart_append hfront hback] at h ⊢
    rw [getFilenameInto_part hfront hback hshort, if_neg (by omega), List.length_replicate,
      memWrite_cleared h.le]
    rfl
  · rw [filePart_of_not_mem hslash] at h ⊢
    rw [getFilenameInto_whole hslash hshort, if_neg (by omega), List.length_replicate,
      memWrite_cleared (by simpa using Nat.succ_le_of_lt h), zeroed_terminated h]
    rfl

/-- One that is too long. -/
theorem getFilenameInto_of_gt (hshort : path.length < 2147483648)
    (h : size < (filePart path).length) (name : List UInt8) :
    getFilenameInto (some path) name size = .ok (-1, name) := by
  by_cases hslash : (47 : UInt8) ∈ path.tail
  · obtain ⟨front, back, rfl, hfront, hback⟩ := exists_last_slash hslash
    rw [filePart_append hfront hback] at h
    rw [getFilenameInto_part hfront hback hshort, if_pos h]
  · rw [filePart_of_not_mem hslash] at h
    rw [getFilenameInto_whole hslash hshort, if_pos h]

/-- One that leaves no room for its terminator fills the buffer, if it does not even
store the terminator behind it. -/
theorem getFilenameInto_of_eq (hshort : path.length < 2147483648)
    (h : (filePart path).length = size) {r : ℤ × List UInt8}
    (hok : getFilenameInto (some path) (List.replicate size 0) size = .ok r) :
    r = (0, filePart path) := by
  by_cases hslash : (47 : UInt8) ∈ path.tail
  · obtain ⟨front, back, rfl, hfront, hback⟩ := exists_last_slash hslash
    rw [filePart_append hfront hback] at h ⊢
    rw [getFilenameInto_part hfront hback hshort, if_neg (by omega), List.length_replicate,
      memWrite_cleared h.le] at hok
    have hfull : zeroed size back = back := by
      rw [zeroed, h, Nat.sub_self, List.replicate_zero, List.append_nil]
    rw [hfull] at hok
    exact (Except.ok.inj hok).symm
  · rw [filePart_of_not_mem hslash] at h
    rw [getFilenameInto_whole hslash hshort, if_neg (by omega)] at hok
    obtain ⟨name, hwrite, -⟩ := bind_eq_ok.mp hok
    rw [List.length_replicate, ← Nat.cast_zero, memWrite_natCast, if_neg] at hwrite
    · cases hwrite
    · simp
      omega

/-- Of a path longer than any `int` nothing is taken. -/
theorem getFilenameInto_of_long (hlong : 2147483648 ≤ path.length)
    (hlen : 0 ≤ (path.length : ℤ).bmod 4294967296) (hsize : size ≤ 512) (name : List UInt8) :
    getFilenameInto (some path) name size = .ok (-1, name) := by
  obtain ⟨index, hindex, hfar⟩ := lastIndexOfString_of_long (d := 47) hlong hlen
  simp only [getFilenameInto, hindex, ok_bind]
  cases index with
  | none => exact if_pos (by omega)
  | some i =>
    have hi := hfar i rfl
    refine if_pos ?_
    rw [List.length_drop]
    omega

/-! ## The name of the header -/

/-- The word `sscanf` finds behind `lib`. -/
def libWord (libname : List UInt8) : List UInt8 :=
  if literal "lib" <+: libname then
    ((libname.drop 3).dropWhile isSpace).takeWhile (!isSpace ·)
  else []

theorem libWord_subset : libWord libname ⊆ libname := by
  unfold libWord
  split
  · intro b hb
    have htake := (List.takeWhile_sublist _).subset hb
    exact List.mem_of_mem_drop ((List.dropWhile_sublist _).subset htake)
  · exact List.nil_subset _

theorem libWord_length_le : (libWord libname).length ≤ libname.length := by
  unfold libWord
  split
  · have htake := (List.takeWhile_sublist (!isSpace ·)
      (l := (libname.drop 3).dropWhile isSpace)).length_le
    have hdrop := (List.dropWhile_sublist isSpace (l := libname.drop 3)).length_le
    rw [List.length_drop] at hdrop
    omega
  · exact Nat.zero_le _

theorem sscanf_libFormat (libname : List UInt8) :
    sscanf libFormat libname 0 =
      if literal "lib" <+: libname then sscanf [.word] (libname.drop 3) 3 else [] := by
  match libname with
  | [] => rfl
  | [a] => by_cases ha : a = 108 <;> simp [libFormat, sscanf, literal, ha]
  | [a, b] =>
    by_cases ha : a = 108 <;> by_cases hb : b = 105 <;> simp [libFormat, sscanf, literal, ha, hb]
  | a :: b :: c :: rest =>
    by_cases hlib : literal "lib" <+: a :: b :: c :: rest
    · obtain ⟨tail, htail⟩ := hlib
      obtain ⟨rfl, rfl, rfl, rfl⟩ : 108 = a ∧ 105 = b ∧ 98 = c ∧ tail = rest := by
        simpa [literal] using htail
      rw [if_pos ⟨tail, htail⟩]
      rfl
    · rw [if_neg hlib]
      unfold libFormat
      rw [sscanf, sscanf, sscanf]
      split_ifs with ha hb hc
      · subst ha hb hc
        exact absurd ⟨rest, rfl⟩ hlib
      all_goals rfl

/-- It goes to a buffer of 512 bytes. -/
theorem textAt_libFormat (h : libname.length < 512) :
    textAt 512 (sscanf libFormat libname 0) 0 = .ok (libWord libname) := by
  have hlen := libWord_length_le.trans_lt h
  rw [sscanf_libFormat]
  unfold libWord at hlen ⊢
  split
  · rename_i hlib
    rw [if_pos hlib] at hlen
    simp only [sscanf]
    split
    · rename_i hnil
      rw [hnil]
      rfl
    · exact if_pos hlen
  · rfl

theorem literal_so_ne_zero : ∀ b ∈ literal ".so", b ≠ 0 := fun _ hb =>
  ne_of_mem_of_not_mem hb (by decide)

theorem literal_h_ne_zero : ∀ b ∈ literal ".h", b ≠ 0 := fun _ hb =>
  ne_of_mem_of_not_mem hb (by decide)

/-- The name of a header has room in its buffer, and no NUL in it. -/
theorem hfileName_fits (hchars : ∀ b ∈ libname, b ≠ 0) (hlen : libname.length < 512) {e : ℕ}
    (he : firstOccurrence (literal ".so") (libWord libname) = some e) :
    e + 3 ≤ (libWord libname).length ∧
      (hfileName ((libWord libname).take e)).length < 512 ∧
      ∀ b ∈ hfileName ((libWord libname).take e), b ≠ 0 := by
  have hroom := ((firstOccurrence_spelled (by decide) e).mp he).1
  have hword := libWord_length_le.trans_lt hlen
  have hso : (literal ".so").length = 3 := rfl
  have hh : (literal ".h").length = 2 := rfl
  rw [hso] at hroom
  refine ⟨hroom, ?_, fun b hb => ?_⟩
  · rw [hfileName, List.length_append, List.length_take]
    omega
  · obtain hb | hb := List.mem_append.mp hb
    · exact hchars b (libWord_subset (List.mem_of_mem_take hb))
    · exact literal_h_ne_zero b hb

/-- The dot and the `h` are stored one by one behind the stem. -/
theorem hfileName_stored {stem : List UInt8} {e : ℕ} (hstem : stem.length = e)
    (hlen : e + 2 ≤ 512) :
    memWrite (zeroed 512 stem) 512 e [46] = .ok (zeroed 512 (stem ++ [46])) ∧
      memWrite (zeroed 512 (stem ++ [46])) 512 (e + 1 : ℕ) [104] =
        .ok (zeroed 512 (hfileName stem)) := by
  have hdot := memWrite_behind 512 stem [46] (by simp; omega)
  have hh := memWrite_behind 512 (stem ++ [46]) [104] (by simp; omega)
  rw [hstem] at hdot
  rw [List.length_append, hstem, List.append_assoc] at hh
  exact ⟨hdot, hh⟩

/-- The name of the header is what stands in front of `.so`, with `.h` behind it. -/
theorem bcloaderGetHfileName_eq (hchars : ∀ b ∈ libname, b ≠ 0) (hlen : libname.length < 512) :
    bcloaderGetHfileName (zeroed 512 libname) (List.replicate 512 0) =
      .ok (match firstOccurrence (literal ".so") (libWord libname) with
        | none => (-1, List.replicate 512 0)
        | some e => (0, zeroed 512 (hfileName ((libWord libname).take e)))) := by
  have hshort := libWord_length_le.trans_lt hlen
  have hfound : fmStrstr (zeroed 512 (libWord libname)) (libWord libname).length
      (literal ".so") 3 = .ok (firstOccurrence (literal ".so") (libWord libname)) :=
    fmStrstr_zeroed (by decide) literal_so_ne_zero hshort
  unfold bcloaderGetHfileName
  rw [cString_zeroed hchars hlen, ok_bind, textAt_libFormat hlen, ok_bind]
  dsimp only
  rw [← zeroed, hfound, ok_bind]
  cases he : firstOccurrence (literal ".so") (libWord libname) with
  | none => rfl
  | some e =>
    obtain ⟨hroom, hfits, hfile⟩ := hfileName_fits hchars hlen he
    have hstem : ((libWord libname).take e).length = e := List.length_take_of_le (by omega)
    have hread : memRead (zeroed 512 (libWord libname)) 0 e = .ok ((libWord libname).take e) := by
      rw [zeroed, memRead_front (by rw [List.length_append]; omega),
        List.take_append_of_le_length (by omega)]
    obtain ⟨hdot, hh⟩ := hfileName_stored hstem (by omega)
    dsimp only
    rw [if_neg (by omega), hread, ok_bind, memWrite_cleared (by omega), ok_bind, hdot, ok_bind,
      hh, ok_bind, cString_zeroed hfile hfits, ok_bind, List.length_replicate,
      memWrite_cleared hfits.le, ok_bind]
    rfl

/-! ## The path of the header -/

/-- Without a slash the header is in the current directory. -/
theorem bcloaderMakeHpath_whole {hfile : List UInt8} (hno : (47 : UInt8) ∉ path.tail)
    (hshort : path.length < 2147483648) (hchars : ∀ b ∈ hfile, b ≠ 0)
    (hlen : hfile.length < 512) :
    bcloaderMakeHpath (some path) (zeroed 512 hfile) (List.replicate 512 0) 512 =
      .ok (0, zeroed 512 hfile) := by
  have hnone : lastIndexOfLoop path 47 path.length = none :=
    lastIndexOfLoop_eq_none (fun b hb => by rintro rfl; exact hno hb) _
  have hwrite : memWrite (List.replicate 512 0) 512 0 (hfile ++ [0]) =
      .ok (zeroed 512 hfile) := by
    rw [memWrite_cleared (by simpa using Nat.succ_le_of_lt hlen), zeroed_terminated hlen]
  simp only [bcloaderMakeHpath, lastIndexOfString_of_short hshort, hnone, ok_bind,
    cString_zeroed hchars hlen, List.length_replicate, hwrite]
  exact if_neg (by omega)

/-- Else it is where the library is, if the path finds room. -/
theorem bcloaderMakeHpath_part {hfile : List UInt8} (hfront : front ≠ [])
    (hback : ∀ b ∈ back, b ≠ 47) (hshort : (front ++ 47 :: back).length < 2147483648)
    (hchars : ∀ b ∈ hfile, b ≠ 0) (hlen : hfile.length < 512) :
    bcloaderMakeHpath (some (front ++ 47 :: back)) (zeroed 512 hfile) (List.replicate 512 0) 512 =
      .ok (if 512 < front.length + 1 + hfile.length then (-1, List.replicate 512 0)
        else (0, zeroed 512 (front ++ [47] ++ hfile))) := by
  have hindex : lastIndexOfLoop (front ++ 47 :: back) 47 (front ++ 47 :: back).length =
      some front.length := lastIndexOfLoop_append hfront hback (by simp)
  have htake : (front ++ 47 :: back).take (front.length + 1) = front ++ [47] := by
    rw [List.take_append, List.take_of_length_le (by omega), Nat.add_sub_cancel_left]
    rfl
  have hdir : (front ++ [47]).length = front.length + 1 := by simp
  simp only [bcloaderMakeHpath, lastIndexOfString_of_short hshort, hindex, ok_bind,
    cString_zeroed hchars hlen, List.length_replicate, htake]
  by_cases hlong : 512 < front.length + 1 + hfile.length
  · rw [if_pos hlong, if_pos hlong]
    rfl
  · have hwrite : memWrite (zeroed 512 (front ++ [47])) (zeroed 512 (front ++ [47])).length
        (front.length + 1 : ℕ) hfile = .ok (zeroed 512 (front ++ [47] ++ hfile)) := by
      have h := memWrite_behind 512 (front ++ [47]) hfile (by rw [hdir]; omega)
      rwa [← hdir, zeroed_length (by rw [hdir]; omega)]
    rw [if_neg hlong, if_neg hlong, memWrite_cleared (by rw [hdir]; omega), ok_bind, hwrite]
    rfl

/-- However the path goes, it fits or is refused. -/
theorem bcloaderMakeHpath_ok {hfile : List UInt8} (hshort : path.length < 2147483648)
    (hchars : ∀ b ∈ hfile, b ≠ 0) (hlen : hfile.length < 512) :
    ∃ r, bcloaderMakeHpath (some path) (zeroed 512 hfile) (List.replicate 512 0) 512 = .ok r := by
  by_cases hslash : (47 : UInt8) ∈ path.tail
  · obtain ⟨front, back, rfl, hfront, hback⟩ := exists_last_slash hslash
    exact ⟨_, bcloaderMakeHpath_part hfront hback hshort hchars hlen⟩
  · exact ⟨_, bcloaderMakeHpath_whole hslash hshort hchars hlen⟩

/-! ## The three functions -/

theorem filePart_subset : filePart path ⊆ path := by
  unfold filePart
  split
  · intro b hb
    have htake := (List.takeWhile_sublist _).subset (List.mem_reverse.mp hb)
    exact List.mem_reverse.mp htake
  · exact List.Subset.refl _

/-- The names where the file name finds room. -/
theorem bcloaderNames_of_lt (hchars : ∀ b ∈ path, b ≠ 0) (hshort : path.length < 2147483648)
    (hlt : (filePart path).length < 512) :
    bcloaderNames (some path) =
      match firstOccurrence (literal ".so") (libWord (filePart path)) with
      | none => .ok none
      | some e => do
        let hfile := zeroed 512 (hfileName ((libWord (filePart path)).take e))
        let made ← bcloaderMakeHpath (some path) hfile (List.replicate 512 0) 512
        return some { libfileName := zeroed 512 (filePart path), hfile := hfile,
                      hpath := made.2, ret := made.1 } := by
  have hname := bcloaderGetHfileName_eq (fun b hb => hchars b (filePart_subset hb)) hlt
  unfold bcloaderNames
  rw [getFilenameInto_of_lt hshort hlt, ok_bind]
  dsimp only
  rw [if_neg (not_not.mpr rfl), hname, ok_bind]
  cases firstOccurrence (literal ".so") (libWord (filePart path)) <;> rfl

/-- A path with a good file name is not left. -/
theorem bcloaderNames_ok (hchars : ∀ b ∈ path, b ≠ 0)
    (hlen : 0 ≤ (path.length : ℤ).bmod 4294967296)
    (hne : path.length < 2147483648 → (filePart path).length ≠ 512) :
    ∃ r, bcloaderNames (some path) = .ok r := by
  obtain hshort | hlong := Nat.lt_or_ge path.length 2147483648
  · obtain hlt | hge := Nat.lt_or_ge (filePart path).length 512
    · rw [bcloaderNames_of_lt hchars hshort hlt]
      cases he : firstOccurrence (literal ".so") (libWord (filePart path)) with
      | none => exact ⟨none, rfl⟩
      | some e =>
        obtain ⟨-, hfits, hfile⟩ :=
          hfileName_fits (fun b hb => hchars b (filePart_subset hb)) hlt he
        obtain ⟨made, hmade⟩ := bcloaderMakeHpath_ok hshort hfile hfits
        dsimp only
        rw [hmade, ok_bind]
        exact ⟨_, rfl⟩
    · have hgt : 512 < (filePart path).length := by
        have := hne hshort
        omega
      unfold bcloaderNames
      rw [getFilenameInto_of_gt hshort hgt, ok_bind]
      exact ⟨none, rfl⟩
  · unfold bcloaderNames
    rw [getFilenameInto_of_long hlong hlen le_rfl, ok_bind]
    exact ⟨none, rfl⟩

/-- A length that is a negative `int` is not survived. -/
theorem len_of_bcloaderNames {r : Option HeaderNames} (h : bcloaderNames (some path) = .ok r) :
    0 ≤ (path.length : ℤ).bmod 4294967296 := by
  by_contra hneg
  have hindex : lastIndexOfString path 47 = .error .outOfBounds := by
    unfold lastIndexOfString
    exact if_pos (by omega)
  simp only [bcloaderNames, getFilenameInto, hindex, error_bind] at h
  cases h

/-- Nor is a file name that leaves no room for its terminator. -/
theorem ne_of_bcloaderNames (hchars : ∀ b ∈ path, b ≠ 0) (hshort : path.length < 2147483648)
    {r : Option HeaderNames} (h : bcloaderNames (some path) = .ok r) :
    (filePart path).length ≠ 512 := by
  intro heq
  obtain ⟨lib, hlib, h⟩ := bind_eq_ok.mp h
  obtain rfl := getFilenameInto_of_eq hshort heq hlib
  have hstring : cString (filePart path) = .error .outOfBounds :=
    cString_unterminated fun b hb => hchars b (filePart_subset hb)
  rw [if_neg (not_not.mpr rfl), bcloaderGetHfileName, hstring] at h
  cases h

/-! ## Libraries -/

namespace LibraryPath

theorem libName_chars (h : LibraryPath path dir stem) : ∀ b ∈ libName stem, b ≠ 47 := by
  have hlib : 47 ∉ literal "lib" := by decide
  have hso : 47 ∉ literal ".so" := by decide
  intro b hb
  rw [libName, List.mem_append, List.mem_append] at hb
  rcases hb with (hb | hb) | hb
  · exact ne_of_mem_of_not_mem hb hlib
  · exact (h.stem_chars b hb).1
  · exact ne_of_mem_of_not_mem hb hso

/-- The word behind `lib` is the rest of the file name. -/
theorem libWord_libName (h : LibraryPath path dir stem) :
    libWord (libName stem) = stem ++ literal ".so" := by
  have hpre : literal "lib" <+: libName stem := by
    rw [libName, List.append_assoc]
    exact List.prefix_append _ _
  have hdrop : (libName stem).drop 3 = stem ++ literal ".so" := rfl
  have hspace : ∀ b ∈ stem ++ literal ".so", isSpace b = false := by
    have hso : (literal ".so").any isSpace = false := by decide
    intro b hb
    obtain hb | hb := List.mem_append.mp hb
    · exact (h.stem_chars b hb).2
    · exact Bool.eq_false_iff.mpr (List.any_eq_false.mp hso b hb)
  have hskip : (stem ++ literal ".so").dropWhile isSpace = stem ++ literal ".so" := by
    obtain ⟨b, rest, hstem⟩ := List.exists_cons_of_ne_nil h.stem_ne
    have hb := hspace b (by simp [hstem])
    rw [hstem, List.cons_append, List.dropWhile_cons_of_neg (by simp [hb])]
  rw [libWord, if_pos hpre, hdrop, hskip, List.takeWhile_eq_self_iff]
  simpa using hspace

theorem firstOccurrence_so (h : LibraryPath path dir stem) :
    firstOccurrence (literal ".so") (stem ++ literal ".so") = some stem.length :=
  firstOccurrence_append h.no_so (by decide)

theorem hfile_fits (h : LibraryPath path dir stem) : (hfileName stem).length < 512 := by
  have hfits := h.header_fits
  rw [List.length_append] at hfits
  omega

/-- A library in the root directory has no file name of its own. -/
theorem names_of_root (h : LibraryPath path [47] stem) (hchars : ∀ b ∈ path, b ≠ 0)
    (names : HeaderNames) : bcloaderNames (some path) ≠ .ok (some names) := by
  intro hok
  have hpath : path = 47 :: libName stem := h.path_eq
  have hfits := h.lib_fits
  have hno : (47 : UInt8) ∉ path.tail := by
    rw [hpath]
    exact fun hmem => h.libName_chars 47 hmem rfl
  have hlen : path.length ≤ 512 := by
    rw [hpath, List.length_cons]
    omega
  have hword : libWord path = [] := by
    rw [hpath, libWord, if_neg]
    rintro ⟨rest, hrest⟩
    cases hrest
  have hne := ne_of_bcloaderNames hchars (by omega) hok
  have hnames := bcloaderNames_of_lt hchars (by omega)
    (by rw [filePart_of_not_mem hno] at hne ⊢; omega)
  rw [filePart_of_not_mem hno, hword, firstOccurrence_nil (by decide), hok] at hnames
  cases hnames

/-- Any other library has its names derived. -/
theorem names_of_ne (h : LibraryPath path dir stem) (hdir : dir ≠ [47])
    (hchars : ∀ b ∈ path, b ≠ 0) :
    ∃ names, bcloaderNames (some path) = .ok (some names) ∧ names.Holds dir stem := by
  have hlib := h.lib_fits
  have hheader := h.header_fits
  have hshort : path.length < 2147483648 := by
    rw [h.path_eq]
    simp only [List.length_append] at hheader hlib ⊢
    omega
  have hhfile : ∀ b ∈ hfileName stem, b ≠ 0 := by
    intro b hb
    obtain hb | hb := List.mem_append.mp hb
    · exact hchars b (by rw [h.path_eq, libName]; simp [hb])
    · exact literal_h_ne_zero b hb
  have hlibne : ∀ b ∈ libName stem, b ≠ 0 := fun b hb =>
    hchars b (by rw [h.path_eq]; exact List.mem_append_right dir hb)
  -- the file name, and where the header is put
  obtain ⟨hpart, hmade⟩ : filePart path = libName stem ∧
      bcloaderMakeHpath (some path) (zeroed 512 (hfileName stem)) (List.replicate 512 0) 512 =
        .ok (0, zeroed 512 (dir ++ hfileName stem)) := by
    obtain rfl | ⟨front, rfl⟩ := h.dir_end
    · have hpath : path = libName stem := h.path_eq
      have hno : (47 : UInt8) ∉ path.tail := fun hmem =>
        h.libName_chars 47 (hpath ▸ List.mem_of_mem_tail hmem) rfl
      exact ⟨(filePart_of_not_mem hno).trans hpath,
        bcloaderMakeHpath_whole hno hshort hhfile h.hfile_fits⟩
    · have hpath : path = front ++ 47 :: libName stem := by
        rw [h.path_eq, List.append_assoc, List.singleton_append]
      have hfront : front ≠ [] := by
        rintro rfl
        exact hdir rfl
      subst hpath
      refine ⟨filePart_append hfront h.libName_chars, ?_⟩
      rw [bcloaderMakeHpath_part hfront h.libName_chars hshort hhfile h.hfile_fits, if_neg]
      simp only [List.length_append, List.length_singleton] at hheader ⊢
      omega
  have hword : (libWord (filePart path)).take stem.length = stem := by
    rw [hpart, h.libWord_libName, List.take_left]
  have hnames := bcloaderNames_of_lt hchars hshort (by rw [hpart]; exact hlib)
  rw [hpart, h.libWord_libName, h.firstOccurrence_so] at hnames
  simp only [List.take_left, hmade, ok_bind] at hnames
  exact ⟨_, hnames, ⟨cString_zeroed hlibne hlib, cString_zeroed hhfile h.hfile_fits,
    cString_zeroed (fun b hb => by
      obtain hb | hb := List.mem_append.mp hb
      · exact hchars b (by rw [h.path_eq]; exact List.mem_append_left _ hb)
      · exact hhfile b hb) hheader, rfl⟩⟩

end LibraryPath

/-- **Header paths.** The names are derived as they should be, and the buffers are kept,
exactly where the length of the path is no negative `int`, its file name is not just one
character too long, and it does not name a library in the root directory. -/
theorem derivesNames_iff (path : CText) :
    DerivesNames path ↔
      0 ≤ (path.chars.length : ℤ).bmod 4294967296 ∧
      (path.chars.length < 2147483648 → (filePart path.chars).length ≠ 512) ∧
      ∀ stem, ¬ LibraryPath path.chars [47] stem := by
  constructor
  · rintro ⟨hlibrary, hother⟩
    have hok : ∃ r, bcloaderNames (some path.chars) = .ok r := by
      by_cases h : ∃ dir stem, LibraryPath path.chars dir stem
      · obtain ⟨dir, stem, h⟩ := h
        obtain ⟨names, hnames, -⟩ := hlibrary dir stem h
        exact ⟨_, hnames⟩
      · push Not at h
        exact hother h
    obtain ⟨r, hr⟩ := hok
    refine ⟨len_of_bcloaderNames hr, fun hshort => ne_of_bcloaderNames path.ne_zero hshort hr,
      fun stem h => ?_⟩
    obtain ⟨names, hnames, -⟩ := hlibrary _ _ h
    exact h.names_of_root path.ne_zero names hnames
  · rintro ⟨hlen, hne, hroot⟩
    refine ⟨fun dir stem h => h.names_of_ne ?_ path.ne_zero,
      fun _ => bcloaderNames_ok path.ne_zero hlen hne⟩
    rintro rfl
    exact hroot stem h

/-- A library in the root directory. -/
def rootLibrary : CText where
  chars := literal "/libfm.so"
  ne_zero _ hb := ne_of_mem_of_not_mem hb (by decide)

theorem rootLibrary_path : LibraryPath rootLibrary.chars [47] (literal "fm") where
  path_eq := by decide
  dir_end := .inr ⟨[], rfl⟩
  stem_ne := by decide
  stem_chars b hb :=
    have hspace : (literal "fm").any isSpace = false := by decide
    ⟨ne_of_mem_of_not_mem hb (by decide), Bool.eq_false_iff.mpr (List.any_eq_false.mp hspace b hb)⟩
  no_so := by decide
  lib_fits := by decide
  header_fits := by decide

/-- Its name is taken with the slash, and `lib` is not found at its start. -/
theorem rootLibrary_fails : ¬ ∀ path : CText, DerivesNames path := by
  intro h
  obtain ⟨names, hnames, -⟩ := (h rootLibrary).1 _ _ rootLibrary_path
  exact rootLibrary_path.names_of_root rootLibrary.ne_zero names hnames

end TsmVm
