import TsmVm.Lib.Trim
import TsmVm.TsmCfg

/-!
# What `trim_lr` leaves in the buffer

Every line of a configuration goes through `trim_lr`. It moves what is behind the
blanks in front to the start of the buffer and ends the string behind the last
character that is no blank. The scan from the end has no bound of its own: it stops
at the character the first scan has found.
-/

namespace TsmVm

open Trim

/-- The buffer of a string once its text has been moved to the front. -/
def movedText (s : List UInt8) : List UInt8 :=
  s.dropWhile isTrim ++ (s ++ [0]).drop (s.dropWhile isTrim).length

/-- The buffer of a string after `trim_lr`. -/
def trimBuffer (s : List UInt8) : List UInt8 :=
  trim isTrim s ++ 0 :: (movedText s).drop ((trim isTrim s).length + 1)

variable {s t behind rest mem : List UInt8} {n p q k : ℕ}

/-- The first loop stops behind the blanks in front. -/
theorem trimSkip_eq (s behind : List UInt8) (k : ℕ) :
    trimSkip (s ++ 0 :: behind) k = .ok (k + (s.takeWhile isTrim).length) := by
  induction s generalizing k with
  | nil => rfl
  | cons b s ih =>
    rw [List.cons_append, trimSkip]
    cases hb : isTrim b with
    | true =>
      rw [if_pos rfl, ih, List.takeWhile_cons_of_pos hb, List.length_cons]
      congr 1
      omega
    | false =>
      rw [if_neg Bool.false_ne_true, List.takeWhile_cons_of_neg (by simp [hb])]
      rfl

/-- The second loop moves the text, whatever it overwrites on the way. -/
theorem trimMove_eq (ht : ∀ b ∈ t, b ≠ 0) (hdrop : mem.drop p = t ++ 0 :: behind) (hq : q ≤ p)
    (hn : t.length < n) :
    trimMove n mem p q = .ok (mem.take q ++ t ++ mem.drop (q + t.length), q + t.length) := by
  induction t generalizing mem p q n with
  | nil =>
    obtain ⟨n, rfl⟩ : ∃ m, n = m + 1 := ⟨n - 1, by simp at hn; omega⟩
    rw [trimMove, byteAt_natCast (next_of_drop hdrop).1, ok_bind, if_pos rfl]
    simp
  | cons b t ih =>
    obtain ⟨n, rfl⟩ : ∃ m, n = m + 1 := ⟨n - 1, by simp at hn; omega⟩
    obtain ⟨hb, ht⟩ := List.forall_mem_cons.mp ht
    obtain ⟨hread, hnext⟩ := next_of_drop hdrop
    have hlt : p < mem.length := (List.getElem?_eq_some_iff.mp hread).1
    have hwrite : memWrite mem mem.length q [b] =
        .ok (mem.take q ++ [b] ++ mem.drop (q + 1)) := by
      rw [memWrite_natCast, List.length_singleton, if_pos (.inr ⟨by omega, le_rfl⟩)]
    -- what is still to be moved lies behind the byte that is stored
    obtain ⟨-, hbehind⟩ := memWrite_drop hwrite (k := p + 1) (by rw [List.length_singleton]; omega)
    obtain ⟨-, hrest⟩ := memWrite_drop hwrite (k := q + 1 + t.length)
      (by rw [List.length_singleton]; omega)
    have hfront : (mem.take q ++ [b]).length = q + 1 := by
      rw [List.length_append, List.length_take, List.length_singleton]
      omega
    have htake : (mem.take q ++ [b] ++ mem.drop (q + 1)).take (q + 1) = mem.take q ++ [b] := by
      rw [List.take_append_of_le_length hfront.ge, List.take_of_length_le hfront.le]
    have hlen : q + (b :: t).length = q + 1 + t.length := by
      rw [List.length_cons]
      omega
    rw [trimMove, byteAt_natCast hread, ok_bind, if_neg hb, hwrite, ok_bind,
      ih ht (hbehind.trans hnext) (by omega) (by simpa using hn), hrest, htake, hlen,
      List.append_assoc _ [b], List.singleton_append]

/-- The third loop stops behind the last character that stays. -/
theorem trimBack_eq (hne : t.rdropWhile isTrim ≠ []) :
    trimBack (t ++ rest) t.length = .ok (t.rdropWhile isTrim).length := by
  induction t using List.reverseRecOn generalizing rest with
  | nil => exact absurd rfl hne
  | append_singleton t b ih =>
    have hread : byteAt (t ++ [b] ++ rest) t.length = .ok b :=
      byteAt_natCast (by rw [List.append_assoc, List.getElem?_append_right le_rfl]; simp)
    rw [List.length_append, List.length_singleton, trimBack, hread, ok_bind]
    cases hb : isTrim b with
    | true =>
      rw [List.rdropWhile_concat_pos _ _ _ hb] at hne ⊢
      rw [if_pos rfl, List.append_assoc]
      exact ih hne
    | false =>
      rw [List.rdropWhile_concat_neg _ _ _ (by simp [hb]), if_neg Bool.false_ne_true,
        List.length_append, List.length_singleton]
      rfl

/-- The buffer keeps its size. -/
theorem length_movedText (s : List UInt8) : (movedText s).length = s.length + 1 := by
  have hle := (s.dropWhile_sublist isTrim).length_le
  simp only [movedText, List.length_append, List.length_drop, List.length_singleton]
  omega

/-- There is room for the terminator. -/
theorem length_trim_lt (s : List UInt8) : (trim isTrim s).length < (movedText s).length := by
  have hle := (trim_heads_dropWhile isTrim s).length_le
  have hle' := (s.dropWhile_sublist isTrim).length_le
  rw [length_movedText]
  omega

/-- What the terminator is stored in. -/
theorem memWrite_trimBuffer (s behind : List UInt8) :
    memWrite (movedText s ++ behind) (movedText s ++ behind).length (trim isTrim s).length [0] =
      .ok (trimBuffer s ++ behind) := by
  have hlt := length_trim_lt s
  have hfront : (movedText s).take (trim isTrim s).length = trim isTrim s := by
    obtain ⟨back, hback⟩ := trim_heads_dropWhile isTrim s
    rw [movedText, ← hback, List.append_assoc, List.take_left]
  rw [memWrite_natCast, List.length_singleton,
    if_pos (.inr ⟨by rw [List.length_append]; omega, le_rfl⟩),
    List.take_append_of_le_length hlt.le, hfront, List.drop_append_of_le_length hlt, trimBuffer]
  simp

/-- What `trim_lr` makes of a string, whatever lies behind it. -/
theorem trimLr_eq (hs : ∀ b ∈ s, b ≠ 0) (behind : List UInt8) :
    trimLr (s ++ 0 :: behind) = .ok (trimBuffer s ++ behind) := by
  have hsplit : s.takeWhile isTrim ++ s.dropWhile isTrim = s := List.takeWhile_append_dropWhile
  have hdrop : (s ++ 0 :: behind).drop (s.takeWhile isTrim).length =
      s.dropWhile isTrim ++ 0 :: behind := by
    have hleft := @List.drop_left _ (s.takeWhile isTrim) (s.dropWhile isTrim ++ 0 :: behind)
    rwa [← List.append_assoc, hsplit] at hleft
  have hmoved : s.dropWhile isTrim ++ (s ++ 0 :: behind).drop (s.dropWhile isTrim).length =
      movedText s ++ behind := by
    have hle := (s.dropWhile_sublist isTrim).length_le
    have hcons : s ++ 0 :: behind = s ++ [0] ++ behind := by simp
    rw [hcons, List.drop_append_of_le_length (by rw [List.length_append]; omega), movedText,
      List.append_assoc]
  unfold trimLr
  rw [trimSkip_eq, ok_bind, Nat.zero_add]
  cases ht : s.dropWhile isTrim with
  | nil =>
    rw [ht] at hdrop hmoved
    have htrim : trim isTrim s = [] := by rw [trim, ht, List.rdropWhile_nil]
    have hwrite := memWrite_trimBuffer s behind
    rw [htrim, ← hmoved] at hwrite
    rw [byteAt_natCast (next_of_drop hdrop).1, ok_bind, if_pos rfl]
    exact hwrite
  | cons b t =>
    rw [ht] at hdrop
    have hne : (s.dropWhile isTrim).rdropWhile isTrim ≠ [] := by
      intro hnil
      have hall := List.rdropWhile_eq_nil_iff.mp hnil
      have hhead := List.head_dropWhile_not isTrim (l := s) (by rw [ht]; exact List.cons_ne_nil b t)
      rw [hall _ (List.head_mem _)] at hhead
      cases hhead
    have hb : ∀ c ∈ b :: t, c ≠ 0 := fun c hc =>
      hs c ((s.dropWhile_sublist isTrim).subset (ht ▸ hc))
    have hrun := trimMove_eq hb hdrop (Nat.zero_le _) (n := (s ++ 0 :: behind).length) (by
      have hle := (s.dropWhile_sublist isTrim).length_le
      rw [ht] at hle
      rw [List.length_append]
      simp only [List.length_cons] at hle ⊢
      omega)
    rw [← ht, List.take_zero, List.nil_append, Nat.zero_add, hmoved] at hrun
    rw [byteAt_natCast (next_of_drop hdrop).1, ok_bind, if_neg (hb b List.mem_cons_self), hrun,
      ok_bind]
    dsimp only
    rw [← hmoved, trimBack_eq hne, ok_bind, hmoved]
    exact memWrite_trimBuffer s behind

/-- A trimmed string stays as it is. -/
theorem trimBuffer_trim (s : List UInt8) : trimBuffer (trim isTrim s) = trim isTrim s ++ [0] := by
  simp [trimBuffer, movedText, trim_trim, dropWhile_trim]

/-- **Trimming.** The block of a string holds, after `trim_lr`, the string without its
longest prefix and suffix of blanks, in a buffer of the same size; nothing outside the
string and its terminator is read or written; and a second call changes nothing. -/
theorem trimLr_exact (s : CText) : ∃ buf : List UInt8, buf.length = s.chars.length + 1 ∧
    (∀ behind, trimLr (s.chars ++ 0 :: behind) = .ok (buf ++ behind)) ∧
    (∀ behind, cString (buf ++ behind) = .ok (trim isTrim s.chars)) ∧
    ∀ behind, trimLr (buf ++ behind) = .ok (buf ++ behind) := by
  have htrim : ∀ b ∈ trim isTrim s.chars, b ≠ 0 := fun b hb => s.ne_zero b (mem_of_mem_trim hb)
  refine ⟨trimBuffer s.chars, ?_, trimLr_eq s.ne_zero, fun behind => ?_, fun behind => ?_⟩
  · have hlt := length_trim_lt s.chars
    have hlen := length_movedText s.chars
    rw [trimBuffer, List.length_append, List.length_cons, List.length_drop]
    omega
  · rw [trimBuffer, List.append_assoc, List.cons_append]
    exact cString_terminated htrim _
  · have hagain := trimLr_eq htrim
      ((movedText s.chars).drop ((trim isTrim s.chars).length + 1) ++ behind)
    rw [trimBuffer_trim] at hagain
    rw [trimBuffer, List.append_assoc, List.cons_append, hagain]
    simp

end TsmVm
