import TsmVm.FmUtil
import TsmVm.Lib.Occurrence

/-!
# Substring search

`fm_strstr` compares the pattern with the text from each place on and never
looks at how much of the text is left. A place at which the text breaks off
inside the pattern is compared with the memory behind the text, which decides
whether it is a match, or lies outside the block.
-/

namespace TsmVm

variable {sub str : List UInt8}

/-- What the inner loop finds from one place: a match, a mismatch, or the end of
the memory before either. -/
theorem strstrMatch_eq (hsub : sub ≠ []) (text behind : List UInt8) (j : ℕ) :
    strstrMatch ((j + sub.length : ℕ) : ℤ) text (sub ++ behind) j =
      if sub <+: text then .ok true
      else if text <+: sub then .error .outOfBounds
      else .ok false := by
  induction sub generalizing text j with
  | nil => contradiction
  | cons b sub ih =>
    cases text with
    | nil => simp [strstrMatch]
    | cons a text =>
      rw [List.cons_append, strstrMatch]
      simp only [List.cons_prefix_cons]
      by_cases hab : a = b
      · subst hab
        cases sub with
        | nil => simp
        | cons c sub =>
          have hj : ¬ ((j + 1 : ℕ) : ℤ) = ((j + (a :: c :: sub).length : ℕ) : ℤ) := by
            rw [List.length_cons, List.length_cons]
            omega
          have hlen : j + (a :: c :: sub).length = j + 1 + (c :: sub).length := by
            simp only [List.length_cons]
            omega
          rw [if_pos rfl, if_neg hj, hlen, ih (List.cons_ne_nil c sub)]
          simp only [true_and]
      · have hba : ¬ b = a := fun h => hab h.symm
        simp [hab, hba]

/-- At a place where the text does not break off inside the pattern the memory
behind the text is not looked at. -/
theorem strstrMatch_text (hsub : sub ≠ []) (hstr : sub <+: str ∨ ¬ str <+: sub)
    (behind behind' : List UInt8) :
    strstrMatch sub.length (str ++ behind) (sub ++ behind') 0 = .ok (decide (sub <+: str)) := by
  have h := strstrMatch_eq hsub (str ++ behind) behind' 0
  rw [Nat.zero_add] at h
  rw [h]
  by_cases hpre : sub <+: str
  · rw [if_pos (hpre.trans (List.prefix_append str behind))]
    simp [hpre]
  · have hstr : ¬ str <+: sub := hstr.resolve_left hpre
    have hlong : ¬ sub <+: str ++ behind := by
      intro h
      rcases List.prefix_or_prefix_of_prefix h (List.prefix_append str behind) with h | h
      · exact hpre h
      · exact hstr h
    have hshort : ¬ str ++ behind <+: sub := fun h =>
      hstr ((List.prefix_append str behind).trans h)
    rw [if_neg hlong, if_neg hshort]
    simp [hpre]

/-- A text that is a prefix of the pattern and contains it is the pattern. -/
theorem starts_of_within {a : List UInt8} (h : sub <:+: a) (hpre : a <+: sub) :
    sub <+: a := by
  rw [hpre.eq_of_length_le h.length_le]

/-- Where the pattern occurs, or the text does not break off inside it, the scan
finds the first occurrence. -/
theorem fmStrstrLoop_search (hsub : sub ≠ []) (h : sub <:+: str ∨ ¬ EndsInside sub str)
    (behind behind' : List UInt8) (i : ℕ) :
    fmStrstrLoop (sub ++ behind') sub.length str.length (str ++ behind) i =
      .ok ((firstOccurrence sub str).map (i + ·)) := by
  induction str generalizing i with
  | nil =>
    rw [firstOccurrence_nil hsub]
    rfl
  | cons a str ih =>
    rw [endsInside_cons, not_or] at h
    have hstr : sub <+: a :: str ∨ ¬ a :: str <+: sub := by
      rcases h with h | h
      · by_cases hpre : a :: str <+: sub
        · exact .inl (starts_of_within h hpre)
        · exact .inr hpre
      · exact .inr h.1
    rw [List.length_cons, fmStrstrLoop, strstrMatch_text hsub hstr, ok_bind, firstOccurrence_cons]
    by_cases hpre : sub <+: a :: str
    · simp [hpre]
    · have hrest : sub <:+: str ∨ ¬ EndsInside sub str := by
        rcases h with h | h
        · exact .inl ((List.infix_cons_iff.mp h).resolve_left hpre)
        · exact .inr h.2
      rw [decide_eq_false hpre, if_neg hpre, if_neg Bool.false_ne_true, List.cons_append,
        List.tail_cons, ih hrest, Option.map_map]
      congr 2
      funext k
      simp only [Function.comp_apply]
      omega

/-- A pattern without NUL does not reach over the terminator of a text. -/
theorem prefix_terminated (hsub : ∀ b ∈ sub, b ≠ 0) (behind : List UInt8) :
    sub <+: str ++ 0 :: behind ↔ sub <+: str := by
  constructor
  · intro h
    rcases List.prefix_or_prefix_of_prefix h (List.prefix_append str _) with h' | h'
    · exact h'
    · obtain ⟨rest, rfl⟩ := h'
      cases rest with
      | nil => simp
      | cons b rest =>
        have hb : b = 0 :=
          (List.cons_prefix_cons.mp ((List.prefix_append_right_inj str).mp h)).1
        exact absurd hb (hsub b (by simp))
  · exact fun h => h.trans (List.prefix_append str _)

/-- In a terminated text the memory behind it does not matter. -/
theorem strstrMatch_terminated (hsub : sub ≠ []) (hne : ∀ b ∈ sub, b ≠ 0)
    (behind behind' : List UInt8) :
    strstrMatch sub.length (str ++ 0 :: behind) (sub ++ behind') 0 =
      .ok (decide (sub <+: str)) := by
  have h := strstrMatch_eq hsub (str ++ 0 :: behind) behind' 0
  have hno : ¬ str ++ 0 :: behind <+: sub := fun hpre => hne 0 (hpre.subset (by simp)) rfl
  rw [Nat.zero_add, if_neg hno] at h
  simp only [h, prefix_terminated hne]
  by_cases hpre : sub <+: str
  · simp [hpre]
  · simp [hpre]

/-- The scan of a terminated text finds the first occurrence. -/
theorem fmStrstrLoop_terminated (hsub : sub ≠ []) (hne : ∀ b ∈ sub, b ≠ 0)
    (behind behind' : List UInt8) (i : ℕ) :
    fmStrstrLoop (sub ++ behind') sub.length str.length (str ++ 0 :: behind) i =
      .ok ((firstOccurrence sub str).map (i + ·)) := by
  induction str generalizing i with
  | nil =>
    rw [firstOccurrence_nil hsub]
    rfl
  | cons a str ih =>
    rw [List.length_cons, fmStrstrLoop, strstrMatch_terminated hsub hne, ok_bind,
      firstOccurrence_cons]
    by_cases hpre : sub <+: a :: str
    · simp [hpre]
    · rw [decide_eq_false hpre, if_neg hpre, if_neg Bool.false_ne_true, List.cons_append,
        List.tail_cons, ih, Option.map_map]
      congr 2
      funext k
      simp only [Function.comp_apply]
      omega

/-- The search of a string is exact for patterns without NUL. -/
theorem fmStrstr_terminated (hsub : sub ≠ []) (hne : ∀ b ∈ sub, b ≠ 0)
    (behind behind' : List UInt8) :
    fmStrstr (str ++ 0 :: behind) str.length (sub ++ behind') sub.length =
      .ok (firstOccurrence sub str) := by
  unfold fmStrstr
  rw [Int.toNat_natCast, fmStrstrLoop_terminated hsub hne behind behind' 0]
  simp

/-- A text in a cleared block is terminated. -/
theorem fmStrstr_zeroed (hsub : sub ≠ []) (hne : ∀ b ∈ sub, b ≠ 0) {size : ℕ}
    (h : str.length < size) :
    fmStrstr (zeroed size str) str.length sub sub.length = .ok (firstOccurrence sub str) := by
  obtain ⟨m, hm⟩ : ∃ m, size - str.length = m + 1 := ⟨size - str.length - 1, by omega⟩
  have hfound := @fmStrstr_terminated sub str hsub hne (List.replicate m 0) []
  rw [List.append_nil] at hfound
  rw [zeroed, hm, List.replicate_succ, hfound]

/-- Otherwise some memory behind the text makes the scan find a match that the
text does not contain. -/
theorem fmStrstrLoop_false (hsub : sub ≠ []) (hno : ¬ sub <:+: str) (hend : EndsInside sub str)
    (i : ℕ) :
    ∃ behind k, ∀ behind',
      fmStrstrLoop (sub ++ behind') sub.length str.length (str ++ behind) i = .ok (some k) := by
  induction str generalizing i with
  | nil => exact absurd hend not_endsInside_nil
  | cons a str ih =>
    have hpre : ¬ sub <+: a :: str := fun h => hno h.isInfix
    by_cases hhead : a :: str <+: sub
    · -- the rest of the pattern behind the text completes it
      obtain ⟨rest, hrest⟩ := hhead
      refine ⟨rest, i, fun behind' => ?_⟩
      rw [List.length_cons, fmStrstrLoop, hrest]
      have h := strstrMatch_text hsub (.inl (List.prefix_refl sub)) [] behind'
      rw [List.append_nil] at h
      rw [h]
      simp
    · have hstr : ¬ sub <:+: str := fun h => hno (List.infix_cons h)
      obtain ⟨behind, k, hk⟩ :=
        ih hstr (((endsInside_cons sub a str).mp hend).resolve_left hhead) (i + 1)
      refine ⟨behind, k, fun behind' => ?_⟩
      rw [List.length_cons, fmStrstrLoop, strstrMatch_text hsub (.inr hhead), ok_bind,
        decide_eq_false hpre]
      exact hk behind'

/-- Where the block ends with the text, the scan leaves it. -/
theorem fmStrstrLoop_outOfBounds (hsub : sub ≠ []) (hno : ¬ sub <:+: str)
    (hend : EndsInside sub str) (i : ℕ) :
    fmStrstrLoop sub sub.length str.length str i = .error .outOfBounds := by
  induction str generalizing i with
  | nil => exact absurd hend not_endsInside_nil
  | cons a str ih =>
    have hpre : ¬ sub <+: a :: str := fun h => hno h.isInfix
    have hmatch := strstrMatch_eq hsub (a :: str) [] 0
    rw [Nat.zero_add, List.append_nil, if_neg hpre] at hmatch
    rw [List.length_cons, fmStrstrLoop, hmatch]
    by_cases hhead : a :: str <+: sub
    · rw [if_pos hhead, error_bind]
    · have hstr : ¬ sub <:+: str := fun h => hno (List.infix_cons h)
      rw [if_neg hhead, ok_bind]
      exact ih hstr (((endsInside_cons sub a str).mp hend).resolve_left hhead) (i + 1)

/-- When the search of a text in a block of its own stays within the block. -/
theorem fmStrstr_ok_iff (str sub : List UInt8) :
    (∃ r, fmStrstr str str.length sub sub.length = .ok r) ↔
      str = [] ∨ sub ≠ [] ∧ (sub <:+: str ∨ ¬ EndsInside sub str) := by
  unfold fmStrstr
  rw [Int.toNat_natCast]
  cases str with
  | nil => exact ⟨fun _ => .inl rfl, fun _ => ⟨none, rfl⟩⟩
  | cons a str =>
    cases sub with
    | nil => simp [fmStrstrLoop, strstrMatch]
    | cons b sub =>
      have hsub : b :: sub ≠ [] := List.cons_ne_nil b sub
      constructor
      · rintro ⟨r, hr⟩
        right
        refine ⟨hsub, ?_⟩
        by_contra hbad
        obtain ⟨hno, hend⟩ := not_or.mp hbad
        rw [fmStrstrLoop_outOfBounds hsub hno (not_not.mp hend)] at hr
        cases hr
      · intro h
        have hgood := (h.resolve_left (List.cons_ne_nil a str)).2
        have hloop := fmStrstrLoop_search hsub hgood [] [] 0
        rw [List.append_nil, List.append_nil] at hloop
        exact ⟨_, hloop⟩

/-- The search of a text is exact: it returns the least place at which the
pattern lies within the text, whatever follows the text and the pattern in
memory. -/
def FmStrstrExact (str sub : List UInt8) : Prop :=
  ∀ behind behind', ∃ r,
    fmStrstr (str ++ behind) str.length (sub ++ behind') sub.length = .ok r ∧
    ∀ k, r = some k ↔ k + sub.length ≤ str.length ∧ (str.drop k).take sub.length = sub ∧
      ∀ j < k, (str.drop j).take sub.length ≠ sub

/-- The first occurrence of a pattern of at least one byte, spelled out. -/
theorem firstOccurrence_spelled (hsub : sub ≠ []) (k : ℕ) :
    firstOccurrence sub str = some k ↔ k + sub.length ≤ str.length ∧
      (str.drop k).take sub.length = sub ∧ ∀ j < k, (str.drop j).take sub.length ≠ sub := by
  have hpos : 0 < sub.length := List.length_pos_iff.mpr hsub
  have hstarts : ∀ j, sub <+: str.drop j ↔ (str.drop j).take sub.length = sub := fun j => by
    rw [List.prefix_iff_eq_take, eq_comm]
  simp only [firstOccurrence_eq_some, hstarts]
  constructor
  · rintro ⟨hk, heq, hleast⟩
    have hlen := congrArg List.length heq
    rw [List.length_take, List.length_drop] at hlen
    exact ⟨by omega, heq, hleast⟩
  · rintro ⟨hk, heq, hleast⟩
    exact ⟨by omega, heq, hleast⟩

/-- The search is exact for the texts that contain the pattern and those that do
not break off inside it, and for no others. -/
theorem fmStrstr_exact_iff (str : List UInt8) (hsub : 1 ≤ sub.length) :
    FmStrstrExact str sub ↔ sub <:+: str ∨ ¬ EndsInside sub str := by
  have hsub : sub ≠ [] := List.length_pos_iff.mp hsub
  constructor
  · intro h
    by_contra hbad
    obtain ⟨hno, hend⟩ := not_or.mp hbad
    rw [not_not] at hend
    obtain ⟨behind, k, hk⟩ := fmStrstrLoop_false hsub hno hend 0
    obtain ⟨r, hr, hfirst⟩ := h behind []
    obtain rfl : some k = r := Except.ok.inj ((hk []).symm.trans hr)
    have hfirst := (firstOccurrence_spelled hsub k).mpr ((hfirst k).mp rfl)
    rw [firstOccurrence_eq_none.mpr hno] at hfirst
    cases hfirst
  · intro h behind behind'
    refine ⟨firstOccurrence sub str, ?_, firstOccurrence_spelled hsub⟩
    unfold fmStrstr
    rw [Int.toNat_natCast, fmStrstrLoop_search hsub h behind behind' 0]
    simp

/-- The answer of an inactive card is found in a response that contains it. -/
theorem fmStrstr_exact_inactive : FmStrstrExact [0x66, 0x10, 0x90, 0x00] [0x66, 0x10] :=
  (fmStrstr_exact_iff [0x66, 0x10, 0x90, 0x00] (by decide)).mpr (by decide)

/-- A text that ends with the first of two bytes of the pattern: whether the
second one is found depends on the memory behind the text. -/
theorem fmStrstr_not_exact : ¬ FmStrstrExact [0x66] [0x66, 0x10] := by
  intro h
  obtain ⟨r, hr, hfirst⟩ := h [0x10] []
  obtain rfl : some 0 = r := Except.ok.inj hr
  have hlen := ((hfirst 0).mp rfl).1
  simp at hlen

end TsmVm
