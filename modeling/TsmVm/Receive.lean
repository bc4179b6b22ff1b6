import TsmVm.Vm

/-!
# Receiving a package

What the first lines of the loop body do to a package, whatever its payload:
they move the cursor and leave the package the same otherwise. A package that
has been received once has no payload left, so receiving it again reads through
the `NULL` that `skb_pull` returns.
-/

namespace TsmVm

/-- The same package, its cursors apart. -/
structure Skb.Same (s t : Skb) : Prop where
  /-- The number is the same. -/
  index_eq : t.index = s.index
  /-- The session is the same. -/
  session_eq : t.session = s.session
  /-- The mark is the same. -/
  isNew_eq : t.isNew = s.isNew

theorem Skb.Same.refl (s : Skb) : s.Same s := ⟨rfl, rfl, rfl⟩

theorem Skb.Same.trans {s t v : Skb} (h : s.Same t) (h' : t.Same v) : s.Same v :=
  ⟨h'.index_eq.trans h.index_eq, h'.session_eq.trans h.session_eq, h'.isNew_eq.trans h.isNew_eq⟩

/-- Pulling moves the cursor only. -/
theorem skbPull_same (s : Skb) (n : ℕ) : s.Same (skbPull s n).2 := by
  unfold skbPull
  split <;> exact ⟨rfl, rfl, rfl⟩

/-- So does skipping the outer header. -/
theorem skipTagAx_same {s t : Skb} (h : skipTagAx s = .ok t) : s.Same t := by
  have htwo := (skbPull_same s 1).trans (skbPull_same (skbPull s 1).2 1)
  obtain ⟨p, -, h⟩ := bind_eq_ok.mp h
  obtain ⟨b, -, h⟩ := bind_eq_ok.mp h
  split at h
  · obtain rfl := Except.ok.inj h
    exact htwo.trans (skbPull_same _ 2)
  · obtain rfl := Except.ok.inj h
    exact htwo

/-- So does decoding a fragment. -/
theorem tagA0ToFmBytes_same {u : Unspec} {i : ℕ} {s : Skb} {r : Option FmBytes × Skb}
    (h : tagA0ToFmBytes u i s = .ok r) : s.Same r.2 := by
  have hthree := ((skbPull_same s 1).trans (skbPull_same (skbPull s 1).2 1)).trans
    (skbPull_same (skbPull (skbPull s 1).2 1).2 1)
  obtain ⟨p, -, h⟩ := bind_eq_ok.mp h
  obtain ⟨len, -, h⟩ := bind_eq_ok.mp h
  obtain ⟨copied, -, h⟩ := bind_eq_ok.mp h
  obtain rfl := Except.ok.inj h
  exact hthree.trans (skbPull_same _ _)

/-- What holds where nothing is left, and of a round if it holds of what is left behind
the round, holds where the loop starts. -/
theorem tagA0sLoop_rec {u : Unspec} {t : Skb} {fba' : FmBytesArray}
    {P : ℕ → Skb → FmBytesArray → Prop} (hstop : ∀ i, t.len = 0 → P i t fba')
    (hround : ∀ (i : ℕ) (s : Skb) (fba : FmBytesArray) (next : Option FmBytes × Skb)
      (fba₁ : FmBytesArray), 0 < s.len → tagA0ToFmBytes u i s = .ok next →
      fba.store i next.1 = .ok fba₁ → P (i + 1) next.2 { fba₁ with cnt := i + 1 } → P i s fba)
    {rounds i : ℕ} {s : Skb} {fba : FmBytesArray}
    (h : tagA0sLoop u rounds i s fba = .ok (fba', t)) : P i s fba := by
  induction rounds generalizing i s fba with
  | zero =>
    unfold tagA0sLoop at h
    split at h
    · cases h
    · obtain ⟨rfl, rfl⟩ : fba = fba' ∧ s = t := by simpa using h
      exact hstop i (by omega)
  | succ rounds ih =>
    unfold tagA0sLoop at h
    split at h
    · obtain ⟨next, hnext, h⟩ := bind_eq_ok.mp h
      split at h
      · cases h
      · obtain ⟨fba₁, hstore, h⟩ := bind_eq_ok.mp h
        exact hround i s fba next fba₁ ‹_› hnext hstore (ih h)
    · obtain ⟨rfl, rfl⟩ : fba = fba' ∧ s = t := by simpa using h
      exact hstop i (by omega)

/-- The loop moves the cursor only, and returns when nothing is left. -/
theorem tagA0sLoop_same {u : Unspec} {rounds i : ℕ} {s t : Skb} {fba fba' : FmBytesArray}
    (h : tagA0sLoop u rounds i s fba = .ok (fba', t)) : s.Same t ∧ t.len = 0 := by
  refine tagA0sLoop_rec (P := fun _ s _ => s.Same t ∧ t.len = 0)
    (fun _ hlen => ⟨.refl t, hlen⟩) ?_ h
  rintro i s fba next fba₁ - hnext - ⟨hsame, hlen⟩
  exact ⟨(tagA0ToFmBytes_same hnext).trans hsame, hlen⟩

/-- A package received for the first time is decoded to the end and loses its
mark; one received again is passed on as the header leaves it. -/
theorem tsmVmReceive_eq_ok {u : Unspec} {s t : Skb} {fba fba' : Ptr FmBytesArray}
    (h : tsmVmReceive u s fba = .ok (t, fba')) :
    t.index = s.index ∧ t.session = s.session ∧ t.isNew = false ∧
      (s.isNew = true → t.len = 0 ∧ ∃ a, fba' = .obj a) := by
  obtain ⟨s₁, hskip, h⟩ := bind_eq_ok.mp h
  have hsame := skipTagAx_same hskip
  cases hnew : s₁.isNew with
  | true =>
    rw [if_pos hnew] at h
    obtain ⟨⟨a, s₂⟩, hloop, h⟩ := bind_eq_ok.mp h
    obtain ⟨rfl, rfl⟩ : { s₂ with isNew := false } = t ∧ Ptr.obj a = fba' := by simpa using h
    obtain ⟨hdecode, hlen⟩ := tagA0sLoop_same hloop
    exact ⟨hdecode.index_eq.trans hsame.index_eq, hdecode.session_eq.trans hsame.session_eq, rfl,
      fun _ => ⟨hlen, a, rfl⟩⟩
  | false =>
    rw [if_neg (by simp [hnew])] at h
    obtain ⟨rfl, rfl⟩ : s₁ = t ∧ fba = fba' := by simpa using h
    refine ⟨hsame.index_eq, hsame.session_eq, hnew, fun hold => ?_⟩
    rw [hsame.isNew_eq, hold] at hnew
    cases hnew

/-- Without payload there is no header to skip: the pull returns `NULL`. -/
theorem tsmVmReceive_of_len_eq_zero {u : Unspec} {s : Skb} {fba : Ptr FmBytesArray}
    (h : s.len = 0) : tsmVmReceive u s fba = .error .nullDeref := by
  have hpull : skbPull s 1 = (none, s) := by
    unfold skbPull
    rw [if_pos (by omega)]
  unfold tsmVmReceive skipTagAx
  simp only [hpull]
  rfl

end TsmVm
