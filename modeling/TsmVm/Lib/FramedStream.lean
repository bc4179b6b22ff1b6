import Mathlib.Data.List.Basic

/-!
# Streams of frames sent piece by piece

Frames are sent one after another, and of each a prefix gets into the stream:
all of it, nothing, or a part. The stream can be cut into frames again wherever
no part is followed by anything; this is a statement about pairs of frames, and
from it follows what every prefix of the stream looks like.
-/

namespace FramedStream

variable {α : Type*}

/-- A frame, and what of it has got into the stream. -/
structure Piece (α : Type*) where
  /-- The frame. -/
  frame : List α
  /-- What was sent. -/
  sent : List α
  /-- It was sent from the start. -/
  sent_prefix : sent <+: frame

/-- Something was sent, but not all. -/
def Piece.IsCut (p : Piece α) : Prop := p.sent ≠ [] ∧ p.sent ≠ p.frame

/-- The stream some pieces make. -/
def stream (ps : List (Piece α)) : List α := ps.flatMap Piece.sent

/-- The stream is a concatenation of whole frames, in their order. -/
def Whole (ps : List (Piece α)) : Prop :=
  ∃ fs : List (List α), fs.Sublist (ps.map Piece.frame) ∧ stream ps = fs.flatten

/-- Nothing follows a piece that was cut off. -/
def CutIsLast (ps : List (Piece α)) : Prop := ps.Pairwise fun p q => p.IsCut → q.sent = []

/-- Nothing follows a piece that was cut off, and up to every point the stream is
a concatenation of whole frames, or complete. -/
def StaysFramed (ps : List (Piece α)) : Prop :=
  CutIsLast ps ∧ ∀ qs rs, ps = qs ++ rs → Whole qs ∨ stream rs = []

theorem stream_cons (p : Piece α) (ps : List (Piece α)) : stream (p :: ps) = p.sent ++ stream ps :=
  List.flatMap_cons

/-- A stream without bytes. -/
theorem stream_eq_nil {ps : List (Piece α)} (h : ∀ p ∈ ps, p.sent = []) : stream ps = [] :=
  List.flatMap_eq_nil_iff.mpr h

/-- A piece that was not cut off, in front of whole frames. -/
theorem Whole.cons {p : Piece α} {ps : List (Piece α)} (hp : ¬ p.IsCut) (h : Whole ps) :
    Whole (p :: ps) := by
  obtain ⟨fs, hsub, hstream⟩ := h
  by_cases hsent : p.sent = []
  · refine ⟨fs, hsub.trans (List.sublist_cons_self ..), ?_⟩
    rw [stream_cons, hsent, hstream, List.nil_append]
  · have hwhole : p.sent = p.frame := by
      by_contra hne
      exact hp ⟨hsent, hne⟩
    refine ⟨p.frame :: fs, hsub.cons_cons p.frame, ?_⟩
    rw [stream_cons, hwhole, hstream, List.flatten_cons]

/-- Where nothing follows what was cut off, every prefix is in order. -/
theorem CutIsLast.whole_or_end {ps qs : List (Piece α)} (h : CutIsLast (ps ++ qs)) :
    Whole ps ∨ stream qs = [] := by
  induction ps with
  | nil => exact .inl ⟨[], List.Sublist.slnil, rfl⟩
  | cons p ps ih =>
    obtain ⟨hp, hrest⟩ := List.pairwise_cons.mp h
    by_cases hcut : p.IsCut
    · exact .inr (stream_eq_nil fun q hq => hp q (List.mem_append_right ps hq) hcut)
    · rcases ih hrest with hwhole | hend
      · exact .inl (hwhole.cons hcut)
      · exact .inr hend

/-- The pairs decide. -/
theorem staysFramed_iff {ps : List (Piece α)} : StaysFramed ps ↔ CutIsLast ps := by
  refine ⟨And.left, fun h => ⟨h, ?_⟩⟩
  rintro qs rs rfl
  exact h.whole_or_end

end FramedStream
