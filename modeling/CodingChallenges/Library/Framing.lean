import Mathlib.Data.List.Infix

/-!
# Streams of Frames

A stream that is made of frames, and a receiver that gets it in pieces.

Wherever such a stream is cut, in front of the cut there are whole frames and
then nothing or the beginning of the next one. A receiver that keeps that
beginning and delivers the frames in front of it therefore delivers the same
frames however the stream is cut into pieces: one lemma about a single piece
(`hstep` below) gives the result for all of them.

## Main definitions

* `Begins`: A part of a frame that is neither empty nor the whole.
* `Pending`: What a receiver of frames has to keep.

## Theorems

* `cut_append`: Cutting a frame that has two parts.
* `exists_cut`: Cutting a stream.
* `foldl_delivers`: What is delivered does not depend on the cuts.
-/

namespace CodingChallenges

namespace Framing

variable {α β : Type}

/-- The part is at the front of the frame, and is neither empty nor all of it. -/
def Begins (part frame : List α) : Prop :=
  part ≠ [] ∧ part <+: frame ∧ part.length < frame.length

/-- A cut is in the first part of a frame or behind it. -/
theorem cut_append {part front back : List α} (h : part <+: front ++ back) :
    (part <+: front ∧ part.length < front.length) ∨
      ∃ more, part = front ++ more ∧ more <+: back := by
  by_cases hlt : part.length < front.length
  · exact Or.inl
      ⟨List.prefix_of_prefix_length_le h (List.prefix_append _ _) (Nat.le_of_lt hlt), hlt⟩
  · right
    rcases List.prefix_of_prefix_length_le (List.prefix_append _ _) h (Nat.le_of_not_lt hlt)
      with ⟨more, rfl⟩
    exact ⟨more, rfl, (List.prefix_append_right_inj front).mp h⟩

/-- What has come of the frames of these values, apart from whole frames. -/
def Pending (encode : β → List α) (part : List α) (values : List β) : Prop :=
  part = [] ∨ ∃ v others, values = v :: others ∧ Begins part (encode v)

/-- In front of a cut there are whole frames, and nothing or the beginning of the
    next one. -/
theorem exists_cut (encode : β → List α) (values : List β) :
    ∀ part, part <+: values.flatMap encode →
      ∃ front back more, values = front ++ back ∧ part = front.flatMap encode ++ more ∧
        Pending encode more back := by
  induction values with
  | nil =>
      intro part h
      rw [List.flatMap_nil, List.prefix_nil] at h
      exact ⟨[], [], [], rfl, h, Or.inl rfl⟩
  | cons v values ih =>
      intro part h
      rw [List.flatMap_cons] at h
      rcases cut_append h with ⟨hpart, hlt⟩ | ⟨more, rfl, hmore⟩
      · -- The cut is in the first frame, or in front of it.
        by_cases hnil : part = []
        · exact ⟨[], v :: values, [], rfl, hnil, Or.inl rfl⟩
        · exact ⟨[], v :: values, part, rfl, rfl, Or.inr ⟨v, values, rfl, hnil, hpart, hlt⟩⟩
      · -- The first frame is whole, and the cut is behind it.
        rcases ih more hmore with ⟨front, back, rest, rfl, rfl, hpending⟩
        refine ⟨v :: front, back, rest, rfl, ?_, hpending⟩
        rw [List.flatMap_cons, List.append_assoc]

section Receiver

variable {σ : Type} (encode : β → List α) (feed : σ → List α → σ) (Good : σ → Prop)
  (Piece : List α → Prop) (Frame : β → Prop) (pending : σ → List α) (delivered : σ → List β)

/-- A receiver that delivers the whole frames of what it has got, and keeps the
    rest, delivers all values of a stream whatever pieces it comes in. -/
theorem foldl_delivers (hne : ∀ v, encode v ≠ [])
    (hstep : ∀ s piece front back more, Good s → Piece piece → (∀ v ∈ front ++ back, Frame v) →
      Pending encode (pending s) (front ++ back) → Pending encode more back →
      pending s ++ piece = front.flatMap encode ++ more →
      Good (feed s piece) ∧ delivered (feed s piece) = delivered s ++ front ∧
        pending (feed s piece) = more)
    (pieces : List (List α)) :
    ∀ (s : σ) (values : List β), Good s → (∀ piece ∈ pieces, Piece piece) →
      (∀ v ∈ values, Frame v) → Pending encode (pending s) values →
      pending s ++ pieces.flatten = values.flatMap encode →
      Good (pieces.foldl feed s) ∧ delivered (pieces.foldl feed s) = delivered s ++ values ∧
        pending (pieces.foldl feed s) = [] := by
  induction pieces with
  | nil =>
      intro s values hgood _ _ hpending hstream
      rw [List.flatten_nil, List.append_nil] at hstream
      rcases hpending with hnil | ⟨v, others, rfl, -, -, hlt⟩
      · -- Nothing is pending and nothing comes, so there are no values left.
        rw [hnil] at hstream
        rcases values with _ | ⟨v, others⟩
        · exact ⟨hgood, (List.append_nil _).symm, hnil⟩
        · rw [List.flatMap_cons] at hstream
          exact absurd (List.append_eq_nil_iff.mp hstream.symm).1 (hne v)
      · -- The beginning of a frame is not a whole stream.
        have hlen := congrArg List.length hstream
        rw [List.flatMap_cons, List.length_append] at hlen
        omega
  | cons piece pieces ih =>
      intro s values hgood hpieces hframes hpending hstream
      rcases List.forall_mem_cons.mp hpieces with ⟨hpiece, hothers⟩
      rw [List.flatten_cons, ← List.append_assoc] at hstream
      have hpart : pending s ++ piece <+: values.flatMap encode := ⟨_, hstream⟩
      -- What has come so far is cut behind its last whole frame.
      rcases exists_cut encode values _ hpart with ⟨front, back, more, rfl, hcut, hmore⟩
      rcases hstep s piece front back more hgood hpiece hframes hpending hmore hcut
        with ⟨hgood', hdelivered, hpending'⟩
      rw [hcut, List.flatMap_append, List.append_assoc, List.append_cancel_left_eq,
        ← hpending'] at hstream
      rw [← hpending'] at hmore
      rw [List.foldl_cons]
      -- The receiver goes on with the values that are not delivered yet.
      rcases ih (feed s piece) back hgood' hothers
        (fun v hv => hframes v (List.mem_append_right _ hv)) hmore hstream
        with ⟨hgoodEnd, hdeliveredEnd, hpendingEnd⟩
      refine ⟨hgoodEnd, ?_, hpendingEnd⟩
      rw [hdeliveredEnd, hdelivered, List.append_assoc]

end Receiver

end Framing

end CodingChallenges
