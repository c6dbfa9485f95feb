import Mathlib.Data.List.Basic
import Mathlib.Data.List.Infix

/-!
# Frames in a stream

A frame tells its length in its first elements. Whoever reads the stream and stops at the end of
each frame gets the frames that were written, whatever the pieces are in which they come.
-/

namespace QNet

structure Framing (μ β : Type*) where
  encode : μ → List β
  /-- The number of elements that have to be there before the length of the frame is known. -/
  header : ℕ
  size : List β → ℕ
  header_le : ∀ m, header ≤ (encode m).length
  header_pos : 0 < header
  size_encode : ∀ m, size (encode m) = (encode m).length
  size_append : ∀ {part : List β} (rest : List β), header ≤ part.length →
    size (part ++ rest) = size part

namespace Framing

variable {μ β : Type*} (F : Framing μ β)

def stream (frames : List μ) : List β := frames.flatMap F.encode

@[simp]
theorem stream_nil : F.stream [] = [] := rfl

@[simp]
theorem stream_append (first second : List μ) :
    F.stream (first ++ second) = F.stream first ++ F.stream second := List.flatMap_append

@[simp]
theorem stream_singleton (frame : μ) : F.stream [frame] = F.encode frame :=
  List.flatMap_singleton _ _

variable {F} {frames : List μ} {part : List β}

/-- The header of what has come is that of the first frame. -/
theorem exists_first (hpart : part <+: F.stream frames) (hheader : F.header ≤ part.length) :
    ∃ frame rest, frames = frame :: rest ∧ F.size part = (F.encode frame).length := by
  cases frames with
  | nil =>
    rw [stream_nil, List.prefix_nil] at hpart
    rw [hpart] at hheader
    exact absurd (F.header_pos.trans_le hheader) (Nat.lt_irrefl 0)
  | cons frame rest =>
    refine ⟨frame, rest, rfl, ?_⟩
    obtain ⟨more, hmore⟩ := hpart
    calc
      F.size part = F.size (part ++ more) := (F.size_append more hheader).symm
      _ = F.size (F.encode frame ++ F.stream rest) := by rw [hmore]; rfl
      _ = F.size (F.encode frame) := F.size_append _ (F.header_le frame)
      _ = (F.encode frame).length := F.size_encode frame

/-- What has come is a whole frame as soon as it has the length that it tells. -/
theorem eq_encode_of_whole (hpart : part <+: F.stream frames) (hheader : F.header ≤ part.length)
    (hwhole : F.size part = part.length) :
    ∃ frame rest, frames = frame :: rest ∧ part = F.encode frame := by
  obtain ⟨frame, rest, rfl, hsize⟩ := exists_first hpart hheader
  refine ⟨frame, rest, rfl, ?_⟩
  obtain ⟨more, hmore⟩ := hpart
  exact (List.append_inj hmore (hwhole.symm.trans hsize)).1

end Framing

end QNet
