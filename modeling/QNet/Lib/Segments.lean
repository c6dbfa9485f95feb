import Mathlib.Data.List.Basic
import Mathlib.Data.List.Flatten
import Mathlib.Tactic.Common

/-!
# Streams in segments

A stream arrives in segments of any lengths. One `read` gives what there is of the first segment,
so that it may give less than was asked for; `readExactly` goes on until it has everything. How the
stream was cut does not matter for `readExactly`, as long as there is enough of it.
-/

namespace QNet

/-- What has arrived and was not read yet. -/
structure Segments (α : Type*) where
  pieces : List (List α)
  ne_nil : ∀ piece ∈ pieces, piece ≠ []

namespace Segments

variable {α : Type*}

def stream (s : Segments α) : List α := s.pieces.flatten

/-- At most `n` elements from the first segment; nothing at the end of the stream. -/
def read (n : ℕ) : Segments α → List α × Segments α
  | ⟨[], h⟩ => ([], ⟨[], h⟩)
  | ⟨piece :: rest, h⟩ =>
      (piece.take n,
        if hn : n < piece.length then
          ⟨piece.drop n :: rest, by
            intro other hother
            rcases List.mem_cons.mp hother with rfl | hother
            · rw [Ne, List.drop_eq_nil_iff]
              exact Nat.not_le.mpr hn
            · exact h other (List.mem_cons_of_mem piece hother)⟩
        else ⟨rest, fun other hother ↦ h other (List.mem_cons_of_mem piece hother)⟩)

/-- Read until nothing is `left` to be read. `none` at the end of the stream, or when `fuel` is too
small. -/
def readLoop : ℕ → ℕ → Segments α → Option (List α × Segments α)
  | _, 0, s => some ([], s)
  | 0, _ + 1, _ => none
  | fuel + 1, left + 1, s =>
      let (got, s) := s.read (left + 1)
      if got.isEmpty then none
      else (readLoop fuel (left + 1 - got.length) s).map fun more ↦ (got ++ more.1, more.2)

/-- Every read gives at least one element, so that `n` reads are enough. -/
def readExactly (n : ℕ) (s : Segments α) : Option (List α × Segments α) := readLoop n n s

variable {s : Segments α}

/-- A read takes a part of the stream from its beginning. -/
theorem read_append (n : ℕ) (s : Segments α) : (s.read n).1 ++ (s.read n).2.stream = s.stream := by
  rcases s with ⟨_ | ⟨piece, rest⟩, h⟩
  · rfl
  · unfold read stream
    dsimp only
    split_ifs with hn
    · rw [List.flatten_cons, ← List.append_assoc, List.take_append_drop, List.flatten_cons]
    · rw [List.take_of_length_le (Nat.not_lt.mp hn), List.flatten_cons]

theorem length_read_le (n : ℕ) (s : Segments α) : (s.read n).1.length ≤ n := by
  rcases s with ⟨_ | ⟨piece, rest⟩, h⟩
  · exact Nat.zero_le n
  · exact List.length_take_le n piece

theorem read_ne_nil {n : ℕ} (hn : 0 < n) (h : s.stream ≠ []) : (s.read n).1 ≠ [] := by
  rcases s with ⟨_ | ⟨piece, rest⟩, hpieces⟩
  · exact absurd rfl h
  · intro hnil
    rcases List.take_eq_nil_iff.mp hnil with hzero | hpiece
    · omega
    · exact hpieces piece List.mem_cons_self hpiece

theorem readLoop_append {fuel left : ℕ} {bytes rest : List α} (hfuel : left ≤ fuel)
    (hstream : s.stream = bytes ++ rest) (hlength : bytes.length = left) :
    ∃ s', readLoop fuel left s = some (bytes, s') ∧ s'.stream = rest := by
  induction fuel generalizing left s bytes with
  | zero =>
    rw [Nat.le_zero.mp hfuel] at hlength ⊢
    rw [List.length_eq_zero_iff.mp hlength] at hstream ⊢
    exact ⟨s, rfl, hstream⟩
  | succ fuel ih =>
    cases left with
    | zero =>
      rw [List.length_eq_zero_iff.mp hlength] at hstream ⊢
      exact ⟨s, rfl, hstream⟩
    | succ left =>
      have hne : s.stream ≠ [] := by
        rw [hstream]
        intro hnil
        rw [(List.append_eq_nil_iff.mp hnil).1] at hlength
        cases hlength
      have hgot := read_ne_nil (Nat.succ_pos left) hne
      have happend := read_append (left + 1) s
      have hle := length_read_le (left + 1) s
      have hpos := List.length_pos_iff.mpr hgot
      rw [readLoop]
      generalize s.read (left + 1) = next at hgot happend hle hpos
      -- What was read is the beginning of the bytes.
      obtain ⟨more, rfl⟩ : next.1 <+: bytes :=
        List.prefix_of_prefix_length_le ⟨_, happend.trans hstream⟩ (List.prefix_append _ _)
          (by omega)
      rw [List.length_append] at hlength
      rw [List.append_assoc] at hstream
      have hnext := List.append_cancel_left (happend.trans hstream)
      have hmore : more.length = left + 1 - next.1.length := by omega
      obtain ⟨s', hs', hrest⟩ := ih (by omega) hnext hmore
      refine ⟨s', ?_, hrest⟩
      dsimp only
      rw [if_neg (mt List.isEmpty_iff.mp hgot), hs', Option.map_some]

/-- The next elements of the stream are read, however it was cut. -/
theorem readExactly_append {n : ℕ} {bytes rest : List α} (hstream : s.stream = bytes ++ rest)
    (hlength : bytes.length = n) : ∃ s', readExactly n s = some (bytes, s') ∧ s'.stream = rest :=
  readLoop_append (Nat.le_refl n) hstream hlength

end Segments

end QNet
