import Mathlib.Data.List.Basic
import Mathlib.Data.List.Infix

/-!
# Histories that are cut into epochs

Some of the elements of a list are the last ones of their epoch. The elements of epoch `n` are those
behind the `n`-th such element. A history grows at its end, and it grows in its last epoch.
-/

namespace QNet

variable {α : Type*} (last : α → Bool)

namespace Epochs

/-- The number of the epochs that have ended. -/
def ended (l : List α) : ℕ := l.countP last

/-- The elements of epoch `n`. -/
def epoch : ℕ → List α → List α
  | _, [] => []
  | 0, e :: l => if last e then [e] else e :: epoch 0 l
  | n + 1, e :: l => if last e then epoch n l else epoch (n + 1) l

variable {last} {n : ℕ} {l l' : List α} {e : α}

@[simp]
theorem ended_nil : ended last [] = 0 := rfl

theorem ended_append (e : α) : ended last (l ++ [e]) = ended last l + if last e then 1 else 0 := by
  cases h : last e <;> simp [ended, h]

theorem ended_le_of_isPrefix (h : l <+: l') : ended last l ≤ ended last l' :=
  h.sublist.countP_le

@[simp]
theorem epoch_nil (n : ℕ) : epoch last n [] = [] := by
  cases n <;> rfl

/-- What is added belongs to the epoch that has not ended. -/
theorem epoch_append (n : ℕ) (l : List α) (e : α) :
    epoch last n (l ++ [e]) = epoch last n l ++ if ended last l = n then [e] else [] := by
  induction l generalizing n with
  | nil => cases n <;> simp [epoch, ended]
  | cons a l ih =>
    cases n with
    | zero =>
      cases h : last a
      · have hended : ended last (a :: l) = ended last l := by simp [ended, h]
        rw [List.cons_append, epoch, if_neg (by simp [h]), ih 0, hended]
        simp [epoch, h]
      · have hended : ended last (a :: l) ≠ 0 := by simp [ended, h]
        rw [List.cons_append, epoch, if_pos h, if_neg hended, epoch, if_pos h, List.append_nil]
    | succ n =>
      cases h : last a
      · have hended : ended last (a :: l) = ended last l := by simp [ended, h]
        rw [List.cons_append, epoch, if_neg (by simp [h]), ih (n + 1), hended]
        simp [epoch, h]
      · have hended : ended last (a :: l) = ended last l + 1 := by simp [ended, h]
        rw [List.cons_append, epoch, if_pos h, ih n, hended]
        simp [epoch, h]

theorem isPrefix_epoch (n : ℕ) (h : l <+: l') : epoch last n l <+: epoch last n l' := by
  obtain ⟨rest, rfl⟩ := h
  induction rest using List.reverseRecOn with
  | nil => rw [List.append_nil]
  | append_singleton rest e ih =>
    rw [← List.append_assoc, epoch_append]
    exact ih.trans (List.prefix_append _ _)

/-- The element that comes next in a longer history is of the epoch that has not ended. -/
theorem epoch_ne_nil (h : l ++ [e] <+: l') : epoch last (ended last l) l' ≠ [] := by
  have hisPrefix : epoch last (ended last l) (l ++ [e]) <+: epoch last (ended last l) l' :=
    isPrefix_epoch (ended last l) h
  rw [epoch_append, if_pos rfl] at hisPrefix
  intro hnil
  rw [hnil, List.prefix_nil] at hisPrefix
  exact List.append_ne_nil_of_right_ne_nil _ (List.cons_ne_nil _ _) hisPrefix

end Epochs

end QNet
