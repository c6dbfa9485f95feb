import Mathlib.Data.List.Nodup
import Mathlib.Logic.Function.Basic

/-!
# Linked lists that end

Every element carries the link to the one behind it and the link of the last element is null. A
list is given by its first pointer; nothing is said about the links of other elements.
-/

namespace QNet

variable {α : Type*} {next next' : α → Option α} {first : Option α} {l : List α} {new last : α}

/-- From `first` the links lead through `l` and end there. -/
def Linked (next : α → Option α) : Option α → List α → Prop
  | first, [] => first = none
  | first, a :: rest => first = some a ∧ Linked next (next a) rest

/-- The pointer after `n` links; it stays null once it is. -/
def afterLinks (next : α → Option α) : ℕ → Option α → Option α
  | 0, p => p
  | n + 1, p => afterLinks next n (p.bind next)

theorem afterLinks_none (next : α → Option α) (n : ℕ) : afterLinks next n none = none := by
  induction n with
  | zero => rfl
  | succ n ih => exact ih

namespace Linked

theorem congr (h : Linked next first l) (heq : ∀ a ∈ l, next' a = next a) :
    Linked next' first l := by
  induction l generalizing first with
  | nil => exact h
  | cons a rest ih =>
    have hrest := ih h.2 fun b hb ↦ heq b (List.mem_cons_of_mem _ hb)
    exact ⟨h.1, (heq a List.mem_cons_self).symm ▸ hrest⟩

theorem afterLinks_eq (h : Linked next first l) (n : ℕ) : afterLinks next n first = l[n]? := by
  induction l generalizing first n with
  | nil =>
    rw [show first = none from h, afterLinks_none, List.getElem?_nil]
  | cons a rest ih =>
    cases n with
    | zero => exact h.1
    | succ n =>
      calc
        afterLinks next (n + 1) first = afterLinks next n (first.bind next) := rfl
        _ = afterLinks next n (next a) := by rw [h.1, Option.bind_some]
        _ = rest[n]? := ih h.2 n
        _ = (a :: rest)[n + 1]? := List.getElem?_cons_succ.symm

/-- There is exactly one number of links after which the last element is reached. -/
theorem afterLinks_eq_last_iff (h : Linked next first l) (hnodup : l.Nodup)
    (hlast : l.getLast? = some last) (n : ℕ) :
    afterLinks next n first = some last ↔ n + 1 = l.length := by
  have hne : l ≠ [] := by
    intro hnil
    rw [hnil] at hlast
    cases hlast
  have hpos : 0 < l.length := List.length_pos_iff.mpr hne
  have hend : l.length - 1 < l.length := Nat.sub_one_lt_of_lt hpos
  rw [List.getLast?_eq_getElem?] at hlast
  rw [h.afterLinks_eq, ← hlast, eq_comm, List.getElem?_inj hend hnodup]
  omega

/-- Another element behind the last one, which gets a null link. -/
theorem concat [DecidableEq α] (h : Linked next first l) (hnodup : l.Nodup)
    (hlast : l.getLast? = some last) (hnew : new ∉ l) :
    Linked (Function.update (Function.update next new none) last (some new)) first
      (l ++ [new]) := by
  induction l generalizing first with
  | nil => cases hlast
  | cons a rest ih =>
    have hneNew : a ≠ new := fun heq ↦ hnew (heq ▸ List.mem_cons_self)
    refine ⟨h.1, ?_⟩
    cases rest with
    | nil =>
      obtain rfl : a = last := Option.some.inj hlast
      rw [Function.update_self]
      refine ⟨rfl, ?_⟩
      rw [Function.update_of_ne hneNew.symm]
      exact Function.update_self _ _ _
    | cons b rest =>
      have hlastRest : (b :: rest).getLast? = some last := hlast
      have hneLast : a ≠ last := by
        intro heq
        have hmem := List.mem_of_getLast? hlastRest
        exact (List.nodup_cons.mp hnodup).1 (heq ▸ hmem)
      rw [Function.update_of_ne hneLast, Function.update_of_ne hneNew]
      apply ih h.2 (List.nodup_cons.mp hnodup).2 hlastRest
      exact fun hmem ↦ hnew (List.mem_cons_of_mem _ hmem)

end Linked

end QNet
