import Mathlib.Data.Nat.Basic
import Mathlib.Tactic.Common

/-!
# Two indices in a ring

A ring of `n` places with an index for writing and an index for reading, both of which go on place
by place and start again behind the last one. `Lead` says that the writing index is a number of
places ahead, less than once around; then the indices are equal if and only if this number is zero.
Once around the indices are equal as well, so a ring that tells full from empty by its indices has
to stop one place before.
-/

namespace QNet.RingIndex

variable {n read write lead : ℕ}

/-- The place behind place `i`. -/
def nextPlace (n i : ℕ) : ℕ := if i = n - 1 then 0 else i + 1

/-- The writing index is `lead` places ahead of the reading index. -/
structure Lead (n read write lead : ℕ) : Prop where
  read_lt : read < n
  lead_lt : lead < n
  write_eq : write = (read + lead) % n

theorem nextPlace_eq {i : ℕ} (hi : i < n) : nextPlace n i = (i + 1) % n := by
  unfold nextPlace
  split
  · rename_i hlast
    rw [hlast, Nat.sub_add_cancel (by omega), Nat.mod_self]
  · rw [Nat.mod_eq_of_lt (by omega)]

theorem nextPlace_lt {i : ℕ} (hi : i < n) : nextPlace n i < n := by
  rw [nextPlace_eq hi]
  exact Nat.mod_lt _ (by omega)

theorem nextPlace_ne {i : ℕ} (hn : 2 ≤ n) : nextPlace n i ≠ i := by
  unfold nextPlace
  split <;> omega

namespace Lead

theorem start (hn : 0 < n) : Lead n 0 0 0 := ⟨hn, hn, (Nat.zero_mod n).symm⟩

theorem write_lt (h : Lead n read write lead) : write < n := by
  rw [h.write_eq]
  exact Nat.mod_lt _ (Nat.zero_lt_of_lt h.read_lt)

/-- The indices tell an empty ring from one that is not. -/
theorem eq_iff (h : Lead n read write lead) : read = write ↔ lead = 0 := by
  obtain ⟨hread, hlead, rfl⟩ := h
  rcases Nat.lt_or_ge (read + lead) n with hlt | hge
  · rw [Nat.mod_eq_of_lt hlt]
    omega
  · rw [Nat.mod_eq_sub_mod hge, Nat.mod_eq_of_lt (by omega)]
    omega

theorem next_write_eq (h : Lead n read write lead) :
    nextPlace n write = (read + (lead + 1)) % n := by
  rw [nextPlace_eq h.write_lt, h.write_eq, Nat.mod_add_mod, Nat.add_assoc]

theorem next_write (h : Lead n read write lead) (hlead : lead + 1 < n) :
    Lead n read (nextPlace n write) (lead + 1) := ⟨h.read_lt, hlead, h.next_write_eq⟩

/-- The last free place brings the writing index to the reading index. -/
theorem next_write_of_last (h : Lead n read write lead) (hlead : lead + 1 = n) :
    nextPlace n write = read := by
  rw [h.next_write_eq, hlead, Nat.add_mod_right, Nat.mod_eq_of_lt h.read_lt]

theorem next_read (h : Lead n read write (lead + 1)) : Lead n (nextPlace n read) write lead where
  read_lt := nextPlace_lt h.read_lt
  lead_lt := Nat.lt_of_succ_lt h.lead_lt
  write_eq := by
    rw [nextPlace_eq h.read_lt, Nat.mod_add_mod, h.write_eq, Nat.add_assoc, Nat.add_comm 1 lead]

end Lead

end QNet.RingIndex
