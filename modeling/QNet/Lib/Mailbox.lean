import Mathlib.Data.List.Basic
import Mathlib.Tactic.Common

/-!
# Mailboxes for one item

A mailbox holds at most one item on its way from a source to a sink. What was put in and what was
delivered are kept as a history. Nothing is lost, doubled or out of order if and only if what was
put in is what was delivered, followed by what is still there. That is kept by a delivery, and by
the other operations only when the mailbox is empty.
-/

namespace QNet

structure Mailbox (α : Type*) where
  put : List α
  delivered : List α
  slot : Option α

namespace Mailbox

variable {α : Type*} {m : Mailbox α}

/-- What was put in was delivered or is still there. -/
def Kept (m : Mailbox α) : Prop := m.put = m.delivered ++ m.slot.toList

instance [DecidableEq α] (m : Mailbox α) : Decidable m.Kept :=
  inferInstanceAs (Decidable (m.put = m.delivered ++ m.slot.toList))

/-- The next item, or none at all, takes the place of what is there. -/
def replace (m : Mailbox α) (item : Option α) : Mailbox α :=
  { m with put := m.put ++ item.toList, slot := item }

def deliver (m : Mailbox α) : Mailbox α :=
  { m with delivered := m.delivered ++ m.slot.toList, slot := none }

/-- The mailbox is emptied without a delivery. -/
def drop (m : Mailbox α) : Mailbox α := { m with slot := none }

theorem kept_iff_of_eq {items : List α} (h : m.Kept) :
    m.put ++ items = m.delivered ++ items ↔ m.slot = none := by
  unfold Kept at h
  rw [List.append_left_inj, h, List.append_right_eq_self, Option.toList_eq_nil_iff]

theorem Kept.replace_iff (h : m.Kept) (item : Option α) : (m.replace item).Kept ↔ m.slot = none :=
  kept_iff_of_eq h

theorem Kept.deliver (h : m.Kept) : m.deliver.Kept := by
  unfold Kept at h ⊢
  simpa [Mailbox.deliver] using h

theorem Kept.drop_iff (h : m.Kept) : m.drop.Kept ↔ m.slot = none := by
  have hdrop : m.put ++ [] = m.delivered ++ [] ↔ m.slot = none := kept_iff_of_eq h
  rw [Kept, drop, Option.toList_none, List.append_nil]
  rwa [List.append_nil, List.append_nil] at hdrop

end Mailbox

end QNet
