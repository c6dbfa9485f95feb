import Mathlib.Order.Std
import Mathlib.Tactic.Linarith.Parsing
import QNet.Lib.Memory

/-!
# Tables with ordered keys

A table of a database whose keys are byte strings is a `TreeMap` here, ordered as `memcmp` orders
them. `lastWhere` walks through it from its end with a cursor.
-/

namespace QNet

open Std

/-- The order of byte strings of the same length. -/
abbrev memcmp : Bytes32 → Bytes32 → Ordering := compareOn fun bytes : Bytes32 ↦ List.ofFn bytes

instance : LawfulEqCmp memcmp where
  eq_of_compare h := by
    have hlist : compare (List.ofFn _) (List.ofFn _) = .eq := h
    exact List.ofFn_injective (LawfulEqCmp.eq_of_compare hlist)

namespace Table

variable {κ ν : Type*} {cmp : κ → κ → Ordering}

/-- The first row from the end whose value meets the condition. With a limit the cursor fails after
so many rows. -/
def lastWhere (t : TreeMap κ ν cmp) (p : ν → Bool) (limit : Option ℕ) : Option (κ × ν) :=
  let rows := t.toList.reverse
  (limit.elim rows rows.take).find? fun row ↦ p row.2

variable [TransCmp cmp] [LawfulEqCmp cmp] {t : TreeMap κ ν cmp}

theorem getElem?_insert [DecidableEq κ] (t : TreeMap κ ν cmp) (key other : κ) (value : ν) :
    (t.insert key value)[other]? = if other = key then some value else t[other]? := by
  rw [TreeMap.getElem?_insert]
  exact if_congr (LawfulEqCmp.compare_eq_iff_eq.trans eq_comm) rfl rfl

theorem lastWhere_eq_some {p : ν → Bool} {limit : Option ℕ} {key : κ} {value : ν}
    (h : lastWhere t p limit = some (key, value)) : t[key]? = some value ∧ p value = true := by
  obtain ⟨hp, before, after, hrows, _⟩ := List.find?_eq_some_iff_append.mp h
  have hmem : (key, value) ∈ t.toList.reverse := by
    have hlimited : (key, value) ∈ limit.elim t.toList.reverse t.toList.reverse.take := by
      rw [hrows]
      exact List.mem_append_right _ List.mem_cons_self
    cases limit with
    | none => exact hlimited
    | some n => exact List.mem_of_mem_take hlimited
  exact ⟨TreeMap.mem_toList_iff_getElem?_eq_some.mp (List.mem_reverse.mp hmem), hp⟩

end Table

end QNet
