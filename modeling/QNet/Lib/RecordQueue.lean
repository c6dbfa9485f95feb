import Mathlib.Data.List.Basic
import Mathlib.Data.List.Nodup

/-!
# Queues of numbered records

A database table that is both a queue and a table: a record gets a number when it is appended and
can be deleted by this number, and the oldest record can be consumed. Which number a new record
gets is up to the database; no two records that are in the queue have the same one, which is a
field here.
-/

namespace QNet

variable {ρ α : Type*}

structure RecordQueue (ρ α : Type*) where
  entries : List (ρ × α)
  nodup : (entries.map Prod.fst).Nodup

namespace RecordQueue

@[ext]
theorem ext {q q' : RecordQueue ρ α} (h : q.entries = q'.entries) : q = q' := by
  cases q; cases q'; cases h; rfl

def empty : RecordQueue ρ α := ⟨[], List.nodup_nil⟩

/-- Take the oldest record. -/
def consume (q : RecordQueue ρ α) : Option ((ρ × α) × RecordQueue ρ α) :=
  match h : q.entries with
  | [] => none
  | entry :: rest =>
      some (entry, {
        entries := rest
        nodup := by
          have hnodup := q.nodup
          rw [h, List.map_cons, List.nodup_cons] at hnodup
          exact hnodup.2 })

theorem consume_eq_some_iff {q q' : RecordQueue ρ α} {entry : ρ × α} :
    q.consume = some (entry, q') ↔ q.entries = entry :: q'.entries := by
  unfold consume
  constructor
  · intro h
    split at h
    · cases h
    · rename_i hentries
      cases h
      exact hentries
  · intro hentries
    split
    · rename_i hnil
      rw [hentries] at hnil
      cases hnil
    · rename_i hcons
      rw [hentries] at hcons
      cases hcons
      rfl

theorem consume_eq_none_iff {q : RecordQueue ρ α} : q.consume = none ↔ q.entries = [] := by
  unfold consume
  split <;> simp_all

section Numbers

variable [DecidableEq ρ]

/-- Append a record under a number that is not in use. -/
def append (q : RecordQueue ρ α) (recno : ρ) (item : α) : Option (RecordQueue ρ α) :=
  if h : recno ∈ q.entries.map Prod.fst then none
  else
    some
      { entries := q.entries ++ [(recno, item)]
        nodup := by
          rw [List.map_append, List.map_singleton, ← List.concat_eq_append]
          exact q.nodup.concat h }

/-- Delete the record with this number. -/
def delete (q : RecordQueue ρ α) (recno : ρ) : Option (RecordQueue ρ α) :=
  if recno ∈ q.entries.map Prod.fst then
    some
      { entries := q.entries.filter (·.1 ≠ recno)
        nodup := q.nodup.sublist (List.filter_sublist.map Prod.fst) }
  else none

theorem append_eq_some_iff {q q' : RecordQueue ρ α} {recno : ρ} {item : α} :
    q.append recno item = some q' ↔
      (∀ other, (recno, other) ∉ q.entries) ∧ q'.entries = q.entries ++ [(recno, item)] := by
  have hfree : recno ∈ q.entries.map Prod.fst ↔ ∃ other, (recno, other) ∈ q.entries := by
    simp
  unfold append
  constructor
  · intro h
    split_ifs at h with hused
    cases h
    exact ⟨not_exists.mp fun hother ↦ hused (hfree.mpr hother), rfl⟩
  · rintro ⟨hunused, hentries⟩
    rw [dif_neg fun hused ↦ (hfree.mp hused).elim hunused]
    exact congrArg some (ext hentries.symm)

theorem delete_eq_some_iff {q q' : RecordQueue ρ α} {recno : ρ} :
    q.delete recno = some q' ↔
      (∃ item, (recno, item) ∈ q.entries) ∧ q'.entries = q.entries.filter (·.1 ≠ recno) := by
  have hfound : recno ∈ q.entries.map Prod.fst ↔ ∃ item, (recno, item) ∈ q.entries := by
    simp
  unfold delete
  rw [← hfound]
  constructor
  · intro h
    split_ifs at h with hmem
    cases h
    exact ⟨hmem, rfl⟩
  · rintro ⟨hmem, hentries⟩
    rw [if_pos hmem]
    exact congrArg some (ext hentries.symm)

end Numbers

end RecordQueue

end QNet
