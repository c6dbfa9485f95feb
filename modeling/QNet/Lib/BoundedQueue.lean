import Mathlib.Data.List.Basic

/-!
# Bounded queues

A first-in first-out queue that never holds more than `limit` items. A refused `enqueue` leaves
the queue as it was; the bound is a field, so an overfull queue cannot be built.
-/

namespace QNet

variable {α β : Type*}

structure BoundedQueue (α : Type*) where
  limit : ℕ
  items : List α
  length_le : items.length ≤ limit

namespace BoundedQueue

def empty (limit : ℕ) : BoundedQueue α := ⟨limit, [], Nat.zero_le _⟩

/-- Append an item unless the queue is full. -/
def enqueue (q : BoundedQueue α) (item : α) : BoundedQueue α :=
  if h : q.items.length < q.limit then
    { q with items := q.items ++ [item], length_le := by rw [List.length_append]; exact h }
  else q

/-- Take the oldest item. -/
def dequeue (q : BoundedQueue α) : Option (α × BoundedQueue α) :=
  match h : q.items with
  | [] => none
  | item :: rest =>
      some (item, { q with
        items := rest
        length_le := by
          have := q.length_le
          rw [h, List.length_cons] at this
          exact Nat.le_of_succ_le this })

@[ext]
theorem ext {q q' : BoundedQueue α} (hlimit : q.limit = q'.limit) (hitems : q.items = q'.items) :
    q = q' := by
  cases q; cases q'; cases hlimit; cases hitems; rfl

@[simp]
theorem limit_enqueue (q : BoundedQueue α) (item : α) : (q.enqueue item).limit = q.limit := by
  unfold enqueue; split <;> rfl

theorem items_enqueue (q : BoundedQueue α) (item : α) :
    (q.enqueue item).items = if q.items.length < q.limit then q.items ++ [item] else q.items := by
  unfold enqueue; split <;> simp_all

theorem items_enqueue_of_isEmpty {q : BoundedQueue α} {item : α} (hitems : q.items = [])
    (hlimit : 0 < q.limit) : (q.enqueue item).items = [item] := by
  rw [items_enqueue, hitems]
  simp [hlimit]

/-- Whatever stands in the queue after an `enqueue` stood there before or is the new item. -/
theorem mem_items_enqueue {q : BoundedQueue α} {item other : α}
    (h : other ∈ (q.enqueue item).items) : other ∈ q.items ∨ other = item := by
  rw [items_enqueue] at h
  split at h
  · simpa using h
  · exact .inl h

theorem dequeue_eq_none_iff {q : BoundedQueue α} : q.dequeue = none ↔ q.items = [] := by
  unfold dequeue
  split <;> simp_all

/-- `dequeue` takes the head of the list and keeps the limit. -/
theorem dequeue_eq_some_iff {q q' : BoundedQueue α} {item : α} :
    q.dequeue = some (item, q') ↔ q.items = item :: q'.items ∧ q'.limit = q.limit := by
  unfold dequeue
  constructor
  · intro h
    split at h
    · cases h
    · rename_i hitems
      cases h
      exact ⟨hitems, rfl⟩
  · rintro ⟨hitems, hlimit⟩
    split
    · simp_all
    · rename_i hcons
      rw [hitems] at hcons
      cases hcons
      congr 2
      exact ext hlimit.symm rfl

theorem exists_dequeue {q : BoundedQueue α} {item : α} {rest : List α}
    (h : q.items = item :: rest) :
    ∃ q', q.dequeue = some (item, q') ∧ q'.items = rest ∧ q'.limit = q.limit := by
  have hle : rest.length ≤ q.limit := by
    have hlength := q.length_le
    rw [h, List.length_cons] at hlength
    exact Nat.le_of_succ_le hlength
  exact ⟨⟨q.limit, rest, hle⟩, dequeue_eq_some_iff.mpr ⟨h, rfl⟩, rfl, rfl⟩

/-! ## What a caller sees -/

/-- Whether an `enqueue` is accepted. -/
def hasRoom (q : BoundedQueue α) : Bool := decide (q.items.length < q.limit)

theorem hasRoom_iff {q : BoundedQueue α} : q.hasRoom = true ↔ q.items.length < q.limit :=
  decide_eq_true_iff

theorem items_enqueue_of_hasRoom {q : BoundedQueue α} (h : q.hasRoom = true) (item : α) :
    (q.enqueue item).items = q.items ++ [item] := by
  rw [items_enqueue, if_pos (hasRoom_iff.mp h)]

theorem enqueue_of_not_hasRoom {q : BoundedQueue α} (h : ¬ q.hasRoom = true) (item : α) :
    q.enqueue item = q := by
  unfold enqueue
  rw [dif_neg (mt hasRoom_iff.mpr h)]

/-! ## Items by their names -/

/-- A queue of names stands for a queue of items. -/
structure Named (item : α → Option β) (names : BoundedQueue α) (q : BoundedQueue β) : Prop where
  limit : names.limit = q.limit
  items : names.items.map item = q.items.map some

namespace Named

variable {item item' : α → Option β} {names : BoundedQueue α} {q : BoundedQueue β}

theorem length_eq (h : Named item names q) : names.items.length = q.items.length := by
  calc
    names.items.length = (names.items.map item).length := (List.length_map item).symm
    _ = (q.items.map some).length := by rw [h.items]
    _ = q.items.length := List.length_map some

theorem congr (h : Named item names q) (heq : ∀ a ∈ names.items, item' a = item a) :
    Named item' names q := by
  refine ⟨h.limit, ?_⟩
  rw [← h.items]
  exact List.map_congr_left heq

theorem enqueue (h : Named item names q) {a : α} {b : β} (ha : item a = some b) :
    Named item (names.enqueue a) (q.enqueue b) := by
  constructor
  · rw [limit_enqueue, limit_enqueue]
    exact h.limit
  · rw [items_enqueue, items_enqueue, h.length_eq, h.limit]
    split_ifs
    · rw [List.map_append, List.map_append, h.items, List.map_singleton, ha, List.map_singleton]
    · exact h.items

/-- The name that is taken is that of the item which is taken. -/
theorem exists_dequeue {q' : BoundedQueue β} (h : Named item names q) {b : β}
    (hnext : q.dequeue = some (b, q')) :
    ∃ a names', names.dequeue = some (a, names') ∧ item a = some b ∧ Named item names' q' := by
  obtain ⟨hitems, hlimit⟩ := dequeue_eq_some_iff.mp hnext
  have hmap := h.items
  rw [hitems, List.map_cons] at hmap
  cases hnames : names.items with
  | nil =>
    rw [hnames] at hmap
    cases hmap
  | cons a rest =>
    rw [hnames, List.map_cons] at hmap
    obtain ⟨names', hdequeue, hrest, hlimit'⟩ := BoundedQueue.exists_dequeue hnames
    refine ⟨a, names', hdequeue, (List.cons.inj hmap).1, ?_, ?_⟩
    · rw [hlimit, hlimit']
      exact h.limit
    · rw [hrest]
      exact (List.cons.inj hmap).2

end Named

end BoundedQueue

end QNet
