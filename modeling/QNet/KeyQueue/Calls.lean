import QNet.Lib.LinkedList
import QNet.Tunnel.Keys

/-!
# The key queue

`keyqueue.c` keeps keys in a queue whose links are fields of the keys themselves: `prev` of a key is
the key behind it. When the last key is taken `tail` is left as it is and points to a key that may
soon be freed, so only `size` says whether it means anything.

An address is given by its name and `none` is the null pointer. A pointer is followed only where an
object is allocated; elsewhere the call is undefined and has the result `none`. Every call lists the
keys whose fields it read or wrote.
-/

namespace QNet.KeyQueue

open Tunnel

variable {α : Type*}

/-- A `KEY` with its link. -/
structure KeyObject (α : Type*) extends Key where
  prev : Option α

structure Queue (α : Type*) where
  head : Option α
  tail : Option α
  size : Int32
  limit : Int32

/-- The keys that are allocated, by their address. -/
abbrev Objects (α : Type*) := α → Option (KeyObject α)

/-- What a call returns, what it leaves and the keys it followed a pointer to. -/
structure Outcome (α ρ : Type*) where
  result : ρ
  queue : Option (Queue α)
  objects : Objects α
  followed : List α

/-! ## The functions of the source -/

/-- `malloc` says whether there is memory. -/
def constructQueue (malloc : Bool) (limit : Int32) : Option (Queue α) :=
  if malloc then
    some { limit := if limit ≤ 0 then 65535 else limit, size := 0, head := none, tail := none }
  else none

def isEmpty (pQueue : Option (Queue α)) : Bool :=
  match pQueue with
  | none => false
  | some queue => queue.size = 0

section

variable [DecidableEq α]

/-- `item->prev = prev`. -/
def setPrev (objects : Objects α) (item : α) (prev : Option α) : Option (Objects α) :=
  (objects item).map fun object ↦
    Function.update objects item (some { object with prev := prev })

def enqueue (pQueue : Option (Queue α)) (item : Option α) (objects : Objects α) :
    Option (Outcome α Bool) :=
  match pQueue, item with
  | some queue, some item =>
      if queue.size ≥ queue.limit then some ⟨false, some queue, objects, []⟩
      else do
        let objects ← setPrev objects item none
        if queue.size = 0 then
          let queue := { queue with head := some item, tail := some item, size := queue.size + 1 }
          some ⟨true, some queue, objects, [item]⟩
        else do
          let tail ← queue.tail
          let objects ← setPrev objects tail (some item)
          let queue := { queue with tail := some item, size := queue.size + 1 }
          some ⟨true, some queue, objects, [item, tail]⟩
  | _, _ => some ⟨false, pQueue, objects, []⟩

/-- `isEmpty` says that a null pointer is not an empty queue, so it is followed. -/
def dequeue (pQueue : Option (Queue α)) (objects : Objects α) : Option (Outcome α (Option α)) :=
  if isEmpty pQueue then some ⟨none, pQueue, objects, []⟩
  else do
    let queue ← pQueue
    let item ← queue.head
    let object ← objects item
    let queue := { queue with head := object.prev, size := queue.size - 1 }
    some ⟨some item, some queue, objects, [item]⟩

def free (objects : Objects α) (p : Option α) : Option (Objects α) :=
  match p with
  | none => some objects
  | some item => (objects item).map fun _ ↦ Function.update objects item none

/-- The loop of `DestructQueue`, with the keys it frees as its result; `fuel` bounds its rounds. -/
def destructLoop : ℕ → Option (Queue α) → Objects α → Option (Outcome α (List α))
  | 0, _, _ => none
  | fuel + 1, pQueue, objects =>
      if isEmpty pQueue then some ⟨[], pQueue, objects, []⟩
      else do
        let next ← dequeue pQueue objects
        let objects ← free objects next.result
        let rest ← destructLoop fuel next.queue objects
        some { rest with
          result := next.result.toList ++ rest.result
          followed := next.followed ++ rest.followed }

/-- Every round of the loop takes a key off, so there are as many as `size` says. -/
def destructQueue (pQueue : Option (Queue α)) (objects : Objects α) :
    Option (Outcome α (List α)) :=
  (destructLoop ((pQueue.elim 0 fun queue ↦ queue.size.toInt.toNat) + 1) pQueue objects).map
    fun outcome ↦ { outcome with queue := none }

end

/-! ## Objects -/

/-- The link of a key. -/
def prevOf (objects : Objects α) (a : α) : Option α := (objects a).bind KeyObject.prev

/-- The key at an address. -/
def keyAt (objects : Objects α) (a : α) : Option Key := (objects a).map KeyObject.toKey

theorem isSome_keyAt (objects : Objects α) (a : α) :
    (keyAt objects a).isSome = (objects a).isSome := Option.isSome_map

/-- `limit` of a queue that was constructed with this argument. -/
def queueLimit (limit : Int32) : ℕ := if limit ≤ 0 then 65535 else limit.toInt.toNat

section

variable [DecidableEq α] {objects objects' : Objects α} {object : KeyObject α} {a : α}

theorem setPrev_of_some (h : objects a = some object) (prev : Option α) :
    setPrev objects a prev =
      some (Function.update objects a (some { object with prev := prev })) := by
  rw [setPrev, h, Option.map_some]

theorem exists_setPrev (h : (objects a).isSome) (prev : Option α) :
    ∃ objects', setPrev objects a prev = some objects' := by
  obtain ⟨object, hobject⟩ := Option.isSome_iff_exists.mp h
  exact ⟨_, setPrev_of_some hobject prev⟩

theorem prevOf_update (objects : Objects α) (a : α) (object : KeyObject α) :
    prevOf (Function.update objects a (some object)) =
      Function.update (prevOf objects) a object.prev := by
  funext b
  by_cases hb : b = a
  · rw [hb, prevOf, Function.update_self, Function.update_self, Option.bind_some]
  · rw [prevOf, Function.update_of_ne hb, Function.update_of_ne hb, prevOf]

theorem keyAt_update (objects : Objects α) (a : α) (object : Option (KeyObject α)) :
    keyAt (Function.update objects a object) =
      Function.update (keyAt objects) a (object.map KeyObject.toKey) := by
  funext b
  by_cases hb : b = a
  · rw [hb, keyAt, Function.update_self, Function.update_self]
  · rw [keyAt, Function.update_of_ne hb, Function.update_of_ne hb, keyAt]

/-- To set a link changes no key. -/
theorem keyAt_setPrev {prev : Option α} (h : setPrev objects a prev = some objects') :
    keyAt objects' = keyAt objects := by
  obtain ⟨object, hobject, rfl⟩ := Option.map_eq_some_iff.mp h
  rw [keyAt_update, Option.map_some, Function.update_eq_self_iff, keyAt, hobject, Option.map_some]

theorem prevOf_setPrev {prev : Option α} (h : setPrev objects a prev = some objects') :
    prevOf objects' = Function.update (prevOf objects) a prev := by
  obtain ⟨object, hobject, rfl⟩ := Option.map_eq_some_iff.mp h
  exact prevOf_update objects a _

theorem setPrev_of_ne {prev : Option α} {b : α} (h : setPrev objects a prev = some objects')
    (hb : b ≠ a) : objects' b = objects b := by
  obtain ⟨object, hobject, rfl⟩ := Option.map_eq_some_iff.mp h
  exact Function.update_of_ne hb _ _

end

/-- The keys that are left when some are freed. -/
def without [DecidableEq α] (objects : Objects α) (items : List α) : Objects α :=
  fun a ↦ if a ∈ items then none else objects a

theorem without_nil [DecidableEq α] (objects : Objects α) : without objects [] = objects := by
  funext a
  rw [without, if_neg List.not_mem_nil]

theorem without_cons [DecidableEq α] (objects : Objects α) (a : α) (items : List α) :
    without (Function.update objects a none) items = without objects (a :: items) := by
  funext b
  by_cases hb : b = a
  · rw [without, without, hb, Function.update_self, ite_self, if_pos List.mem_cons_self]
  · rw [without, without, Function.update_of_ne hb]
    simp only [List.mem_cons, hb, false_or]

theorem keyAt_without [DecidableEq α] (objects : Objects α) (items : List α) :
    keyAt (without objects items) = fun a ↦ if a ∈ items then none else keyAt objects a := by
  funext a
  unfold keyAt without
  split_ifs
  · rfl
  · rfl

theorem enqueue_null [DecidableEq α] (pQueue : Option (Queue α)) (objects : Objects α) :
    enqueue pQueue none objects = some ⟨false, pQueue, objects, []⟩ := by
  cases pQueue with
  | none => rfl
  | some queue => rfl

/-- An `Enqueue` that returns 0, whatever its arguments, leaves the queue and the keys alone. -/
theorem enqueue_of_refused [DecidableEq α] {pQueue : Option (Queue α)} {item : Option α}
    {objects : Objects α} {outcome : Outcome α Bool}
    (h : enqueue pQueue item objects = some outcome) (hrefused : outcome.result = false) :
    outcome.queue = pQueue ∧ outcome.objects = objects := by
  unfold enqueue at h
  split at h
  · split_ifs at h with hlimit hsize
    · cases h
      exact ⟨rfl, rfl⟩
    · -- the two ways in which the call returns 1
      obtain ⟨objects', _, hempty⟩ := Option.bind_eq_some_iff.mp h
      cases hempty
      cases hrefused
    · obtain ⟨objects', _, hlink⟩ := Option.bind_eq_some_iff.mp h
      obtain ⟨tail, _, hset⟩ := Option.bind_eq_some_iff.mp hlink
      obtain ⟨objects'', _, hlast⟩ := Option.bind_eq_some_iff.mp hset
      cases hlast
      cases hrefused
  · cases h
    exact ⟨rfl, rfl⟩

/-! ## The list of a queue -/

/-- The queue holds the items of `q`, in this order. An empty queue may have any `tail`. -/
structure Represents (objects : Objects α) (queue : Queue α) (q : BoundedQueue α) : Prop where
  linked : Linked (prevOf objects) queue.head q.items
  tail : ∀ last, q.items.getLast? = some last → queue.tail = some last
  size : queue.size.toInt = q.items.length
  limit : queue.limit.toInt = q.limit
  nodup : q.items.Nodup
  allocated : ∀ a ∈ q.items, (objects a).isSome

theorem toInt_limit (limit : Int32) :
    (if limit ≤ 0 then 65535 else limit : Int32).toInt = queueLimit limit := by
  unfold queueLimit
  split_ifs with h
  · decide
  · have hpos := Int32.lt_iff_toInt_lt.mp (Int32.not_le.mp h)
    rw [Int32.toInt_zero] at hpos
    omega

/-- A queue from `ConstructQueue` holds nothing. -/
theorem constructQueue_spec (objects : Objects α) (limit : Int32) :
    ∃ queue, constructQueue true limit = some queue ∧
      Represents objects queue (.empty (queueLimit limit)) := by
  refine ⟨_, rfl, ?_⟩
  exact {
    linked := rfl
    tail := fun _ h ↦ nomatch h
    size := Int32.toInt_zero
    limit := toInt_limit limit
    nodup := List.nodup_nil
    allocated := fun _ h ↦ nomatch h }

section

variable {objects objects' : Objects α} {queue : Queue α} {q q' : BoundedQueue α} {item : α}

theorem toInt_succ {size limit : Int32} (h : size < limit) :
    (size + 1).toInt = size.toInt + 1 := by
  have hlt := Int32.lt_iff_toInt_lt.mp h
  have hle := size.le_toInt
  have hlimit := limit.toInt_lt
  rw [Int32.toInt_add, Int32.toInt_one]
  exact Int.bmod_eq_of_le_mul_two (by omega) (by omega)

theorem toInt_pred {size : Int32} (h : 0 < size.toInt) : (size - 1).toInt = size.toInt - 1 := by
  have hlt := size.toInt_lt
  rw [Int32.toInt_sub, Int32.toInt_one]
  exact Int.bmod_eq_of_le_mul_two (by omega) (by omega)

namespace Represents

/-- A queue depends on the keys in it only. -/
theorem congr (h : Represents objects queue q) (heq : ∀ a ∈ q.items, objects' a = objects a) :
    Represents objects' queue q where
  linked := h.linked.congr fun a ha ↦ by rw [prevOf, prevOf, heq a ha]
  tail := h.tail
  size := h.size
  limit := h.limit
  nodup := h.nodup
  allocated a ha := by rw [heq a ha]; exact h.allocated a ha

theorem size_eq_zero_iff (h : Represents objects queue q) : queue.size = 0 ↔ q.items = [] := by
  have hsize := h.size
  rw [← Int32.toInt_inj, Int32.toInt_zero, hsize, Int.natCast_eq_zero, List.length_eq_zero_iff]

theorem isEmpty_iff (h : Represents objects queue q) :
    isEmpty (some queue) = true ↔ q.items = [] := by
  rw [isEmpty, decide_eq_true_iff]
  exact h.size_eq_zero_iff

theorem size_lt_limit_iff (h : Represents objects queue q) :
    queue.size < queue.limit ↔ q.hasRoom = true := by
  rw [Int32.lt_iff_toInt_lt, h.size, h.limit, BoundedQueue.hasRoom_iff, Int.ofNat_lt]

/-- The links lead through the list. -/
theorem afterLinks_eq (h : Represents objects queue q) (n : ℕ) :
    afterLinks (prevOf objects) n queue.head = q.items[n]? := h.linked.afterLinks_eq n

/-- From the head of a queue with something in it there are `size - 1` links to the tail. -/
theorem afterLinks_eq_tail_iff (h : Represents objects queue q) (hsize : 0 < queue.size) (n : ℕ) :
    afterLinks (prevOf objects) n queue.head = queue.tail ↔ (n : ℤ) = queue.size.toInt - 1 := by
  have hne : q.items ≠ [] := by
    intro hnil
    rw [h.size_eq_zero_iff.mpr hnil] at hsize
    exact Int32.lt_irrefl hsize
  have hlast : q.items.getLast? = some (q.items.getLast hne) :=
    List.getLast?_eq_getLast_of_ne_nil hne
  rw [h.tail _ hlast, h.linked.afterLinks_eq_last_iff h.nodup hlast, h.size]
  omega

/-! ## What a call does to the list -/

/-- The fields of a queue with one key more, once the links lead to it. -/
theorem concat (h : Represents objects queue q) (hroom : q.hasRoom = true)
    (hnew : item ∉ q.items) (hitem : (objects item).isSome) {head : Option α}
    (hlinked : Linked (prevOf objects') head (q.items ++ [item]))
    (hkeys : keyAt objects' = keyAt objects) :
    Represents objects' { queue with head := head, tail := some item, size := queue.size + 1 }
      (q.enqueue item) := by
  have hitems := BoundedQueue.items_enqueue_of_hasRoom hroom item
  constructor
  · rw [hitems]
    exact hlinked
  · intro last hlast
    rw [hitems, List.getLast?_concat] at hlast
    exact hlast
  · rw [hitems, toInt_succ (h.size_lt_limit_iff.mpr hroom), h.size, List.length_append,
      List.length_singleton, Int.natCast_add, Int.natCast_one]
  · rw [h.limit, BoundedQueue.limit_enqueue]
  · rw [hitems]
    exact List.nodup_append.mpr ⟨h.nodup, List.nodup_singleton item, by
      intro a ha b hb heq
      rw [heq, List.mem_singleton.mp hb] at ha
      exact hnew ha⟩
  · intro a ha
    rw [← isSome_keyAt, hkeys, isSome_keyAt]
    rcases BoundedQueue.mem_items_enqueue ha with hold | rfl
    · exact h.allocated a hold
    · exact hitem

theorem dequeue_of_empty (h : Represents objects queue q) (hempty : q.items = []) :
    dequeue (some queue) objects = some ⟨none, some queue, objects, []⟩ := by
  rw [dequeue, if_pos (h.isEmpty_iff.mpr hempty)]

/-- The first key is taken and no key is written. -/
theorem dequeue_spec (h : Represents objects queue q) (hnext : q.dequeue = some (item, q')) :
    ∃ queue', dequeue (some queue) objects = some ⟨some item, some queue', objects, [item]⟩ ∧
      Represents objects queue' q' := by
  obtain ⟨hitems, hlimit⟩ := BoundedQueue.dequeue_eq_some_iff.mp hnext
  have hlinked := h.linked
  rw [hitems] at hlinked
  have hmem : item ∈ q.items := hitems ▸ List.mem_cons_self
  obtain ⟨object, hobject⟩ := Option.isSome_iff_exists.mp (h.allocated item hmem)
  have hnonempty : ¬ isEmpty (some queue) = true := by
    rw [h.isEmpty_iff, hitems]
    exact List.cons_ne_nil item q'.items
  have hlength : queue.size.toInt = (q'.items.length : ℤ) + 1 := by
    rw [h.size, hitems, List.length_cons, Int.natCast_add, Int.natCast_one]
  refine ⟨{ queue with head := object.prev, size := queue.size - 1 }, ?_, ?_⟩
  · rw [dequeue, if_neg hnonempty]
    simp only [Option.bind_eq_bind, Option.bind_some, hlinked.1, hobject]
  · constructor
    · have hrest := hlinked.2
      rw [prevOf, hobject] at hrest
      exact hrest
    · intro last hlast
      apply h.tail
      rw [hitems, List.getLast?_cons, hlast, Option.getD_some]
    · rw [toInt_pred (by omega)]
      omega
    · rw [h.limit, hlimit]
    · have hnodup := h.nodup
      rw [hitems] at hnodup
      exact (List.nodup_cons.mp hnodup).2
    · intro a ha
      exact h.allocated a (hitems ▸ List.mem_cons_of_mem item ha)

variable [DecidableEq α]

/-- A queue that is full refuses the key and nothing changes. -/
theorem enqueue_of_full (h : Represents objects queue q) (hfull : ¬ q.hasRoom = true) (item : α) :
    enqueue (some queue) (some item) objects = some ⟨false, some queue, objects, []⟩ := by
  have hge : queue.size ≥ queue.limit := Int32.not_lt.mp (mt h.size_lt_limit_iff.mp hfull)
  unfold enqueue
  dsimp only
  rw [if_pos hge]

/-- The first key of a queue; the old `head` and `tail` are overwritten without a look at them. -/
theorem enqueue_of_empty (h : Represents objects queue q) (hroom : q.hasRoom = true)
    (hempty : q.items = []) (hset : setPrev objects item none = some objects') :
    enqueue (some queue) (some item) objects =
      some ⟨true, some { queue with head := some item, tail := some item, size := queue.size + 1 },
        objects', [item]⟩ := by
  have hlt : ¬ queue.size ≥ queue.limit := Int32.not_le.mpr (h.size_lt_limit_iff.mpr hroom)
  unfold enqueue
  dsimp only
  rw [if_neg hlt, hset, Option.bind_eq_bind, Option.bind_some,
    if_pos (h.size_eq_zero_iff.mpr hempty)]

theorem enqueue_of_last {last : α} {objects'' : Objects α} (h : Represents objects queue q)
    (hroom : q.hasRoom = true) (hlast : q.items.getLast? = some last)
    (hset : setPrev objects item none = some objects')
    (hlink : setPrev objects' last (some item) = some objects'') :
    enqueue (some queue) (some item) objects =
      some ⟨true, some { queue with tail := some item, size := queue.size + 1 },
        objects'', [item, last]⟩ := by
  have hlt : ¬ queue.size ≥ queue.limit := Int32.not_le.mpr (h.size_lt_limit_iff.mpr hroom)
  have hne : ¬ queue.size = 0 := by
    intro hsize
    rw [h.size_eq_zero_iff.mp hsize] at hlast
    cases hlast
  unfold enqueue
  dsimp only
  rw [if_neg hlt, hset, Option.bind_eq_bind, Option.bind_some, if_neg hne, h.tail last hlast,
    Option.bind_eq_bind, Option.bind_some, hlink, Option.bind_some]

/-- A key that is accepted stands at the end; only its own link and that of the last key are
written. -/
theorem enqueue_spec (h : Represents objects queue q) (hroom : q.hasRoom = true)
    (hitem : (objects item).isSome) (hnew : item ∉ q.items) :
    ∃ queue' objects' followed,
      enqueue (some queue) (some item) objects =
        some ⟨true, some queue', objects', followed⟩ ∧
      Represents objects' queue' (q.enqueue item) ∧ keyAt objects' = keyAt objects ∧
      (∀ a, a ≠ item → a ∉ q.items → objects' a = objects a) ∧
      ∀ a ∈ followed, a ∈ q.items ∨ a = item := by
  obtain ⟨objects₁, hset⟩ := exists_setPrev hitem none
  have hkeys₁ := keyAt_setPrev hset
  cases hlast : q.items.getLast? with
  | none =>
    have hempty : q.items = [] := List.getLast?_eq_none_iff.mp hlast
    refine ⟨_, _, _, h.enqueue_of_empty hroom hempty hset, ?_, hkeys₁, ?_, ?_⟩
    · apply h.concat hroom hnew hitem _ hkeys₁
      rw [hempty, List.nil_append, prevOf_setPrev hset]
      exact ⟨rfl, Function.update_self _ _ _⟩
    · intro a ha _
      exact setPrev_of_ne hset ha
    · intro a ha
      exact .inr (List.mem_singleton.mp ha)
  | some last =>
    have hmem : last ∈ q.items := List.mem_of_getLast? hlast
    have hallocated : (objects₁ last).isSome := by
      rw [← isSome_keyAt, hkeys₁, isSome_keyAt]
      exact h.allocated last hmem
    obtain ⟨objects₂, hlink⟩ := exists_setPrev hallocated (some item)
    have hkeys₂ : keyAt objects₂ = keyAt objects := (keyAt_setPrev hlink).trans hkeys₁
    refine ⟨_, _, _, h.enqueue_of_last hroom hlast hset hlink, ?_, hkeys₂, ?_, ?_⟩
    · apply h.concat hroom hnew hitem _ hkeys₂
      rw [prevOf_setPrev hlink, prevOf_setPrev hset]
      exact h.linked.concat h.nodup hlast hnew
    · intro a ha hold
      have hne : a ≠ last := fun heq ↦ hold (heq ▸ hmem)
      rw [setPrev_of_ne hlink hne, setPrev_of_ne hset ha]
    · intro a ha
      rcases List.mem_cons.mp ha with rfl | hrest
      · exact .inr rfl
      · rw [List.mem_singleton.mp hrest]
        exact .inl hmem

/-! ## Destruction -/

theorem destructLoop_spec (h : Represents objects queue q) {fuel : ℕ}
    (hfuel : q.items.length < fuel) :
    ∃ queue', destructLoop fuel (some queue) objects =
      some ⟨q.items, queue', without objects q.items, q.items⟩ := by
  induction fuel generalizing objects queue q with
  | zero => exact absurd hfuel (Nat.not_lt_zero _)
  | succ fuel ih =>
    rw [destructLoop]
    cases hnext : q.dequeue with
    | none =>
      have hempty := BoundedQueue.dequeue_eq_none_iff.mp hnext
      rw [if_pos (h.isEmpty_iff.mpr hempty), hempty, without_nil]
      exact ⟨some queue, rfl⟩
    | some next =>
      obtain ⟨item, q'⟩ := next
      obtain ⟨hitems, _⟩ := BoundedQueue.dequeue_eq_some_iff.mp hnext
      have hnonempty : ¬ isEmpty (some queue) = true := by
        rw [h.isEmpty_iff, hitems]
        exact List.cons_ne_nil item q'.items
      obtain ⟨queue', hdequeue, hrest⟩ := h.dequeue_spec hnext
      have hnodup := h.nodup
      rw [hitems] at hnodup hfuel
      have hitem := h.allocated item (hitems ▸ List.mem_cons_self)
      obtain ⟨object, hobject⟩ := Option.isSome_iff_exists.mp hitem
      have hkept : Represents (Function.update objects item none) queue' q' := by
        apply hrest.congr
        intro a ha
        have hne : a ≠ item := by
          rintro rfl
          exact (List.nodup_cons.mp hnodup).1 ha
        exact Function.update_of_ne hne _ _
      obtain ⟨queue'', hloop⟩ := ih hkept (Nat.lt_of_succ_lt_succ hfuel)
      rw [if_neg hnonempty, hdequeue]
      simp only [Option.bind_eq_bind, Option.bind_some, free, hobject, Option.map_some, hloop,
        Option.toList_some, List.singleton_append, hitems, without_cons]
      exact ⟨queue'', rfl⟩

/-- The keys of the queue are freed, each once and in order, and no other key is touched. -/
theorem destructQueue_spec (h : Represents objects queue q) :
    destructQueue (some queue) objects =
      some ⟨q.items, none, without objects q.items, q.items⟩ := by
  have hfuel : q.items.length < queue.size.toInt.toNat + 1 := by
    have hsize := h.size
    omega
  obtain ⟨queue', hloop⟩ := h.destructLoop_spec hfuel
  rw [destructQueue, Option.elim_some, hloop, Option.map_some]

end Represents

end

end QNet.KeyQueue
