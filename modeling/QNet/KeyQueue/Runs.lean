import QNet.KeyQueue.Calls
import QNet.Lib.Machine

/-!
# The queues of a process

A process has several queues and one heap. It constructs and destructs queues, puts keys in and
takes them out; what it does otherwise with the keys that are in no queue (allocate, free, write,
the link included) is not restricted. So a key comes back to a queue with any link, and the key
that the `tail` of an empty queue points to may be gone.

The abstract process has lists in place of the queues. `keyQueue_refines` says that no call can tell
the difference.
-/

namespace QNet.KeyQueue

open Tunnel Function

variable {ι α : Type*}

/-- The queues by their names, and the heap. -/
structure World (ι α : Type*) where
  queues : ι → Option (Queue α)
  objects : Objects α

inductive Event (ι α : Type*)
  | constructQueue (i : ι) (malloc : Bool) (limit : Int32)
  | destructQueue (i : ι)
  | enqueue (i : ι) (item : Option α)
  | dequeue (i : ι)
  /-- The rest of the program allocates, frees or writes a key. -/
  | store (a : α) (object : Option (KeyObject α))

/-- What a call returns; of `DestructQueue`, which returns nothing, the keys it freed. -/
inductive Result (α : Type*)
  | constructed (isSome : Bool)
  | freed (items : List α)
  | accepted (ok : Bool)
  | taken (item : Option α)
  | stored
  deriving DecidableEq

structure Call (ι α : Type*) where
  world : World ι α
  result : Result α
  followed : List α

section

variable [DecidableEq ι] [DecidableEq α]

namespace World

/-- No queue has been constructed. -/
def start (objects : Objects α) : World ι α := ⟨fun _ ↦ none, objects⟩

/-- After a call on a queue. -/
def after {ρ : Type*} (w : World ι α) (i : ι) (outcome : Outcome α ρ) (result : Result α) :
    Call ι α :=
  ⟨⟨update w.queues i outcome.queue, outcome.objects⟩, result, outcome.followed⟩

def call (w : World ι α) (e : Event ι α) : Option (Call ι α) :=
  match e with
  | .constructQueue i malloc limit =>
      let queue := KeyQueue.constructQueue malloc limit
      some ⟨{ w with queues := update w.queues i queue }, .constructed queue.isSome, []⟩
  | .destructQueue i =>
      (KeyQueue.destructQueue (w.queues i) w.objects).map fun outcome ↦
        w.after i outcome (.freed outcome.result)
  | .enqueue i item =>
      (KeyQueue.enqueue (w.queues i) item w.objects).map fun outcome ↦
        w.after i outcome (.accepted outcome.result)
  | .dequeue i =>
      (KeyQueue.dequeue (w.queues i) w.objects).map fun outcome ↦
        w.after i outcome (.taken outcome.result)
  | .store a object => some ⟨{ w with objects := update w.objects a object }, .stored, []⟩

/-- One step, without the keys that are followed. -/
def next (w : World ι α) (e : Event ι α) : Option (World ι α × Result α) :=
  (w.call e).map fun c ↦ (c.world, c.result)

end World

/-! ## Lists in place of the queues -/

/-- The abstract process: bounded lists, and the keys without their links. -/
structure Lists (ι α : Type*) where
  queues : ι → Option (BoundedQueue α)
  keys : α → Option Key

namespace Lists

def start (keys : α → Option Key) : Lists ι α := ⟨fun _ ↦ none, keys⟩

/-- What stands in a queue. -/
def items (l : Lists ι α) (i : ι) : List α := (l.queues i).elim [] BoundedQueue.items

/-- The abstract calls; a queue that is constructed with `limit` has at most `bound limit` items. -/
def call (bound : Int32 → ℕ) (l : Lists ι α) (e : Event ι α) : Lists ι α × Result α :=
  match e with
  | .constructQueue i malloc limit =>
      let queue := if malloc then some (.empty (bound limit)) else none
      ({ l with queues := update l.queues i queue }, .constructed malloc)
  | .destructQueue i =>
      (⟨update l.queues i none, fun a ↦ if a ∈ l.items i then none else l.keys a⟩,
        .freed (l.items i))
  | .enqueue i item =>
      match l.queues i, item with
      | some q, some a => ({ l with queues := update l.queues i (some (q.enqueue a)) },
          .accepted q.hasRoom)
      | _, _ => (l, .accepted false)
  | .dequeue i =>
      match (l.queues i).bind BoundedQueue.dequeue with
      | some (a, q) => ({ l with queues := update l.queues i (some q) }, .taken (some a))
      | none => (l, .taken none)
  | .store a object => ({ l with keys := update l.keys a (object.map KeyObject.toKey) }, .stored)

/-- The key is in no queue. -/
def Free (l : Lists ι α) (a : α) : Prop := ∀ i, a ∉ l.items i

/-- What callers see to: a queue is constructed before it is used, a key that is put into a queue is
allocated and in no queue, and keys in a queue are left alone. A name may be used again; the queue
that had it is lost then. -/
def Permits (l : Lists ι α) (e : Event ι α) : Prop :=
  match e with
  | .constructQueue _ _ _ => True
  | .destructQueue i => (l.queues i).isSome
  | .enqueue i item => (l.queues i).isSome ∧ ∀ a ∈ item, (l.keys a).isSome ∧ l.Free a
  | .dequeue i => (l.queues i).isSome
  | .store a _ => l.Free a

/-- The keys a call may look at: those in its queue and the one it is given. -/
def reach (l : Lists ι α) (e : Event ι α) : List α :=
  match e with
  | .constructQueue _ _ _ => []
  | .destructQueue i => l.items i
  | .enqueue i item => l.items i ++ item.toList
  | .dequeue i => l.items i
  | .store _ _ => []

section

variable {l : Lists ι α} {i : ι} {q q' : BoundedQueue α} {a : α}

theorem call_enqueue (bound : Int32 → ℕ) (hq : l.queues i = some q) (a : α) :
    l.call bound (.enqueue i (some a)) =
      ({ l with queues := update l.queues i (some (q.enqueue a)) }, .accepted q.hasRoom) := by
  simp only [call, hq]

theorem call_dequeue (bound : Int32 → ℕ) (hq : l.queues i = some q)
    (hnext : q.dequeue = some (a, q')) :
    l.call bound (.dequeue i) =
      ({ l with queues := update l.queues i (some q') }, .taken (some a)) := by
  simp only [call, hq, Option.bind_some, hnext]

theorem call_dequeue_of_none (bound : Int32 → ℕ) (hq : l.queues i = some q)
    (hnone : q.dequeue = none) : l.call bound (.dequeue i) = (l, .taken none) := by
  simp only [call, hq, Option.bind_some, hnone]

end

end Lists

end

/-! ## The queues hold the lists -/

structure Refines (w : World ι α) (l : Lists ι α) : Prop where
  represents : ∀ i q, l.queues i = some q →
    ∃ queue, w.queues i = some queue ∧ Represents w.objects queue q
  keys : keyAt w.objects = l.keys
  apart : ∀ i j a, a ∈ l.items i → a ∈ l.items j → i = j

theorem Lists.items_eq {l : Lists ι α} {i : ι} {q : BoundedQueue α} (h : l.queues i = some q) :
    l.items i = q.items := by rw [items, h, Option.elim_some]

namespace Refines

variable {w : World ι α} {l : Lists ι α} {i : ι} {q : BoundedQueue α} {a : α}

theorem start (objects : Objects α) :
    Refines (World.start (ι := ι) objects) (Lists.start (keyAt objects)) where
  represents _ _ h := nomatch h
  keys := rfl
  apart _ _ _ h := nomatch h

end Refines

section

variable [DecidableEq ι]

theorem Lists.items_update_self (l : Lists ι α) (i : ι) (q : Option (BoundedQueue α))
    (keys : α → Option Key) :
    items ⟨update l.queues i q, keys⟩ i = q.elim [] BoundedQueue.items := by
  unfold items
  dsimp only
  rw [update_self]

theorem Lists.items_update_of_ne (l : Lists ι α) {i j : ι} (h : j ≠ i)
    (q : Option (BoundedQueue α)) (keys : α → Option Key) :
    items ⟨update l.queues i q, keys⟩ j = l.items j := by
  unfold items
  dsimp only
  rw [update_of_ne h]

namespace Refines

variable {w : World ι α} {l : Lists ι α} {objects' : Objects α} {keys' : α → Option Key} {i : ι}
  {queue' : Option (Queue α)} {q' : Option (BoundedQueue α)}

/-- A call changes its own queue; the keys in the other queues it leaves alone. -/
theorem replace (h : Refines w l)
    (hrepresents : ∀ q, q' = some q →
      ∃ queue, queue' = some queue ∧ Represents objects' queue q)
    (hothers : ∀ j a, j ≠ i → a ∈ l.items j → objects' a = w.objects a)
    (hapart : ∀ j a, j ≠ i → a ∈ l.items j → a ∉ q'.elim [] BoundedQueue.items)
    (hkeys : keyAt objects' = keys') :
    Refines ⟨update w.queues i queue', objects'⟩ ⟨update l.queues i q', keys'⟩ := by
  constructor
  · intro j q hq
    dsimp only at hq ⊢
    by_cases hj : j = i
    · subst hj
      rw [update_self] at hq ⊢
      exact hrepresents q hq
    · rw [update_of_ne hj] at hq ⊢
      obtain ⟨queue, hqueue, hholds⟩ := h.represents j q hq
      refine ⟨queue, hqueue, hholds.congr ?_⟩
      intro a ha
      exact hothers j a hj (Lists.items_eq hq ▸ ha)
  · exact hkeys
  · intro j k a haj hak
    by_cases hj : j = i
    · by_cases hk : k = i
      · exact hj.trans hk.symm
      · rw [hj, Lists.items_update_self] at haj
        rw [Lists.items_update_of_ne l hk] at hak
        exact absurd haj (hapart k a hk hak)
    · rw [Lists.items_update_of_ne l hj] at haj
      by_cases hk : k = i
      · rw [hk, Lists.items_update_self] at hak
        exact absurd hak (hapart j a hj haj)
      · rw [Lists.items_update_of_ne l hk] at hak
        exact h.apart j k a haj hak

end Refines

end

/-! ## One call -/

section

variable [DecidableEq ι] [DecidableEq α]

/-- What is to be shown of a call: it returns what the lists give, the queues hold the lists again,
and the keys it followed a pointer to are in its queue, or the one it was given. -/
structure Agrees (l : Lists ι α) (e : Event ι α) (c : Call ι α) : Prop where
  result : c.result = (l.call queueLimit e).2
  refines : Refines c.world (l.call queueLimit e).1
  followed : ∀ a ∈ c.followed, a ∈ l.reach e

namespace Refines

variable {w : World ι α} {l : Lists ι α} {i : ι} {q q' : BoundedQueue α} {a : α}

omit [DecidableEq ι] [DecidableEq α] in
theorem not_mem_of_ne (h : Refines w l) (hq : l.queues i = some q) {j : ι} (hj : j ≠ i)
    (ha : a ∈ l.items j) : a ∉ q.items :=
  fun hmem ↦ hj (h.apart j i a ha (Lists.items_eq hq ▸ hmem))

theorem constructQueue (h : Refines w l) (i : ι) (malloc : Bool) (limit : Int32) :
    ∃ c, w.call (.constructQueue i malloc limit) = some c ∧
      Agrees l (.constructQueue i malloc limit) c := by
  refine ⟨_, rfl, ?_⟩
  cases malloc with
  | false =>
    refine ⟨rfl, ?_, nofun⟩
    apply h.replace _ (fun _ _ _ _ ↦ rfl) (fun _ _ _ _ ↦ List.not_mem_nil) h.keys
    intro q hnone
    cases hnone
  | true =>
    obtain ⟨queue, hqueue, hempty⟩ := constructQueue_spec w.objects limit
    refine ⟨rfl, ?_, nofun⟩
    apply h.replace _ (fun _ _ _ _ ↦ rfl) (fun _ _ _ _ ↦ List.not_mem_nil) h.keys
    intro q hq
    obtain rfl := Option.some.inj hq
    exact ⟨queue, hqueue, hempty⟩

theorem destructQueue (h : Refines w l) (hq : l.queues i = some q) :
    ∃ c, w.call (.destructQueue i) = some c ∧ Agrees l (.destructQueue i) c := by
  obtain ⟨queue, hqueue, hholds⟩ := h.represents i q hq
  have hitems : l.items i = q.items := Lists.items_eq hq
  have hcall : w.call (.destructQueue i) =
      some ⟨⟨update w.queues i none, without w.objects q.items⟩, .freed q.items, q.items⟩ := by
    rw [World.call, hqueue, hholds.destructQueue_spec, Option.map_some, World.after]
  refine ⟨_, hcall, ?_, ?_, ?_⟩
  · rw [Lists.call, hitems]
  · apply h.replace
    · intro q' hnone
      cases hnone
    · intro j a hj ha
      exact if_neg (h.not_mem_of_ne hq hj ha)
    · exact fun _ _ _ _ ↦ List.not_mem_nil
    · rw [keyAt_without, h.keys, hitems]
  · intro a ha
    rwa [Lists.reach, hitems]

/-- A call that has no effect, neither here nor there. -/
theorem unchanged (h : Refines w l) {e : Event ι α} {result : Result α}
    (hcall : w.call e = some ⟨w, result, []⟩) (hlists : l.call queueLimit e = (l, result)) :
    ∃ c, w.call e = some c ∧ Agrees l e c := by
  refine ⟨_, hcall, ?_, ?_, nofun⟩
  · rw [hlists]
  · rw [hlists]
    exact h

theorem enqueue_null (h : Refines w l) (hq : l.queues i = some q) :
    ∃ c, w.call (.enqueue i none) = some c ∧ Agrees l (.enqueue i none) c := by
  apply h.unchanged
  · rw [World.call, KeyQueue.enqueue_null, Option.map_some, World.after, update_eq_self]
  · simp only [Lists.call, hq]

theorem enqueue_of_full (h : Refines w l) (hq : l.queues i = some q) (hfull : ¬ q.hasRoom = true)
    (a : α) :
    ∃ c, w.call (.enqueue i (some a)) = some c ∧ Agrees l (.enqueue i (some a)) c := by
  obtain ⟨queue, hqueue, hholds⟩ := h.represents i q hq
  apply h.unchanged
  · rw [World.call, hqueue, hholds.enqueue_of_full hfull, Option.map_some, World.after, ← hqueue,
      update_eq_self]
  · rw [Lists.call_enqueue queueLimit hq, BoundedQueue.enqueue_of_not_hasRoom hfull, ← hq,
      update_eq_self, Bool.eq_false_iff.mpr hfull]

theorem enqueue (h : Refines w l) (hq : l.queues i = some q) (hkey : (l.keys a).isSome)
    (hfree : l.Free a) :
    ∃ c, w.call (.enqueue i (some a)) = some c ∧ Agrees l (.enqueue i (some a)) c := by
  obtain ⟨queue, hqueue, hholds⟩ := h.represents i q hq
  have hitems : l.items i = q.items := Lists.items_eq hq
  have hnew : a ∉ q.items := hitems ▸ hfree i
  have hitem : (w.objects a).isSome := by rwa [← isSome_keyAt, h.keys]
  by_cases hroom : q.hasRoom = true
  · obtain ⟨queue', objects', followed, henqueue, hholds', hkeys, hframe, hfollowed⟩ :=
      hholds.enqueue_spec hroom hitem hnew
    have hcall : w.call (.enqueue i (some a)) =
        some ⟨⟨update w.queues i (some queue'), objects'⟩, .accepted true, followed⟩ := by
      rw [World.call, hqueue, henqueue, Option.map_some, World.after]
    have hlists := Lists.call_enqueue queueLimit hq a
    refine ⟨_, hcall, ?_, ?_, ?_⟩
    · rw [hlists, hroom]
    · rw [hlists]
      apply h.replace
      · intro q' hq'
        obtain rfl := Option.some.inj hq'
        exact ⟨queue', rfl, hholds'⟩
      · intro j b hj hb
        have hne : b ≠ a := fun heq ↦ hfree j (heq ▸ hb)
        exact hframe b hne (h.not_mem_of_ne hq hj hb)
      · intro j b hj hb hmem
        rcases BoundedQueue.mem_items_enqueue hmem with hold | rfl
        · exact h.not_mem_of_ne hq hj hb hold
        · exact hfree j hb
      · rw [hkeys, h.keys]
    · intro b hb
      rw [Lists.reach, hitems, Option.toList_some, List.mem_append, List.mem_singleton]
      exact hfollowed b hb
  · exact h.enqueue_of_full hq hroom a

theorem dequeue_of_empty (h : Refines w l) (hq : l.queues i = some q) (hnone : q.dequeue = none) :
    ∃ c, w.call (.dequeue i) = some c ∧ Agrees l (.dequeue i) c := by
  obtain ⟨queue, hqueue, hholds⟩ := h.represents i q hq
  have hempty := BoundedQueue.dequeue_eq_none_iff.mp hnone
  apply h.unchanged
  · rw [World.call, hqueue, hholds.dequeue_of_empty hempty, Option.map_some, World.after, ← hqueue,
      update_eq_self]
  · exact Lists.call_dequeue_of_none queueLimit hq hnone

theorem dequeue (h : Refines w l) (hq : l.queues i = some q) :
    ∃ c, w.call (.dequeue i) = some c ∧ Agrees l (.dequeue i) c := by
  cases hnext : q.dequeue with
  | none => exact h.dequeue_of_empty hq hnext
  | some next =>
    obtain ⟨item, q'⟩ := next
    obtain ⟨queue, hqueue, hholds⟩ := h.represents i q hq
    obtain ⟨hcons, _⟩ := BoundedQueue.dequeue_eq_some_iff.mp hnext
    obtain ⟨queue', hdequeue, hholds'⟩ := hholds.dequeue_spec hnext
    have hlists := Lists.call_dequeue queueLimit hq hnext
    have hcall : w.call (.dequeue i) =
        some ⟨⟨update w.queues i (some queue'), w.objects⟩, .taken (some item), [item]⟩ := by
      rw [World.call, hqueue, hdequeue, Option.map_some, World.after]
    refine ⟨_, hcall, ?_, ?_, ?_⟩
    · rw [hlists]
    · rw [hlists]
      apply h.replace _ (fun _ _ _ _ ↦ rfl) _ h.keys
      · intro q'' hq''
        obtain rfl := Option.some.inj hq''
        exact ⟨queue', rfl, hholds'⟩
      · intro j b hj hb hmem
        apply h.not_mem_of_ne hq hj hb
        rw [hcons]
        exact List.mem_cons_of_mem item hmem
    · intro b hb
      rw [Lists.reach, Lists.items_eq hq, hcons, List.mem_singleton.mp hb]
      exact List.mem_cons_self

/-- What the program does with a key that is in no queue does not concern the queues. -/
theorem store (h : Refines w l) (hfree : l.Free a) (object : Option (KeyObject α)) :
    ∃ c, w.call (.store a object) = some c ∧ Agrees l (.store a object) c := by
  refine ⟨_, rfl, rfl, ?_, nofun⟩
  constructor
  · intro j q hq
    obtain ⟨queue, hqueue, hholds⟩ := h.represents j q hq
    refine ⟨queue, hqueue, hholds.congr ?_⟩
    intro b hb
    have hne : b ≠ a := by
      rintro rfl
      exact hfree j (Lists.items_eq hq ▸ hb)
    exact update_of_ne hne _ _
  · dsimp only [Lists.call]
    rw [keyAt_update, h.keys]
  · exact h.apart

/-- Every call that callers may make is defined and agrees with the lists. -/
theorem call_spec (h : Refines w l) {e : Event ι α} (he : l.Permits e) :
    ∃ c, w.call e = some c ∧ Agrees l e c := by
  cases e with
  | constructQueue i malloc limit => exact h.constructQueue i malloc limit
  | destructQueue i =>
    obtain ⟨q, hq⟩ := Option.isSome_iff_exists.mp he
    exact h.destructQueue hq
  | enqueue i item =>
    obtain ⟨q, hq⟩ := Option.isSome_iff_exists.mp he.1
    cases item with
    | none => exact h.enqueue_null hq
    | some a =>
      obtain ⟨hkey, hfree⟩ := he.2 a rfl
      exact h.enqueue hq hkey hfree
  | dequeue i =>
    obtain ⟨q, hq⟩ := Option.isSome_iff_exists.mp he
    exact h.dequeue hq
  | store a object => exact h.store he object

end Refines

/-- An `Enqueue` that is refused leaves everything as it was. -/
theorem World.call_of_refused {w : World ι α} {e : Event ι α} {c : Call ι α}
    (h : w.call e = some c) (hrefused : c.result = .accepted false) : c.world = w := by
  cases e with
  | constructQueue i malloc limit =>
    cases h
    cases hrefused
  | destructQueue i =>
    obtain ⟨outcome, _, rfl⟩ := Option.map_eq_some_iff.mp h
    cases hrefused
  | enqueue i item =>
    obtain ⟨outcome, houtcome, rfl⟩ := Option.map_eq_some_iff.mp h
    have hfalse : outcome.result = false := Result.accepted.inj hrefused
    obtain ⟨hqueue, hobjects⟩ := enqueue_of_refused houtcome hfalse
    rw [World.after, hqueue, hobjects, update_eq_self]
  | dequeue i =>
    obtain ⟨outcome, _, rfl⟩ := Option.map_eq_some_iff.mp h
    cases hrefused
  | store a object =>
    cases h
    cases hrefused

end

/-! ## All runs -/

section

variable [DecidableEq ι] [DecidableEq α]

/-- The process after some events, and what the calls returned. -/
def World.run (objects : Objects α) (events : List (Event ι α)) :
    Option (World ι α × List (Result α)) :=
  feedOption World.next (World.start objects) events

def Lists.run (bound : Int32 → ℕ) (keys : α → Option Key) (events : List (Event ι α)) :
    Lists ι α × List (Result α) :=
  feed (Lists.call bound) (Lists.start keys) events

/-- Callers see to what they have to at every event. -/
def Lists.PermitsAll (bound : Int32 → ℕ) (keys : α → Option Key) (events : List (Event ι α)) :
    Prop :=
  Permitted (Lists.call bound) Lists.Permits (Lists.start keys) events

instance [Fintype ι] (l : Lists ι α) (a : α) : Decidable (l.Free a) :=
  inferInstanceAs (Decidable (∀ i, a ∉ l.items i))

instance [Fintype ι] (l : Lists ι α) (e : Event ι α) : Decidable (l.Permits e) :=
  match e with
  | .constructQueue _ _ _ => inferInstanceAs (Decidable True)
  | .destructQueue i => inferInstanceAs (Decidable ((l.queues i).isSome = true))
  | .enqueue i item =>
      inferInstanceAs (Decidable ((l.queues i).isSome = true ∧
        ∀ a ∈ item, (l.keys a).isSome = true ∧ l.Free a))
  | .dequeue i => inferInstanceAs (Decidable ((l.queues i).isSome = true))
  | .store a _ => inferInstanceAs (Decidable (l.Free a))

instance [Fintype ι] (bound : Int32 → ℕ) (keys : α → Option Key) (events : List (Event ι α)) :
    Decidable (Lists.PermitsAll bound keys events) :=
  inferInstanceAs (Decidable (Permitted (Lists.call bound) Lists.Permits (Lists.start keys) events))

/-- The queues hold the lists after every run. -/
theorem run_refines (objects : Objects α) {events : List (Event ι α)}
    (h : Lists.PermitsAll queueLimit (keyAt objects) events) :
    ∃ w, World.run objects events = some (w, (Lists.run queueLimit (keyAt objects) events).2) ∧
      Refines w (Lists.run queueLimit (keyAt objects) events).1 := by
  apply feedOption_eq_feed _ (Refines.start objects) h
  intro w l e hw he
  obtain ⟨c, hcall, hagrees⟩ := hw.call_spec he
  refine ⟨c.world, ?_, hagrees.refines⟩
  rw [World.next, hcall, Option.map_some, hagrees.result]

/-- The queues are bounded lists: over any calls with any limits they return what the lists return.
After them the links of a queue lead from `head` to `tail` in `size - 1` steps, an `Enqueue` that is
refused changes nothing, and a call follows pointers to keys in its queue and to the key it is given
only. -/
theorem keyQueue_refines (objects : Objects α) (events : List (Event ι α))
    (h : Lists.PermitsAll queueLimit (keyAt objects) events) :
    ∃ w l, World.run objects events = some (w, (Lists.run queueLimit (keyAt objects) events).2) ∧
      l = (Lists.run queueLimit (keyAt objects) events).1 ∧
      (∀ i q, l.queues i = some q → ∃ queue, w.queues i = some queue ∧
        queue.size.toInt = q.items.length ∧
        (0 < queue.size → ∀ n : ℕ,
          afterLinks (prevOf w.objects) n queue.head = queue.tail ↔
            (n : ℤ) = queue.size.toInt - 1)) ∧
      ∀ e, l.Permits e → ∃ c, w.call e = some c ∧
        (c.result = .accepted false → c.world = w) ∧ ∀ a ∈ c.followed, a ∈ l.reach e := by
  obtain ⟨w, hrun, hrefines⟩ := run_refines objects h
  refine ⟨w, _, hrun, rfl, ?_, ?_⟩
  · intro i q hq
    obtain ⟨queue, hqueue, hholds⟩ := hrefines.represents i q hq
    exact ⟨queue, hqueue, hholds.size, hholds.afterLinks_eq_tail_iff⟩
  · intro e he
    obtain ⟨c, hcall, hagrees⟩ := hrefines.call_spec he
    exact ⟨c, hcall, World.call_of_refused hcall, hagrees.followed⟩

end

/-! ## A run -/

def someKey : KeyObject ℕ := ⟨⟨fun _ ↦ 0, fun _ ↦ 0, 0⟩, some 2⟩

/-- A queue with room for two keys that runs empty and is used again, after the last key was freed;
the first key goes through another queue meanwhile. -/
def someEvents : List (Event Bool ℕ) :=
  [.constructQueue true true 2, .constructQueue false true 0, .enqueue true (some 1),
    .enqueue true (some 2), .enqueue true (some 3), .dequeue true, .enqueue false (some 1),
    .dequeue true, .store 2 none, .dequeue true, .enqueue true (some 3), .dequeue true,
    .destructQueue false]

theorem keyQueue_refines_someEvents :
    (World.run (fun _ ↦ some someKey) someEvents).map Prod.snd =
      some [.constructed true, .constructed true, .accepted true, .accepted true, .accepted false,
        .taken (some 1), .accepted true, .taken (some 2), .stored, .taken none, .accepted true,
        .taken (some 3), .freed [1]] := by
  obtain ⟨w, l, hrun, _⟩ := keyQueue_refines (fun _ ↦ some someKey) someEvents (by decide)
  rw [hrun]
  rfl

/-- The lists have to be those with the limit that `ConstructQueue` sets: a queue that was
constructed with 0 takes keys. -/
theorem not_refines_limit_zero :
    ¬ ∀ (objects : Objects ℕ) (events : List (Event Unit ℕ)),
      Lists.PermitsAll (fun limit ↦ limit.toInt.toNat) (keyAt objects) events →
      (World.run objects events).map Prod.snd =
        some (Lists.run (fun limit ↦ limit.toInt.toNat) (keyAt objects) events).2 := by
  intro h
  have hzero := h (fun _ ↦ some someKey) [.constructQueue () true 0, .enqueue () (some 1)]
    (by decide)
  revert hzero
  decide

end QNet.KeyQueue
