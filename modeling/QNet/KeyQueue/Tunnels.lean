import QNet.KeyQueue.Runs

/-!
# The queues of a tunnel

The tunnel programs are modelled with queues of keys (`Keys.q1`, `Keys.q2`). These are the queues of
key objects, seen through the objects: `Holds` says that the items of a queue are the addresses of
these keys. So a tunnel may be thought to put keys into its queues and to take keys out, and a new
key, which goes to both queues as two objects, is loaded as `Keys.load` says.
-/

namespace QNet.KeyQueue

open Tunnel Function

variable {ι α : Type*}

/-- The keys in a queue, in this order. -/
def Lists.Holds (l : Lists ι α) (i : ι) (q : BoundedQueue Key) : Prop :=
  ∃ names, l.queues i = some names ∧ names.Named l.keys q

namespace Lists.Holds

theorem isSome {l : Lists ι α} {i : ι} {q : BoundedQueue Key} (h : l.Holds i q) :
    (l.queues i).isSome := by
  obtain ⟨names, hnames, _⟩ := h
  rw [hnames, Option.isSome_some]

variable [DecidableEq ι] [DecidableEq α] {bound : Int32 → ℕ} {l : Lists ι α} {i j : ι} {a : α}
  {q : BoundedQueue Key} {key : Key}

/-- An `Enqueue` of an object is one of its key. -/
theorem enqueue (h : l.Holds i q) (ha : l.keys a = some key) :
    (l.call bound (.enqueue i (some a))).1.Holds i (q.enqueue key) := by
  obtain ⟨names, hnames, hnamed⟩ := h
  rw [Lists.Holds, call_enqueue bound hnames]
  exact ⟨names.enqueue a, update_self _ _ _, hnamed.enqueue ha⟩

/-- Another queue is not changed by it. -/
theorem enqueue_of_ne (h : l.Holds i q) (hne : i ≠ j) (hj : (l.queues j).isSome) :
    (l.call bound (.enqueue j (some a))).1.Holds i q := by
  obtain ⟨names, hnames, hnamed⟩ := h
  obtain ⟨other, hother⟩ := Option.isSome_iff_exists.mp hj
  rw [Lists.Holds, call_enqueue bound hother]
  exact ⟨names, (update_of_ne hne _ _).trans hnames, hnamed⟩

/-- A key that is in no queue may be written. -/
theorem store (h : l.Holds i q) (hfree : l.Free a) (object : Option (KeyObject α)) :
    (l.call bound (.store a object)).1.Holds i q := by
  obtain ⟨names, hnames, hnamed⟩ := h
  refine ⟨names, hnames, hnamed.congr ?_⟩
  intro b hb
  have hne : b ≠ a := by
    rintro rfl
    exact hfree i (items_eq hnames ▸ hb)
  exact update_of_ne hne _ _

/-- A `Dequeue` returns the object of the key that is taken. -/
theorem dequeue {q' : BoundedQueue Key} (h : l.Holds i q) (hnext : q.dequeue = some (key, q')) :
    ∃ a, (l.call bound (.dequeue i)).2 = .taken (some a) ∧ l.keys a = some key ∧
      (l.call bound (.dequeue i)).1.Holds i q' := by
  obtain ⟨names, hnames, hnamed⟩ := h
  obtain ⟨a, names', htaken, hkey, hnamed'⟩ := hnamed.exists_dequeue hnext
  rw [call_dequeue bound hnames htaken]
  exact ⟨a, rfl, hkey, names', update_self _ _ _, hnamed'⟩

theorem dequeue_eq_none (h : l.Holds i q) (hnone : q.dequeue = none) :
    l.call bound (.dequeue i) = (l, .taken none) := by
  obtain ⟨names, hnames, hnamed⟩ := h
  have hempty := BoundedQueue.dequeue_eq_none_iff.mp hnone
  have htaken : names.dequeue = none := by
    rw [BoundedQueue.dequeue_eq_none_iff, ← List.length_eq_zero_iff, hnamed.length_eq, hempty]
    rfl
  exact call_dequeue_of_none bound hnames htaken

end Lists.Holds

/-! ## A new key -/

section

variable [DecidableEq ι] [DecidableEq α]

theorem Lists.keys_enqueue (bound : Int32 → ℕ) (l : Lists ι α) (i : ι) (item : Option α) :
    (l.call bound (.enqueue i item)).1.keys = l.keys := by
  unfold Lists.call
  dsimp only
  split
  · rfl
  · rfl

theorem Lists.Free.enqueue {bound : Int32 → ℕ} {l : Lists ι α} {i : ι} {a b : α} (h : l.Free b)
    (hne : b ≠ a) : (l.call bound (.enqueue i (some a))).1.Free b := by
  cases hq : l.queues i with
  | none =>
    simp only [Lists.call, hq]
    exact h
  | some q =>
    rw [call_enqueue bound hq]
    intro j
    by_cases hj : j = i
    · rw [hj, items_update_self]
      intro hmem
      rcases BoundedQueue.mem_items_enqueue hmem with hold | hnew
      · exact h i (items_eq hq ▸ hold)
      · exact hne hnew
    · rw [items_update_of_ne l hj]
      exact h j

/-- `ConstructKey`, `CopyKey` and the two `Enqueue` of `getLastKey` and `getKeyBySha`; `prev` of the
new object is whatever `malloc` left there, and is copied. -/
def loadEvents (i j : ι) (k1 k2 : α) (key : Key) (prev : Option α) : List (Event ι α) :=
  [.store k1 (some ⟨key, prev⟩), .store k2 (some ⟨key, prev⟩), .enqueue i (some k1),
    .enqueue j (some k2)]

/-- They load the key into the queues of a tunnel. -/
theorem loadEvents_spec {l : Lists ι α} {i j : ι} {k1 k2 : α} {k : Keys} (hi : l.Holds i k.q1)
    (hj : l.Holds j k.q2) (hij : i ≠ j) (hk : k2 ≠ k1) (hk1 : l.Free k1) (hk2 : l.Free k2)
    (bound : Int32 → ℕ) (key : Key) (prev : Option α) :
    let next := (feed (Lists.call bound) l (loadEvents i j k1 k2 key prev)).1
    Permitted (Lists.call bound) Lists.Permits l (loadEvents i j k1 k2 key prev) ∧
      next.Holds i (k.load key).q1 ∧ next.Holds j (k.load key).q2 := by
  set l₁ := (l.call bound (.store k1 (some ⟨key, prev⟩))).1 with hl₁
  set l₂ := (l₁.call bound (.store k2 (some ⟨key, prev⟩))).1 with hl₂
  set l₃ := (l₂.call bound (.enqueue i (some k1))).1 with hl₃
  have hfree₁ : l₁.Free k2 := hk2
  have hi₂ : l₂.Holds i k.q1 := (hi.store hk1 _).store hfree₁ _
  have hj₂ : l₂.Holds j k.q2 := (hj.store hk1 _).store hfree₁ _
  have hkey1 : l₂.keys k1 = some key := by
    rw [hl₂, hl₁]
    dsimp only [Lists.call]
    rw [update_of_ne hk.symm, update_self, Option.map_some]
  have hkey2 : l₂.keys k2 = some key := update_self _ _ _
  have hfree₃ : l₃.Free k2 := Lists.Free.enqueue hk2 hk
  have hi₃ : l₃.Holds i (k.q1.enqueue key) := hi₂.enqueue hkey1
  have hj₃ : l₃.Holds j k.q2 := hj₂.enqueue_of_ne hij.symm hi₂.isSome
  have hkey₃ : l₃.keys k2 = some key := by
    rw [hl₃, Lists.keys_enqueue]
    exact hkey2
  refine ⟨⟨hk1, hfree₁, ⟨hi₂.isSome, ?_⟩, ⟨hj₃.isSome, ?_⟩, trivial⟩, ?_, ?_⟩
  · intro a ha
    obtain rfl := Option.some.inj ha
    exact ⟨hkey1 ▸ rfl, hk1⟩
  · intro a ha
    obtain rfl := Option.some.inj ha
    exact ⟨hkey₃ ▸ rfl, hfree₃⟩
  · exact hi₃.enqueue_of_ne hij hj₃.isSome
  · exact hj₃.enqueue hkey₃

end

end QNet.KeyQueue
