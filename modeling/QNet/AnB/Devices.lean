import QNet.Lib.Machine
import QNet.Lib.OrderedSet

/-!
# The device pool of the AnB driver

The driver keeps the boards it serves in an array which is allocated anew for every board added or
removed. `inOrder_iff` says when the array is the set of the boards added and not removed since, in
the order of adding: if and only if every board that is removed is the first one of the pool. With
a board at a later place `deviceRemove` copies too few slots, and from the wrong one, and leaves a
`NULL` among the devices.
-/

namespace QNet.AnB

variable {α : Type*}

/-- `devices` and `devices_count`: the slots of the array, `none` for a slot that is `NULL`. The
array itself is `NULL` while there are no slots. -/
abbrev Pool (α : Type*) := List (Option α)

/-- What the driver reads of a `struct file_entry` to find a device; the address 0 is `NULL`. -/
structure FileEntry where
  device : ℕ
  mapRef : ℕ

/-- The slot at a place; `behind` is the memory behind the array. -/
def slotAt (devices : Pool α) (behind : ℕ → Option α) (place : ℕ) : Option α :=
  devices.getD place (behind (place - devices.length))

/-- `memcpy(&temp[target], &devices[source], number * sizeof(*devices))`. -/
def copySlots (temp devices : Pool α) (behind : ℕ → Option α) (target source number : ℕ) :
    Pool α :=
  temp.mapIdx fun i old ↦
    if target ≤ i ∧ i < target + number then slotAt devices behind (source + (i - target))
    else old

/-- `kzalloc` of this many slots. -/
def kzalloc (number : ℕ) : Pool α := List.replicate number none

theorem getElem?_copySlots (temp devices : Pool α) (behind : ℕ → Option α)
    (target source number i : ℕ) :
    (copySlots temp devices behind target source number)[i]? =
      temp[i]?.map fun old ↦
        if target ≤ i ∧ i < target + number then slotAt devices behind (source + (i - target))
        else old :=
  List.getElem?_mapIdx

theorem length_copySlots (temp devices : Pool α) (behind : ℕ → Option α)
    (target source number : ℕ) :
    (copySlots temp devices behind target source number).length = temp.length :=
  List.length_mapIdx

theorem slotAt_of_lt {devices : Pool α} (behind : ℕ → Option α) {place : ℕ}
    (h : place < devices.length) : slotAt devices behind place = devices[place] :=
  by simp [slotAt, List.getD_eq_getElem?_getD, h]

theorem getElem?_kzalloc (number i : ℕ) :
    (kzalloc number : Pool α)[i]? = if i < number then some none else none :=
  List.getElem?_replicate

variable [DecidableEq α]

/-- `getDeviceNumber`; `none` is -1. -/
def getDeviceNumber (devices : Pool α) (deviceRef : α) : Option ℕ :=
  devices.idxOf? (some deviceRef)

/-- `deviceRemove` when the allocation succeeds. -/
def deviceRemove (devices : Pool α) (deviceRef : α) (behind : ℕ → Option α) : Pool α :=
  match getDeviceNumber devices deviceRef with
  | none => devices
  | some index =>
    if devices.length = 1 then []
    else
      let temp := kzalloc (devices.length - 1)
      let temp :=
        if 1 ≤ index then copySlots temp devices behind 0 (index - 1) (index - 1) else temp
      if index + 1 < devices.length then
        copySlots temp devices behind index (index + 1) (devices.length - index - 1)
      else temp

/-- `deviceAdd` when the allocation succeeds, with its result. -/
def deviceAdd (devices : Pool α) (deviceRef : α) : ℤ × Pool α :=
  match getDeviceNumber devices deviceRef with
  | some _ => (-1, devices)
  | none =>
    let temp := kzalloc (devices.length + 1)
    let temp := copySlots temp devices (fun _ ↦ none) 0 0 devices.length
    (0, temp.set devices.length (some deviceRef))

/-- The loop of `deviceGet` and `deviceGetMap`: the first device whose file has the reference in
this field, `some none` when there is none, and `none` when a `NULL` slot is followed. -/
def search (field : α → ℕ) (ref : ℕ) : Pool α → Option (Option α)
  | [] => some none
  | none :: _ => none
  | some device :: rest =>
    if field device = ref then some (some device) else search field ref rest

/-- The slots this loop reads. -/
def slotsRead (field : α → ℕ) (ref : ℕ) : Pool α → Pool α
  | [] => []
  | none :: _ => [none]
  | some device :: rest =>
    some device :: if field device = ref then [] else slotsRead field ref rest

/-- `deviceGet` and `deviceGetMap`, which differ in the field they compare. -/
def deviceGetBy (field : α → ℕ) (devices : Pool α) (ref : ℕ) : Option (Option α) :=
  if devices = [] ∨ ref = 0 then some none else search field ref devices

def deviceGet (file : α → FileEntry) (devices : Pool α) (miscDeviceRef : ℕ) : Option (Option α) :=
  deviceGetBy (fun device ↦ (file device).device) devices miscDeviceRef

def deviceGetMap (file : α → FileEntry) (devices : Pool α) (mapRef : ℕ) : Option (Option α) :=
  deviceGetBy (fun device ↦ (file device).mapRef) devices mapRef

/-- The slots read by `deviceGet` and `deviceGetMap`. -/
def deviceGetReads (field : α → ℕ) (devices : Pool α) (ref : ℕ) : Pool α :=
  if devices = [] ∨ ref = 0 then [] else slotsRead field ref devices

/-! ## Runs -/

inductive Call (α : Type*)
  | add (deviceRef : α)
  /-- `deviceRemove`, with the memory behind the array at that moment. -/
  | remove (deviceRef : α) (behind : ℕ → Option α)

def call (devices : Pool α) : Call α → Pool α
  | .add deviceRef => (deviceAdd devices deviceRef).2
  | .remove deviceRef behind => deviceRemove devices deviceRef behind

/-- The pool after these calls. -/
def poolAfter (calls : List (Call α)) : Pool α := calls.foldl call []

/-- What a call is to do to the set of devices. -/
def Call.change : Call α → OrderedSet.Change α
  | .add deviceRef => .add deviceRef
  | .remove deviceRef _ => .remove deviceRef

/-- The devices that were added and not removed since, in the order of adding. -/
def live (calls : List (Call α)) : OrderedSet α := OrderedSet.after (calls.map Call.change)

/-- The pool is this set, and no lookup reads a slot that holds none of its devices. -/
structure Holds (present : OrderedSet α) (devices : Pool α) : Prop where
  slots : devices = present.toList.map some
  reads : ∀ (file : α → FileEntry) (ref : ℕ),
    ∀ slot ∈ deviceGetReads (fun device ↦ (file device).device) devices ref ++
        deviceGetReads (fun device ↦ (file device).mapRef) devices ref,
      ∃ device ∈ present, slot = some device

/-- A device that is there is added, or one that is not there is removed. -/
def Idle (present : OrderedSet α) : Call α → Prop
  | .add deviceRef => deviceRef ∈ present
  | .remove deviceRef _ => deviceRef ∉ present

/-- The pool is an ordered set all through these calls. -/
def InOrder (calls : List (Call α)) : Prop :=
  (∀ before, before <+: calls → Holds (live before) (poolAfter before)) ∧
    ∀ before c, before ++ [c] <+: calls → Idle (live before) c →
      poolAfter (before ++ [c]) = poolAfter before

/-- The condition: only the first device of the pool is removed. -/
def RemovesFirst (present : OrderedSet α) : Call α → Prop
  | .add _ => True
  | .remove deviceRef _ => deviceRef ∈ present → present.toList.head? = some deviceRef

/-! ## One call -/

theorem getDeviceNumber_eq_none_iff {devices : List α} {deviceRef : α} :
    getDeviceNumber (devices.map some) deviceRef = none ↔ deviceRef ∉ devices := by
  simp [getDeviceNumber, List.idxOf?_eq_none_iff]

theorem exists_getDeviceNumber {devices : List α} {deviceRef : α} (h : deviceRef ∈ devices) :
    ∃ place, getDeviceNumber (devices.map some) deviceRef = some place := by
  rw [← Option.ne_none_iff_exists', ne_eq, getDeviceNumber_eq_none_iff]
  exact not_not_intro h

theorem deviceRemove_of_notMem {devices : List α} {deviceRef : α} (h : deviceRef ∉ devices)
    (behind : ℕ → Option α) :
    deviceRemove (devices.map some) deviceRef behind = devices.map some := by
  rw [deviceRemove, getDeviceNumber_eq_none_iff.mpr h]

/-- The slots after a removal: those from the removed place on are the ones behind it, the last one
before it is `NULL`, and the others are copied from one place before the removed one on. -/
theorem getElem?_deviceRemove {devices : Pool α} {deviceRef : α} {index : ℕ}
    (hindex : getDeviceNumber devices deviceRef = some index) (behind : ℕ → Option α) {i : ℕ}
    (hi : i + 1 < devices.length) :
    (deviceRemove devices deviceRef behind)[i]? = some
      (if index ≤ i then slotAt devices behind (i + 1)
        else if i + 1 < index then slotAt devices behind (index - 1 + i) else none) := by
  have hbefore : (if 1 ≤ index then
        copySlots (kzalloc (devices.length - 1)) devices behind 0 (index - 1) (index - 1)
      else kzalloc (devices.length - 1))[i]? =
      some (if i + 1 < index then slotAt devices behind (index - 1 + i) else none) := by
    by_cases h : 1 ≤ index
    · rw [if_pos h, getElem?_copySlots, getElem?_kzalloc, if_pos (by omega), Option.map_some]
      by_cases hless : i + 1 < index
      · rw [if_pos (by omega), if_pos hless, Nat.sub_zero]
      · rw [if_neg (by omega), if_neg hless]
    · rw [if_neg h, getElem?_kzalloc, if_pos (by omega), if_neg (by omega)]
  rw [deviceRemove, hindex]
  simp only
  rw [if_neg (by omega)]
  by_cases hlater : index + 1 < devices.length
  · rw [if_pos hlater, getElem?_copySlots, hbefore, Option.map_some]
    by_cases h : index ≤ i
    · rw [if_pos (by omega), if_pos h, show index + 1 + (i - index) = i + 1 by omega]
    · rw [if_neg (by omega), if_neg h]
  · rw [if_neg hlater, hbefore, if_neg (show ¬ index ≤ i by omega)]

theorem length_deviceRemove {devices : Pool α} {deviceRef : α} {index : ℕ}
    (hindex : getDeviceNumber devices deviceRef = some index) (behind : ℕ → Option α) :
    (deviceRemove devices deviceRef behind).length = devices.length - 1 := by
  rw [deviceRemove, hindex]
  by_cases hone : devices.length = 1
  · simp [hone]
  · simp only [hone, ↓reduceIte]
    split <;> split <;> simp [length_copySlots, kzalloc]

/-- The first device is removed as it should be. -/
theorem deviceRemove_head (deviceRef : α) (rest : List α) (behind : ℕ → Option α) :
    deviceRemove ((deviceRef :: rest).map some) deviceRef behind = rest.map some := by
  have hindex : getDeviceNumber ((deviceRef :: rest).map some) deviceRef = some 0 := by
    simp [getDeviceNumber, List.idxOf?_cons]
  apply List.ext_getElem?
  intro i
  by_cases hi : i < rest.length
  · rw [getElem?_deviceRemove hindex behind (by simp [hi]), if_pos (Nat.zero_le i),
      slotAt_of_lt behind (by simp [hi])]
    simp [hi]
  · have hlength := length_deviceRemove hindex behind
    rw [List.length_map, List.length_cons, Nat.add_sub_cancel] at hlength
    rw [List.getElem?_eq_none (by omega), List.getElem?_eq_none (by simp; omega)]

/-- Removing a device at a later place leaves `NULL` in the slot before that place. -/
theorem none_mem_deviceRemove {first : α} {rest : List α} {deviceRef : α}
    (hne : first ≠ deviceRef) (hmem : deviceRef ∈ rest) (behind : ℕ → Option α) :
    none ∈ deviceRemove ((first :: rest).map some) deviceRef behind := by
  obtain ⟨place, hplace⟩ := exists_getDeviceNumber hmem
  have hlt : place < (rest.map some).length := (List.idxOf?_eq_some_iff.mp hplace).1
  have hindex : getDeviceNumber ((first :: rest).map some) deviceRef = some (place + 1) := by
    rw [getDeviceNumber] at hplace ⊢
    rw [List.map_cons, List.idxOf?_cons, hplace]
    simp [hne]
  apply List.mem_of_getElem? (i := place)
  rw [getElem?_deviceRemove hindex behind (by simpa using hlt), if_neg (by omega),
    if_neg (by omega)]

theorem deviceAdd_of_mem {devices : List α} {deviceRef : α} (h : deviceRef ∈ devices) :
    deviceAdd (devices.map some) deviceRef = (-1, devices.map some) := by
  obtain ⟨place, hplace⟩ := exists_getDeviceNumber h
  rw [deviceAdd, hplace]

theorem deviceAdd_of_none {devices : Pool α} {deviceRef : α}
    (h : getDeviceNumber devices deviceRef = none) :
    deviceAdd devices deviceRef = (0, devices ++ [some deviceRef]) := by
  rw [deviceAdd, h]
  simp only [Prod.mk.injEq, true_and]
  apply List.ext_getElem?
  intro i
  rw [List.getElem?_set, getElem?_copySlots, getElem?_kzalloc, length_copySlots, kzalloc,
    List.length_replicate]
  by_cases hlast : devices.length = i
  · rw [if_pos hlast, if_pos (by omega)]
    simp [← hlast]
  · rw [if_neg hlast]
    by_cases hi : i < devices.length
    · rw [if_pos (by omega), Option.map_some, if_pos (by omega), slotAt_of_lt _ (by omega)]
      simp [hi, List.getElem?_append_left]
    · rw [if_neg (by omega), List.getElem?_eq_none (by simp; omega), Option.map_none]

theorem deviceAdd_of_notMem {devices : List α} {deviceRef : α} (h : deviceRef ∉ devices) :
    deviceAdd (devices.map some) deviceRef = (0, (devices ++ [deviceRef]).map some) := by
  rw [deviceAdd_of_none (getDeviceNumber_eq_none_iff.mpr h), List.map_append, List.map_singleton]

/-! ## Lookups -/

omit [DecidableEq α] in
/-- A lookup reads slots of the pool only. -/
theorem deviceGetReads_subset (field : α → ℕ) (devices : Pool α) (ref : ℕ) :
    deviceGetReads field devices ref ⊆ devices := by
  have hsearch : slotsRead field ref devices ⊆ devices := by
    induction devices with
    | nil => exact List.nil_subset _
    | cons slot rest ih =>
      cases slot with
      | none => simp [slotsRead]
      | some device =>
        rw [slotsRead]
        apply List.cons_subset_cons
        by_cases h : field device = ref
        · rw [if_pos h]
          exact List.nil_subset _
        · rw [if_neg h]
          exact ih
  unfold deviceGetReads
  split
  · exact List.nil_subset _
  · exact hsearch

omit [DecidableEq α] in
/-- In a pool of devices a lookup finds the first device with the reference. -/
theorem deviceGetBy_map (field : α → ℕ) (devices : List α) {ref : ℕ} (href : ref ≠ 0) :
    deviceGetBy field (devices.map some) ref =
      some (devices.find? fun device ↦ field device = ref) := by
  have hsearch : search field ref (devices.map some) =
      some (devices.find? fun device ↦ field device = ref) := by
    induction devices with
    | nil => rfl
    | cons device rest ih =>
      rw [List.map_cons, search, List.find?_cons, ih]
      by_cases h : field device = ref
      · simp [h]
      · simp [h]
  rw [deviceGetBy, hsearch]
  cases devices with
  | nil => rfl
  | cons device rest => rw [if_neg (by simp [href])]

omit [DecidableEq α] in
theorem holds_of_slots {present : OrderedSet α} {devices : Pool α}
    (h : devices = present.toList.map some) : Holds present devices where
  slots := h
  reads file ref slot hslot := by
    have hmem : slot ∈ devices := by
      rcases List.mem_append.mp hslot with hslot | hslot
      · exact deviceGetReads_subset _ _ _ hslot
      · exact deviceGetReads_subset _ _ _ hslot
    rw [h] at hmem
    obtain ⟨device, hdevice, rfl⟩ := List.mem_map.mp hmem
    exact ⟨device, hdevice, rfl⟩

omit [DecidableEq α] in
/-- While the pool is the set of devices, a lookup finds the first of them with the reference. -/
theorem deviceGet_of_holds {present : OrderedSet α} {devices : Pool α} (h : Holds present devices)
    (file : α → FileEntry) {ref : ℕ} (href : ref ≠ 0) :
    deviceGet file devices ref =
        some (present.toList.find? fun device ↦ (file device).device = ref) ∧
      deviceGetMap file devices ref =
        some (present.toList.find? fun device ↦ (file device).mapRef = ref) := by
  rw [h.slots, deviceGet, deviceGetMap]
  exact ⟨deviceGetBy_map _ _ href, deviceGetBy_map _ _ href⟩

/-! ## Sequences of calls -/

omit [DecidableEq α] in
theorem change_eq_remove_iff {c : Call α} {device : α} :
    c.change = .remove device ↔ ∃ behind, c = .remove device behind := by
  cases c with
  | add deviceRef => simp [Call.change]
  | remove deviceRef behind => simp [Call.change]

/-- The devices that are live were added and not removed since. -/
theorem mem_live_iff {calls : List (Call α)} {device : α} :
    device ∈ live calls ↔
      ∃ before since, calls = before ++ .add device :: since ∧
        ∀ behind, .remove device behind ∉ since := by
  rw [live, OrderedSet.mem_after_iff]
  constructor
  · rintro ⟨before, since, h, hsince⟩
    obtain ⟨before, rest, rfl, rfl, hrest⟩ := List.map_eq_append_iff.mp h
    obtain ⟨c, since, rfl, hc, rfl⟩ := List.map_eq_cons_iff.mp hrest
    cases c with
    | add deviceRef =>
      obtain rfl := OrderedSet.Change.add.inj hc
      exact ⟨before, since, rfl, fun behind hmem ↦ hsince (List.mem_map_of_mem hmem)⟩
    | remove deviceRef behind => cases hc
  · rintro ⟨before, since, rfl, hsince⟩
    refine ⟨before.map Call.change, since.map Call.change, by simp [Call.change], fun hmem ↦ ?_⟩
    obtain ⟨c, hc, hchange⟩ := List.mem_map.mp hmem
    obtain ⟨behind, rfl⟩ := change_eq_remove_iff.mp hchange
    exact hsince behind hc

/-- One call keeps the pool to the set of devices if and only if it removes no device but the
first. -/
theorem holds_call_iff {present : OrderedSet α} {devices : Pool α} (h : Holds present devices)
    (c : Call α) : Holds (present.change c.change) (call devices c) ↔ RemovesFirst present c := by
  obtain rfl := h.slots
  cases c with
  | add deviceRef =>
    refine iff_of_true (holds_of_slots ?_) trivial
    rw [call, Call.change, OrderedSet.change]
    by_cases hmem : deviceRef ∈ present
    · rw [deviceAdd_of_mem hmem, OrderedSet.add_of_mem hmem]
    · rw [deviceAdd_of_notMem hmem, OrderedSet.toList_add_of_notMem hmem]
  | remove deviceRef behind =>
    rw [call, Call.change, OrderedSet.change, RemovesFirst]
    by_cases hmem : deviceRef ∈ present
    · obtain ⟨first, rest, hlist⟩ := List.exists_cons_of_ne_nil (List.ne_nil_of_mem hmem)
      by_cases hfirst : first = deviceRef
      · refine iff_of_true (holds_of_slots ?_) fun _ ↦ by rw [hlist, hfirst]; rfl
        rw [OrderedSet.toList_remove, hlist, hfirst, deviceRemove_head, List.erase_cons_head]
      · refine iff_of_false (fun hholds ↦ ?_) fun hhead ↦ hfirst ?_
        · have hrest : deviceRef ∈ rest := by
            rw [OrderedSet.mem_def, hlist] at hmem
            exact (List.mem_cons.mp hmem).resolve_left (Ne.symm hfirst)
          have hnone := none_mem_deviceRemove hfirst hrest behind
          rw [← hlist, hholds.slots] at hnone
          simp at hnone
        · rw [hlist] at hhead
          exact Option.some.inj (hhead hmem)
    · refine iff_of_true (holds_of_slots ?_) fun h ↦ absurd h hmem
      rw [deviceRemove_of_notMem hmem, OrderedSet.remove_of_notMem hmem]

theorem call_of_idle {present : OrderedSet α} {devices : Pool α} (h : Holds present devices)
    {c : Call α} (hidle : Idle present c) : call devices c = devices := by
  obtain rfl := h.slots
  cases c with
  | add deviceRef => rw [call, deviceAdd_of_mem hidle]
  | remove deviceRef behind => rw [call, deviceRemove_of_notMem hidle]

/-- The pool and the set of devices, one call further. -/
def next (s : OrderedSet α × Pool α) (c : Call α) : OrderedSet α × Pool α :=
  (s.1.change c.change, call s.2 c)

theorem live_concat (calls : List (Call α)) (c : Call α) :
    live (calls ++ [c]) = (live calls).change c.change := by
  rw [live, List.map_append, List.map_singleton, OrderedSet.after_concat, live]

theorem poolAfter_concat (calls : List (Call α)) (c : Call α) :
    poolAfter (calls ++ [c]) = call (poolAfter calls) c := by
  rw [poolAfter, List.foldl_append, List.foldl_cons, List.foldl_nil, poolAfter]

theorem foldl_next (calls : List (Call α)) :
    calls.foldl next (OrderedSet.empty, []) = (live calls, poolAfter calls) := by
  induction calls using List.reverseRecOn with
  | nil => rfl
  | append_singleton calls c ih =>
    rw [List.foldl_append, ih, live_concat, poolAfter_concat]
    rfl

/-- The pool is the set of the devices added and not removed since, in the order of adding, if and
only if every device that is removed is the first one at that time. -/
theorem inOrder_iff (calls : List (Call α)) :
    InOrder calls ↔
      ∀ before c, before ++ [c] <+: calls → RemovesFirst (live before) c := by
  have hiff : (∀ before, before <+: calls →
        Holds (before.foldl next (OrderedSet.empty, [])).1
          (before.foldl next (OrderedSet.empty, [])).2) ↔
      ∀ before c, before ++ [c] <+: calls →
        RemovesFirst (before.foldl next (OrderedSet.empty, [])).1 c :=
    foldl_invariant_iff (P := fun s : OrderedSet α × Pool α ↦ Holds s.1 s.2)
      (C := fun s c ↦ RemovesFirst s.1 c) (holds_of_slots rfl) fun s hs c _ ↦ holds_call_iff hs c
  simp only [foldl_next] at hiff
  rw [← hiff]
  refine and_iff_left_of_imp fun hall before c hpart hidle ↦ ?_
  have hbefore := hall before ((List.prefix_append before [c]).trans hpart)
  rw [poolAfter_concat]
  exact call_of_idle hbefore hidle

/-- Two devices are added and the second one is removed: the pool is one `NULL`. -/
theorem not_inOrder_second : ¬ ∀ calls : List (Call ℕ), InOrder calls := by
  intro h
  have hpool := ((h [.add 1, .add 2, .remove 2 fun _ ↦ none]).1 _ (List.prefix_refl _)).slots
  exact absurd hpool (by decide)

end QNet.AnB
