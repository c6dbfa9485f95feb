import QNet.Keyworker.Store
import QNet.Lib.Machine

/-!
# The registry of database handles

The keyworker opens the support database of a device when the device is first mentioned, and keeps
the handles of all databases in an array; the entry -1 is the main database. The functions pass
the number of a device as `unsigned` and the array holds it as `int`.

`sound_iff` says when the registry works: if and only if the device 4294967295, whose number is -1
as an `int`, is never asked for, and no database call fails for a device that has no entry yet. A
failed call leaves an entry with a pointer that was never set.
-/

namespace QNet.Keyworker

/-- `DB_IN_ARRAY`. Handles are numbered in the order in which `db_create` makes them; any other
number is a pointer to no handle, and 0 is `NULL`. -/
structure Entry where
  devnum : Int32
  dbhandle : ℕ
  deriving DecidableEq

/-- The `HandlerArray`, and of the database the number of handles made and those that are open. -/
structure Registry where
  array : List Entry
  created : ℕ
  opened : List ℕ
  deriving DecidableEq

/-- What `db_create`, `set_re_len` and `open` return, by whether it is not 0, and the pointer that
lies in the element that `realloc` adds. -/
structure OpenCalls where
  create : Bool
  setReLen : Bool
  openDb : Bool
  garbage : ℕ

def mainHandle : ℕ := 1

/-- `initArray` when it succeeds. -/
def initArray : Registry := ⟨[⟨-1, mainHandle⟩], 1, [mainHandle]⟩

/-- `getOrCreateHandler`, whose calls exclude each other. -/
def getOrCreateHandler (a : Registry) (num : Int32) (calls : OpenCalls) : ℕ × Registry :=
  match a.array.find? (·.devnum = num) with
  | some entry => (entry.dbhandle, a)
  | none =>
    let a := { a with array := a.array ++ [⟨num, calls.garbage⟩] }
    if calls.create then (0, a)
    else
      let dbhandle := a.created + 1
      let a := { a with created := dbhandle }
      if calls.setReLen then (0, a)
      else if calls.openDb then (0, a)
      else
        (dbhandle,
          { a with
            array := a.array.set (a.array.length - 1) ⟨num, dbhandle⟩
            opened := a.opened ++ [dbhandle] })

/-! ## Sequences of calls -/

/-- A call for a device, as `putKey`, `assignDeviceBySha` and `getLastKeyDevice` make it. -/
structure Request where
  device : UInt32
  calls : OpenCalls

/-- The registry, and every call so far with its result. -/
structure Served where
  registry : Registry
  log : List (UInt32 × ℕ)
  deriving DecidableEq

namespace Served

def start : Served := ⟨initArray, []⟩

def result (s : Served) (r : Request) : ℕ :=
  (getOrCreateHandler s.registry r.device.toInt32 r.calls).1

def request (s : Served) (r : Request) : Served where
  registry := (getOrCreateHandler s.registry r.device.toInt32 r.calls).2
  log := s.log ++ [(r.device, s.result r)]

def after (requests : List Request) : Served := requests.foldl request start

/-- All devices that got a handle got one of their own, which is open and not the main one. -/
structure Lawful (s : Served) : Prop where
  own : ∀ a ∈ s.log, ∀ b ∈ s.log, a.2 ≠ 0 → b.2 ≠ 0 → (a.1 = b.1 ↔ a.2 = b.2)
  notMain : ∀ a ∈ s.log, a.2 ≠ mainHandle
  opened : ∀ a ∈ s.log, a.2 = 0 ∨ a.2 ∈ s.registry.opened

/-- The devices keep their handles with this call, and a call that fails leaves the array alone. -/
def Sound (s : Served) (r : Request) : Prop :=
  (s.request r).Lawful ∧ (s.result r = 0 → (s.request r).registry.array = s.registry.array)

/-- The device has an entry in the array. -/
def Registered (s : Served) (device : UInt32) : Prop :=
  ∃ entry ∈ s.registry.array, entry.devnum = device.toInt32

/-- The condition: the number is not that of the main database, and a device without an entry meets
no failure. -/
def Opens (s : Served) (r : Request) : Prop :=
  r.device ≠ mainDevice ∧
    (s.Registered r.device ∨
      r.calls.create = false ∧ r.calls.setReLen = false ∧ r.calls.openDb = false)

end Served

/-! ## One call -/

/-- Every entry has an open handle of its own. -/
structure Registry.Filled (a : Registry) : Prop where
  main : ⟨-1, mainHandle⟩ ∈ a.array
  numbers : (a.array.map Entry.devnum).Nodup
  handles : (a.array.map Entry.dbhandle).Nodup
  opened : ∀ entry ∈ a.array, entry.dbhandle ∈ a.opened
  created : ∀ entry ∈ a.array, entry.dbhandle ≠ 0 ∧ entry.dbhandle ≤ a.created

theorem filled_initArray : initArray.Filled where
  main := List.mem_cons_self
  numbers := List.nodup_singleton _
  handles := List.nodup_singleton _
  opened := by simp [initArray]
  created := by simp [initArray, mainHandle]

variable {a : Registry} {num : Int32} {calls : OpenCalls}

theorem find?_eq_none_of_new (hnew : ∀ entry ∈ a.array, entry.devnum ≠ num) :
    a.array.find? (·.devnum = num) = none := by
  rw [List.find?_eq_none]
  intro entry hentry
  simpa using hnew entry hentry

theorem getOrCreateHandler_of_mem (ha : a.Filled) {entry : Entry} (hmem : entry ∈ a.array)
    (hnum : entry.devnum = num) (calls : OpenCalls) :
    getOrCreateHandler a num calls = (entry.dbhandle, a) := by
  have hfind : a.array.find? (·.devnum = num) = some entry := by
    cases hfound : a.array.find? (·.devnum = num) with
    | none => exact absurd hnum (by simpa using List.find?_eq_none.mp hfound entry hmem)
    | some found =>
      have hfoundNum : found.devnum = num := by simpa using List.find?_some hfound
      have hfoundMem := List.mem_of_find?_eq_some hfound
      exact congrArg some
        (List.inj_on_of_nodup_map ha.numbers hfoundMem hmem (hfoundNum.trans hnum.symm))
  rw [getOrCreateHandler, hfind]

theorem getOrCreateHandler_of_fails (hnew : ∀ entry ∈ a.array, entry.devnum ≠ num)
    (hfails : ¬ (calls.create = false ∧ calls.setReLen = false ∧ calls.openDb = false)) :
    (getOrCreateHandler a num calls).1 = 0 ∧
      (getOrCreateHandler a num calls).2.array = a.array ++ [⟨num, calls.garbage⟩] := by
  rw [getOrCreateHandler, find?_eq_none_of_new hnew]
  cases hcreate : calls.create with
  | true => exact ⟨rfl, rfl⟩
  | false =>
    cases hsetReLen : calls.setReLen with
    | true => exact ⟨rfl, rfl⟩
    | false =>
      have hopen : calls.openDb = true := by simpa [hcreate, hsetReLen] using hfails
      simp [hopen]

theorem getOrCreateHandler_of_succeeds (hnew : ∀ entry ∈ a.array, entry.devnum ≠ num)
    (hopens : calls.create = false ∧ calls.setReLen = false ∧ calls.openDb = false) :
    getOrCreateHandler a num calls =
      (a.created + 1,
        ⟨a.array ++ [⟨num, a.created + 1⟩], a.created + 1, a.opened ++ [a.created + 1]⟩) := by
  rw [getOrCreateHandler, find?_eq_none_of_new hnew]
  simp [hopens]

/-- The new handle is one that no entry has. -/
theorem Registry.Filled.append (ha : a.Filled) (hnew : ∀ entry ∈ a.array, entry.devnum ≠ num) :
    Registry.Filled
      ⟨a.array ++ [⟨num, a.created + 1⟩], a.created + 1, a.opened ++ [a.created + 1]⟩ where
  main := List.mem_append_left _ ha.main
  numbers := by
    rw [List.map_append, List.map_singleton, ← List.concat_eq_append]
    refine ha.numbers.concat fun hmem ↦ ?_
    obtain ⟨entry, hentry, hnum⟩ := List.mem_map.mp hmem
    exact hnew entry hentry hnum
  handles := by
    rw [List.map_append, List.map_singleton, ← List.concat_eq_append]
    refine ha.handles.concat fun hmem ↦ ?_
    obtain ⟨entry, hentry, hhandle⟩ := List.mem_map.mp hmem
    exact absurd (ha.created entry hentry).2 (hhandle ▸ Nat.not_succ_le_self _)
  opened entry hentry := by
    rcases List.mem_append.mp hentry with hold | hlast
    · exact List.mem_append_left _ (ha.opened entry hold)
    · rw [List.mem_singleton.mp hlast]
      exact List.mem_append_right _ List.mem_cons_self
  created entry hentry := by
    rcases List.mem_append.mp hentry with hold | hlast
    · have hcreated := ha.created entry hold
      exact ⟨hcreated.1, Nat.le_succ_of_le hcreated.2⟩
    · rw [List.mem_singleton.mp hlast]
      exact ⟨Nat.succ_ne_zero _, le_rfl⟩

/-! ## Sequences of calls keep the registry -/

theorem toInt32_inj {device other : UInt32} :
    device.toInt32 = other.toInt32 ↔ device = other :=
  ⟨congrArg Int32.toUInt32, congrArg UInt32.toInt32⟩

/-- The number of a device other than -1 is not that of the main database. -/
theorem toInt32_eq_main_iff {device : UInt32} : device.toInt32 = -1 ↔ device = mainDevice := by
  have hmain : mainDevice.toInt32 = -1 := by decide
  rw [← hmain, toInt32_inj]

namespace Served

variable {s : Served} {r : Request}

/-- All results so far are entries of the array, and the main database is not among them. -/
structure Kept (s : Served) : Prop where
  filled : s.registry.Filled
  logged : ∀ call ∈ s.log, call.1 ≠ mainDevice ∧ ⟨call.1.toInt32, call.2⟩ ∈ s.registry.array

theorem kept_start : start.Kept := ⟨filled_initArray, nofun⟩

theorem Kept.lawful (hs : s.Kept) : s.Lawful where
  own first hfirst second hsecond _ _ := by
    have hfirst := (hs.logged first hfirst).2
    have hsecond := (hs.logged second hsecond).2
    constructor
    · intro hdevice
      have hentry := List.inj_on_of_nodup_map hs.filled.numbers hfirst hsecond
        (congrArg UInt32.toInt32 hdevice)
      exact congrArg Entry.dbhandle hentry
    · intro hhandle
      have hentry := List.inj_on_of_nodup_map hs.filled.handles hfirst hsecond hhandle
      exact toInt32_inj.mp (congrArg Entry.devnum hentry)
  notMain call hcall hmain := by
    obtain ⟨hdevice, hmem⟩ := hs.logged call hcall
    have hentry := List.inj_on_of_nodup_map hs.filled.handles hmem hs.filled.main hmain
    exact hdevice (toInt32_eq_main_iff.mp (congrArg Entry.devnum hentry))
  opened call hcall := Or.inr (hs.filled.opened _ (hs.logged call hcall).2)

/-- A call for a device whose entry is there. -/
theorem Kept.request_of_mem (hs : s.Kept) (hdevice : r.device ≠ mainDevice) {entry : Entry}
    (hmem : entry ∈ s.registry.array) (hnum : entry.devnum = r.device.toInt32) :
    s.result r = entry.dbhandle ∧ (s.request r).registry = s.registry ∧ (s.request r).Kept := by
  have hcall := getOrCreateHandler_of_mem hs.filled hmem hnum r.calls
  have hresult : s.result r = entry.dbhandle := by rw [result, hcall]
  have hregistry : (s.request r).registry = s.registry := by rw [request, hcall]
  refine ⟨hresult, hregistry, hregistry ▸ hs.filled, fun call hmem' ↦ ?_⟩
  rw [hregistry]
  rcases List.mem_append.mp hmem' with hold | hlast
  · exact hs.logged call hold
  · rw [List.mem_singleton.mp hlast, hresult, ← hnum]
    exact ⟨hdevice, hmem⟩

/-- A call that opens the database of a device. -/
theorem Kept.request_of_opens (hs : s.Kept) (hdevice : r.device ≠ mainDevice)
    (hnew : ¬ s.Registered r.device)
    (hopens : r.calls.create = false ∧ r.calls.setReLen = false ∧ r.calls.openDb = false) :
    s.result r ≠ 0 ∧ (s.request r).Kept := by
  have hentries : ∀ entry ∈ s.registry.array, entry.devnum ≠ r.device.toInt32 :=
    fun entry hentry hnum ↦ hnew ⟨entry, hentry, hnum⟩
  have hcall := getOrCreateHandler_of_succeeds hentries hopens
  have hresult : s.result r = s.registry.created + 1 := by rw [result, hcall]
  refine ⟨hresult ▸ Nat.succ_ne_zero _, ?_, fun call hmem ↦ ?_⟩
  · rw [request, hcall]
    exact hs.filled.append hentries
  · rw [request, hcall]
    rcases List.mem_append.mp hmem with hold | hlast
    · have hlogged := hs.logged call hold
      exact ⟨hlogged.1, List.mem_append_left _ hlogged.2⟩
    · rw [List.mem_singleton.mp hlast, hresult]
      exact ⟨hdevice, List.mem_append_right _ List.mem_cons_self⟩

theorem Kept.request (hs : s.Kept) (hopens : s.Opens r) : (s.request r).Kept := by
  obtain ⟨hdevice, hcalls⟩ := hopens
  by_cases hregistered : s.Registered r.device
  · obtain ⟨entry, hmem, hnum⟩ := hregistered
    exact (hs.request_of_mem hdevice hmem hnum).2.2
  · exact (hs.request_of_opens hdevice hregistered (hcalls.resolve_left hregistered)).2

/-- One call keeps to the rules if and only if it meets the condition. -/
theorem Kept.sound_iff_opens (hs : s.Kept) (r : Request) : s.Sound r ↔ s.Opens r := by
  constructor
  · rintro ⟨hlawful, hfailed⟩
    have hlast : (r.device, s.result r) ∈ (s.request r).log :=
      List.mem_append_right _ List.mem_cons_self
    have hdevice : r.device ≠ mainDevice := by
      intro hmain
      have hnum : (⟨-1, mainHandle⟩ : Entry).devnum = r.device.toInt32 :=
        (toInt32_eq_main_iff.mpr hmain).symm
      have hcall := getOrCreateHandler_of_mem hs.filled hs.filled.main hnum r.calls
      refine hlawful.notMain _ hlast ?_
      rw [result, hcall]
    refine ⟨hdevice, ?_⟩
    by_contra hnot
    obtain ⟨hnew, hfails⟩ := not_or.mp hnot
    have hentries : ∀ entry ∈ s.registry.array, entry.devnum ≠ r.device.toInt32 :=
      fun entry hentry hnum ↦ hnew ⟨entry, hentry, hnum⟩
    obtain ⟨hnull, harray⟩ := getOrCreateHandler_of_fails hentries hfails
    have hsame := hfailed hnull
    rw [Served.request, harray] at hsame
    exact absurd hsame (by simp)
  · intro hopens
    refine ⟨(hs.request hopens).lawful, fun hnull ↦ ?_⟩
    obtain ⟨hdevice, hcalls⟩ := hopens
    by_cases hregistered : s.Registered r.device
    · obtain ⟨entry, hmem, hnum⟩ := hregistered
      exact congrArg Registry.array (hs.request_of_mem hdevice hmem hnum).2.1
    · have hresult := (hs.request_of_opens hdevice hregistered (hcalls.resolve_left hregistered)).1
      exact absurd hnull hresult

/-- The registry of handles works all through a sequence of calls if and only if all of them meet
the condition. -/
theorem sound_iff (requests : List Request) :
    (∀ before r, before ++ [r] <+: requests → (after before).Sound r) ↔
      ∀ before r, before ++ [r] <+: requests → (after before).Opens r :=
  foldl_steps_iff (I := Kept) kept_start (fun _ r hs ↦ hs.sound_iff_opens r)
    (fun _ _ hs hopens ↦ hs.request hopens) requests

/-- The device 4294967295 gets the handle of the main database. -/
theorem not_sound_mainDevice :
    ¬ ∀ requests : List Request,
      ∀ before r, before ++ [r] <+: requests → (after before).Sound r := by
  intro h
  have hsound := h [⟨mainDevice, ⟨false, false, false, 0⟩⟩] [] _ (List.prefix_refl _)
  exact hsound.1.notMain (mainDevice, mainHandle) (by decide) rfl

end Served

end QNet.Keyworker
