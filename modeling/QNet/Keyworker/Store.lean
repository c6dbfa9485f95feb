import QNet.Lib.RecordQueue
import QNet.Lib.Table
import Mathlib.Logic.Function.Basic

/-!
# The store of the keyworker

The keyworker keeps its keys in a main database, a BTREE under the SHA of the key, and for every
device in a support database, a QUEUE with the SHAs of the keys that were not handed out. Each
function runs in one transaction, so it is one step here.

What the databases decide or report is an input: the record number of an appended entry, the
clock, and for `getLastKeyDevice` which of the calls fail. `putKey` writes only one of the four
bytes of `usage`; what lay in the other three is an input too.

The handle of device -1 is the main database itself. An append or a consuming read there fails,
because a BTREE has no record numbers.
-/

namespace QNet.Keyworker

open Std

/-- `KEY`, as far as the store looks at it. -/
structure Key where
  sha : Bytes32
  key : Bytes32

/-- `KEY_IN_DB`. -/
structure Record where
  key : Bytes32
  addedtime : UInt32
  lastusagetime : UInt32
  usage : UInt32
  device : UInt32
  numInSupport : UInt32
  deriving DecidableEq

/-- The device whose handle is that of the main database. -/
def mainDevice : UInt32 := 4294967295

/-- The main database and the support databases of all other devices. -/
structure Store where
  main : TreeMap Bytes32 Record memcmp
  support : { device : UInt32 // device ≠ mainDevice } → RecordQueue UInt32 Bytes32

namespace Store

def empty : Store := ⟨∅, fun _ ↦ .empty⟩

def find (s : Store) (sha : Bytes32) : Option Record := s.main[sha]?

/-- `put` in the main database. -/
def put (s : Store) (sha : Bytes32) (record : Record) : Store :=
  { s with main := s.main.insert sha record }

def setSupport (s : Store) (device : { device : UInt32 // device ≠ mainDevice })
    (q : RecordQueue UInt32 Bytes32) : Store :=
  { s with support := Function.update s.support device q }

/-- `put` with `DB_APPEND` in a support database. -/
def append (s : Store) (device recno : UInt32) (sha : Bytes32) : Option Store :=
  if h : device = mainDevice then none
  else ((s.support ⟨device, h⟩).append recno sha).map (s.setSupport ⟨device, h⟩)

/-- `del` in a support database. -/
def delete (s : Store) (device recno : UInt32) : Option Store :=
  if h : device = mainDevice then none
  else ((s.support ⟨device, h⟩).delete recno).map (s.setSupport ⟨device, h⟩)

/-- `get` with `DB_CONSUME` in a support database. -/
def consume (s : Store) (device : UInt32) : Option (Bytes32 × Store) :=
  if h : device = mainDevice then none
  else (s.support ⟨device, h⟩).consume.map fun next ↦ (next.1.2, s.setSupport ⟨device, h⟩ next.2)

end Store

/-! ## The functions -/

/-- The usage that `putKey` stores: it sets the lowest byte of an uninitialised field. -/
def initialUsage (garbage : UInt32) : UInt32 := garbage &&& 0xFFFFFF00

def putKey (now garbage recno : UInt32) (k : Key) (device : UInt32) (s : Store) : ℤ × Store :=
  if (s.find k.sha).isSome then (-1, s)
  else
    match s.append device recno k.sha with
    | none => (-1, s)
    | some appended =>
        (0, appended.put k.sha ⟨k.key, now, now, initialUsage garbage, device, recno⟩)

def assignDeviceBySha (now recno : UInt32) (sha : Bytes32) (device : UInt32) (s : Store) :
    ℤ × Store :=
  match s.find sha with
  | none => (1, s)
  | some record =>
      if record.usage = 0 then
        match s.delete record.device record.numInSupport with
        | none => (1, s)
        | some deleted =>
            match deleted.append device recno sha with
            | none => (-1, s)
            | some appended =>
                (0, appended.put sha
                  { record with numInSupport := recno, lastusagetime := now, device := device })
      else (0, s.put sha { record with lastusagetime := now, device := device })

def getByKey (sha : Bytes32) (s : Store) : Option Record := s.find sha

/-- The database calls inside `getLastKeyDevice` that fail. -/
structure Faults where
  begin : Bool
  /-- `get` with `DB_CONSUME`. -/
  consume : Bool
  /-- `get` with `DB_SET`. -/
  lookup : Bool
  /-- `put` with `DB_CURRENT`; its result is not looked at. -/
  update : Bool
  /-- After so many successful `get` calls of the scan. -/
  scan : Option ℕ
  commit : Bool

/-- All calls succeed. -/
def Faults.none : Faults := ⟨false, false, false, false, .none, false⟩

/-- The record when its key is handed out. -/
def Record.handOut (record : Record) (now : UInt32) : Record :=
  { record with
    lastusagetime := now
    usage := if record.usage < 1000000 then record.usage + 1 else record.usage }

/-- Hand out a record that was found: it is written back and the transaction is committed. When the
commit fails, the key is returned although the store is as it was before. -/
def handOut (faults : Faults) (now : UInt32) (sha : Bytes32) (record : Record)
    (before consumed : Store) : Option (Bytes32 × Record) × Store :=
  let k := record.handOut now
  (some (sha, k),
    if faults.commit then before
    else if faults.update then consumed else consumed.put sha k)

/-- The record comes with the SHA under which it is stored. -/
def getLastKeyDevice (faults : Faults) (now device : UInt32) (s : Store) :
    Option (Bytes32 × Record) × Store :=
  if faults.begin then (none, s)
  else
    match if faults.consume then none else s.consume device with
    | some (sha, consumed) =>
        match if faults.lookup then none else consumed.find sha with
        | none => (none, s)
        | some record => handOut faults now sha record s consumed
    | none =>
        match Table.lastWhere s.main (fun record ↦ record.device = device) faults.scan with
        | none => (none, s)
        | some (sha, record) => handOut faults now sha record s s

/-! ## What the database calls do -/

namespace Store

variable {s s' : Store} {device recno : UInt32} {sha : Bytes32}

/-- The entries of the support database of a device. -/
def entries (s : Store) (device : UInt32) : List (UInt32 × Bytes32) :=
  if h : device = mainDevice then [] else (s.support ⟨device, h⟩).entries

@[simp]
theorem entries_empty (device : UInt32) : empty.entries device = [] := by
  unfold entries
  split_ifs <;> rfl

@[simp]
theorem find_empty (sha : Bytes32) : empty.find sha = none := TreeMap.getElem?_emptyc

theorem nodup_entries (s : Store) (device : UInt32) :
    ((s.entries device).map Prod.fst).Nodup := by
  unfold entries
  split_ifs with h
  · exact List.nodup_nil
  · exact (s.support ⟨device, h⟩).nodup

@[simp]
theorem find_put (s : Store) (sha other : Bytes32) (record : Record) :
    (s.put sha record).find other = if other = sha then some record else s.find other :=
  Table.getElem?_insert s.main sha other record

@[simp]
theorem entries_put (s : Store) (sha : Bytes32) (record : Record) (device : UInt32) :
    (s.put sha record).entries device = s.entries device := rfl

/-- The second store has the records of the first and other entries for one device. -/
structure Requeued (s s' : Store) (device : UInt32) (after : List (UInt32 × Bytes32)) : Prop where
  find : ∀ sha, s'.find sha = s.find sha
  entries : ∀ other, s'.entries other = if other = device then after else s.entries other

theorem requeued_setSupport (s : Store) {device : UInt32} (h : device ≠ mainDevice)
    (q : RecordQueue UInt32 Bytes32) :
    Requeued s (s.setSupport ⟨device, h⟩ q) device q.entries where
  find _ := rfl
  entries other := by
    unfold entries setSupport
    by_cases hother : other = device
    · subst hother
      rw [if_pos rfl, dif_neg h]
      have hself :=
        Function.update_self (⟨other, h⟩ : { device // device ≠ mainDevice }) q s.support
      exact congrArg RecordQueue.entries hself
    · rw [if_neg hother]
      split_ifs with hmain
      · rfl
      · have hne : (⟨other, hmain⟩ : { device : UInt32 // device ≠ mainDevice }) ≠ ⟨device, h⟩ :=
          fun heq ↦ hother (congrArg Subtype.val heq)
        exact congrArg RecordQueue.entries (Function.update_of_ne hne q s.support)

theorem entries_of_ne {device : UInt32} (h : device ≠ mainDevice) (s : Store) :
    s.entries device = (s.support ⟨device, h⟩).entries := dif_neg h

theorem append_cases (h : s.append device recno sha = some s') :
    Requeued s s' device (s.entries device ++ [(recno, sha)]) := by
  unfold append at h
  split_ifs at h with hdevice
  obtain ⟨q, hq, rfl⟩ := Option.map_eq_some_iff.mp h
  rw [entries_of_ne hdevice, ← (RecordQueue.append_eq_some_iff.mp hq).2]
  exact requeued_setSupport s hdevice q

theorem delete_cases (h : s.delete device recno = some s') :
    (∃ sha, (recno, sha) ∈ s.entries device) ∧
      Requeued s s' device ((s.entries device).filter (·.1 ≠ recno)) := by
  unfold delete at h
  split_ifs at h with hdevice
  obtain ⟨q, hq, rfl⟩ := Option.map_eq_some_iff.mp h
  obtain ⟨hfound, hentries⟩ := RecordQueue.delete_eq_some_iff.mp hq
  rw [entries_of_ne hdevice, ← hentries]
  exact ⟨hfound, requeued_setSupport s hdevice q⟩

theorem consume_cases (h : s.consume device = some (sha, s')) :
    ∃ recno rest, s.entries device = (recno, sha) :: rest ∧ Requeued s s' device rest := by
  unfold consume at h
  split_ifs at h with hdevice
  obtain ⟨⟨⟨recno, sha'⟩, q⟩, hq, heq⟩ := Option.map_eq_some_iff.mp h
  cases heq
  refine ⟨recno, q.entries, ?_, requeued_setSupport s hdevice q⟩
  rw [entries_of_ne hdevice]
  exact RecordQueue.consume_eq_some_iff.mp hq

theorem consume_eq_none (h : s.consume device = none) : s.entries device = [] := by
  unfold consume at h
  unfold entries
  split_ifs at h ⊢
  · rfl
  · exact RecordQueue.consume_eq_none_iff.mp (Option.map_eq_none_iff.mp h)

end Store

end QNet.Keyworker
