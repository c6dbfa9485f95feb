import QNet.Keyworker.Steps

/-!
# Histories of the keyworker

The functions of the keyworker are called in any order, by any number of threads; each call is one
transaction. Beside the store a history keeps what an observer of the calls and their results knows:
which keys were handed out, and, for every device, the keys that were added or assigned to it and
were not handed out, in the order in which this happened.
-/

namespace QNet.Keyworker

open Store

inductive Event
  | putKey (now garbage recno : UInt32) (k : Key) (device : UInt32)
  | assignDeviceBySha (now recno : UInt32) (sha : Bytes32) (device : UInt32)
  | getByKey (sha : Bytes32)
  | getLastKeyDevice (faults : Faults) (now device : UInt32)

structure World where
  store : Store
  /-- The keys handed out, the latest last. -/
  handed : List Bytes32
  /-- The keys of a device that were never handed out, the first one first. -/
  pending : UInt32 → List Bytes32

namespace World

/-- Empty databases. -/
def init : World := ⟨.empty, [], fun _ ↦ []⟩

/-- The observer's list after the key went to the end of a device's queue. -/
def place (pending : UInt32 → List Bytes32) (sha : Bytes32) (device : UInt32) :
    UInt32 → List Bytes32 :=
  fun other ↦ (pending other).filter (· ≠ sha) ++ if other = device then [sha] else []

/-- The observer's list after the key was handed out. -/
def take (pending : UInt32 → List Bytes32) (sha : Bytes32) : UInt32 → List Bytes32 :=
  fun other ↦ (pending other).filter (· ≠ sha)

def afterPutKey (w : World) (k : Key) (device : UInt32) (result : ℤ × Store) : World :=
  { w with
    store := result.2
    pending := if result.1 = 0 then place w.pending k.sha device else w.pending }

def afterAssign (w : World) (sha : Bytes32) (device : UInt32) (result : ℤ × Store) : World :=
  { w with
    store := result.2
    pending := if result.1 = 0 ∧ sha ∉ w.handed then place w.pending sha device else w.pending }

def afterGetLast (w : World) (result : Option (Bytes32 × Record) × Store) : World :=
  match result.1 with
  | none => { w with store := result.2 }
  | some (sha, _) => ⟨result.2, w.handed ++ [sha], take w.pending sha⟩

def next (w : World) : Event → World
  | .putKey now garbage recno k device =>
      w.afterPutKey k device (putKey now garbage recno k device w.store)
  | .assignDeviceBySha now recno sha device =>
      w.afterAssign sha device (assignDeviceBySha now recno sha device w.store)
  -- It only reads.
  | .getByKey _ => w
  | .getLastKeyDevice faults now device =>
      w.afterGetLast (getLastKeyDevice faults now device w.store)

/-! ## What the calls do to a history -/

variable {w w' : World}

/-- A key that is refused changes nothing; a new one comes to the end of its queue. -/
theorem next_putKey_cases (hs : w.store.Linked) (now garbage recno : UInt32) (k : Key)
    (device : UInt32) (h : w.next (.putKey now garbage recno k device) = w') :
    w' = w ∧ (w.store.find k.sha = none → w.store.append device recno k.sha = none) ∨
      w.store.find k.sha = none ∧ (w.store.append device recno k.sha).isSome ∧
        Placed w.store w'.store k.sha
          ⟨k.key, now, now, initialUsage garbage, device, recno⟩ ∧
        w'.handed = w.handed ∧ w'.pending = place w.pending k.sha device := by
  rw [next] at h
  generalize hcall : putKey now garbage recno k device w.store = call at h
  obtain ⟨ret, s'⟩ := call
  rcases putKey_cases hs hcall with ⟨rfl, rfl, hrefused⟩ | ⟨rfl, hnew, happend, hplaced⟩
  · exact .inl ⟨h.symm, hrefused⟩
  · cases h
    exact .inr ⟨hnew, happend, hplaced, rfl, rfl⟩

/-- An assignment that fails changes nothing. -/
theorem next_assign_cases (hs : w.store.Linked) (now recno : UInt32) (sha : Bytes32)
    (device : UInt32) (h : w.next (.assignDeviceBySha now recno sha device) = w') :
    w' = w ∨ ∃ record, w.store.find sha = some record ∧ w'.handed = w.handed ∧
      w'.pending = (if sha ∉ w.handed then place w.pending sha device else w.pending) ∧
        (record.usage ≠ 0 ∧
            w'.store = w.store.put sha { record with lastusagetime := now, device := device } ∨
          record.usage = 0 ∧
            ∃ other, (record.numInSupport, other) ∈ w.store.entries record.device ∧
              (other = sha → Placed w.store w'.store sha { record with
                numInSupport := recno, lastusagetime := now, device := device })) := by
  rw [next] at h
  generalize hcall : assignDeviceBySha now recno sha device w.store = call at h
  obtain ⟨ret, s'⟩ := call
  rcases assignDeviceBySha_cases hs hcall with ⟨hret, rfl⟩ | ⟨rfl, record, hfind, hcases⟩
  · left
    rw [← h, afterAssign, if_neg fun hboth ↦ hret hboth.1]
  · cases h
    refine .inr ⟨record, hfind, rfl, ?_, hcases⟩
    rw [afterAssign]
    simp only [true_and]

/-- A call that succeeds and finds a key takes its entry away. -/
theorem next_getLast_cases (hs : w.store.Linked) (now device : UInt32)
    (h : w.next (.getLastKeyDevice .none now device) = w') :
    w' = w ∨ ∃ sha record, w.store.find sha = some record ∧
      Taken w.store w'.store sha (record.handOut now) ∧ w'.handed = w.handed ++ [sha] := by
  rw [next] at h
  generalize hcall : getLastKeyDevice .none now device w.store = call at h
  obtain ⟨result, s'⟩ := call
  rcases getLastKeyDevice_succeeds hs hcall with ⟨rfl, rfl⟩ | ⟨sha, record, rfl, hfind, htaken⟩
  · exact .inl h.symm
  · cases h
    exact .inr ⟨sha, record, hfind, htaken, rfl⟩

end World

end QNet.Keyworker
