import QNet.Keyworker.Steps
import QNet.Lib.Transaction

/-!
# The functions of the keyworker as transactions

`putKey`, `assignDeviceBySha` and `getLastKeyDevice` with every database call they make, of which
any may fail. `atomic_iff` says for each when it is atomic. A `NULL` handle or a cursor that was
never opened is followed without a look, and the program dies. `assignDeviceBySha` is atomic
otherwise. `putKey` reports success although its commit failed, and `getLastKeyDevice` hands out
the key although its commit or the rewriting of the record failed.
-/

namespace QNet.Keyworker.Transactions

open Txn

/-- The calls inside `putKey` that fail. A cursor is opened and not used. -/
structure PutFaults where
  begin : Bool
  cursor : Bool
  /-- `put` with `DB_NOOVERWRITE`. -/
  insert : Bool
  /-- The handle of the device's support database is `NULL`. -/
  handle : Bool
  append : Bool
  /-- The second `put` of the record. -/
  update : Bool
  commit : Bool

/-- Inside the transaction of `putKey`; `number` is what lies in `num_in_support` before it is
set. -/
def putKeyBody (faults : PutFaults) (now garbage number recno : UInt32) (k : Key)
    (device : UInt32) : Txn Store ℤ ℤ := do
  let keyIn : Record := ⟨k.key, now, now, initialUsage garbage, device, number⟩
  change faults.insert
    (fun s ↦ if (s.find k.sha).isSome then none else some (s.put k.sha keyIn)) (-1)
  follow faults.handle
  change faults.append (·.append device recno k.sha) (-1)
  change faults.update (fun s ↦ some (s.put k.sha { keyIn with numInSupport := recno })) (-1)
  pure 0

def putKey (faults : PutFaults) (now garbage number recno : UInt32) (k : Key) (device : UInt32)
    (s : Store) : Option (ℤ × Store) :=
  transact faults.begin faults.commit (-1) id (putKeyBody faults now garbage number recno k device)
    s

/-- The calls inside `assignDeviceBySha` that fail. -/
structure AssignFaults where
  begin : Bool
  cursor : Bool
  /-- `get` with `DB_SET`. -/
  lookup : Bool
  /-- The handle of the support database of the record's device is `NULL`. -/
  handleFrom : Bool
  delete : Bool
  /-- The handle of the new device's support database is `NULL`. -/
  handleTo : Bool
  append : Bool
  /-- `put` with `DB_CURRENT`. -/
  update : Bool
  commit : Bool

/-- Inside the transaction of `assignDeviceBySha`. -/
def assignDeviceByShaBody (faults : AssignFaults) (now recno : UInt32) (sha : Bytes32)
    (device : UInt32) : Txn Store ℤ ℤ := do
  follow faults.cursor
  let record ← read faults.lookup (·.find sha) 1
  if record.usage = 0 then
    follow faults.handleFrom
    change faults.delete (·.delete record.device record.numInSupport) 1
    follow faults.handleTo
    change faults.append (·.append device recno sha) (-1)
    change faults.update
      (fun s ↦ some (s.put sha
        { record with numInSupport := recno, lastusagetime := now, device := device })) 1
    pure 0
  else
    change faults.update
      (fun s ↦ some (s.put sha { record with lastusagetime := now, device := device })) 1
    pure 0

def assignDeviceBySha (faults : AssignFaults) (now recno : UInt32) (sha : Bytes32)
    (device : UInt32) (s : Store) : Option (ℤ × Store) :=
  transact faults.begin faults.commit 2 (fun _ ↦ 1)
    (assignDeviceByShaBody faults now recno sha device) s

/-- The calls inside `getLastKeyDevice` that fail. -/
structure LastFaults extends Faults where
  /-- The handle of the device's support database is `NULL`. -/
  handle : Bool
  /-- The cursor of the support database. -/
  cursor1 : Bool
  /-- The cursor of the main database. -/
  cursor2 : Bool

/-- A record that was found is written back, and its key is returned. -/
def handOutBody (faults : LastFaults) (now : UInt32) (sha : Bytes32) (record : Record) :
    Txn Store (Option (Bytes32 × Record)) (Option (Bytes32 × Record)) := do
  unchecked faults.update fun s ↦ s.put sha (record.handOut now)
  pure (some (sha, record.handOut now))

/-- Inside the transaction of `getLastKeyDevice`. -/
def getLastKeyDeviceBody (faults : LastFaults) (now device : UInt32) :
    Txn Store (Option (Bytes32 × Record)) (Option (Bytes32 × Record)) := do
  follow (faults.handle || faults.cursor1)
  let sha? ← attempt faults.consume fun s ↦ s.consume device
  follow faults.cursor2
  match sha? with
  | some sha =>
    let record ← read faults.lookup (·.find sha) none
    handOutBody faults now sha record
  | none =>
    let row ← read false
      (fun s ↦ Table.lastWhere s.main (fun record ↦ record.device = device) faults.scan) none
    handOutBody faults now row.1 row.2

def getLastKeyDevice (faults : LastFaults) (now device : UInt32) (s : Store) :
    Option (Option (Bytes32 × Record) × Store) :=
  transact faults.begin faults.commit none id (getLastKeyDeviceBody faults now device) s

/-! ## Atomic operations -/

/-- Both databases hold the same. -/
structure Same (s s' : Store) : Prop where
  find : ∀ sha, s.find sha = s'.find sha
  entries : ∀ device, s.entries device = s'.entries device

theorem same_refl (s : Store) : Same s s := ⟨fun _ ↦ rfl, fun _ ↦ rfl⟩

/-- `putKey` and `assignDeviceBySha` report success with 0. -/
def IsZero (ret : ℤ) : Prop := ret = 0

instance : DecidablePred IsZero := fun ret ↦ inferInstanceAs (Decidable (ret = 0))

/-- `getLastKeyDevice` reports success with a key. -/
def IsKey (result : Option (Bytes32 × Record)) : Prop := result.isSome

/-- `putKey` is atomic with these failures. -/
def PutAtomic (faults : PutFaults) (now garbage number recno : UInt32) (k : Key)
    (device : UInt32) (s : Store) : Prop :=
  Atomic IsZero Same (putKeyBody faults now garbage number recno k device) s
    (putKey faults now garbage number recno k device s)

/-- `assignDeviceBySha` is atomic with these failures. -/
def AssignAtomic (faults : AssignFaults) (now recno : UInt32) (sha : Bytes32) (device : UInt32)
    (s : Store) : Prop :=
  Atomic IsZero Same (assignDeviceByShaBody faults now recno sha device) s
    (assignDeviceBySha faults now recno sha device s)

/-- `getLastKeyDevice` is atomic with these failures; that it does not look whether the record was
written back is no excuse for the record. -/
def LastAtomic (faults : LastFaults) (now device : UInt32) (s : Store) : Prop :=
  Atomic IsKey Same (getLastKeyDeviceBody { faults with update := false } now device) s
    (getLastKeyDevice faults now device s)

/-- The condition for `putKey`: when the key is new, the handle is there and, if everything else
succeeds, so does the commit. -/
def PutSafe (faults : PutFaults) (recno : UInt32) (k : Key) (device : UInt32) (s : Store) : Prop :=
  faults.begin = false → faults.insert = false → s.find k.sha = none →
    faults.handle = false ∧
      (faults.append = false → (s.append device recno k.sha).isSome → faults.update = false →
        faults.commit = false)

/-- The condition for `assignDeviceBySha`: the cursor is there, and so are the handles where they
are used. -/
def AssignSafe (faults : AssignFaults) (sha : Bytes32) (s : Store) : Prop :=
  faults.begin = false → faults.cursor = false ∧
    ∀ record, faults.lookup = false → s.find sha = some record → record.usage = 0 →
      faults.handleFrom = false ∧
        (faults.delete = false → (s.delete record.device record.numInSupport).isSome →
          faults.handleTo = false)

/-- Handing out this record changes nothing in it. -/
def Settled (record : Record) (now : UInt32) : Prop :=
  record.lastusagetime = now ∧ 1000000 ≤ record.usage

/-- The condition for `getLastKeyDevice`: the handle and the cursors are there, and when a key is
handed out its record is written back and committed, or there is nothing to write. -/
def LastSafe (faults : LastFaults) (now device : UInt32) (s : Store) : Prop :=
  faults.begin = false →
    faults.handle = false ∧ faults.cursor1 = false ∧ faults.cursor2 = false ∧
      (∀ sha consumed record, faults.consume = false → s.consume device = some (sha, consumed) →
        faults.lookup = false → s.find sha = some record →
          faults.commit = false ∧ (faults.update = true → Settled record now)) ∧
      ∀ sha record, faults.consume = true ∨ s.consume device = none →
        Table.lastWhere s.main (fun record ↦ record.device = device) faults.scan =
            some (sha, record) →
          faults.commit = true ∨ faults.update = true → Settled record now

/-! ## putKey -/

section PutKey

variable (faults : PutFaults) (now garbage number recno : UInt32) (k : Key) (device : UInt32)

theorem append_put (s : Store) (sha other : Bytes32) (record : Record) (device recno : UInt32) :
    (s.put sha record).append device recno other =
      (s.append device recno other).map (·.put sha record) := by
  unfold Store.append
  split_ifs with h
  · rfl
  · rw [Option.map_map]
    rfl

theorem reports_putKeyBody (s : Store) :
    Reports IsZero (putKeyBody faults now garbage number recno k device) s := by
  unfold Reports putKeyBody
  simp only [ends_bind, ends_change, ends_follow, ends_pure]
  simp [IsZero]

theorem putAtomic_iff (s : Store) :
    PutAtomic faults now garbage number recno k device s ↔ PutSafe faults recno k device s := by
  have hrefused : ¬ IsZero (-1) := by decide
  have hmissing (t : Store) (record : Record) (hfind : s.find k.sha = none) :
      ¬ Same s (t.put k.sha record) := by
    intro hsame
    have hrecord := hsame.find k.sha
    rw [hfind, Store.find_put, if_pos rfl] at hrecord
    cases hrecord
  rw [PutAtomic, putKey, atomic_transact_self_iff same_refl hrefused
    (reports_putKeyBody faults now garbage number recno k device s)]
  unfold PutSafe putKeyBody
  simp only [ends_bind, ends_change, ends_follow, ends_pure, ne_eq, not_true_eq_false, imp_false,
    Bool.not_eq_true, reduceCtorEq, not_false_eq_true, implies_true, true_and, and_imp, id_eq,
    Option.ite_none_left_eq_some, Option.some.injEq, forall_eq', forall_apply_eq_imp_iff]
  refine imp_congr_right fun _ ↦ imp_congr_right fun _ ↦ ?_
  rw [Option.isSome_eq_false_iff, Option.isNone_iff_eq_none]
  refine imp_congr_right fun hfind ↦ and_congr_right fun hhandle ↦ ?_
  constructor
  · intro h happend hsome hupdate
    obtain ⟨appended, happended⟩ := Option.isSome_iff_exists.mp hsome
    have hsame := h hhandle happend _ (by rw [append_put, happended, Option.map_some]) hupdate
    by_contra hcommit
    exact hmissing _ _ hfind (hsame (by simpa using hcommit) rfl)
  · intro h _ happend appended happended hupdate hcommit
    have hsome : (s.append device recno k.sha).isSome := by
      have hmap := congrArg Option.isSome happended
      rwa [append_put, Option.isSome_map] at hmap
    exact absurd (h happend hsome hupdate) (by simp [hcommit])

end PutKey

/-! ## assignDeviceBySha -/

section AssignDeviceBySha

variable (faults : AssignFaults) (now recno : UInt32) (sha : Bytes32) (device : UInt32)

theorem reports_assignDeviceByShaBody (s : Store) :
    Reports IsZero (assignDeviceByShaBody faults now recno sha device) s := by
  unfold Reports assignDeviceByShaBody
  simp only [ends_bind, ends_read, ends_change, ends_follow, ends_ite, ends_pure]
  simp [IsZero]

theorem assignAtomic_iff (s : Store) :
    AssignAtomic faults now recno sha device s ↔ AssignSafe faults sha s := by
  have hrefused : ¬ IsZero 2 := by decide
  rw [AssignAtomic, assignDeviceBySha, atomic_transact_self_iff same_refl hrefused
    (reports_assignDeviceByShaBody faults now recno sha device s)]
  unfold AssignSafe assignDeviceByShaBody
  simp only [ends_bind, ends_read, ends_change, ends_follow, ends_ite, ends_pure]
  simp only [ne_eq, not_true_eq_false, imp_false, Bool.not_eq_true, reduceCtorEq,
    not_false_eq_true, implies_true, or_false, Option.some.injEq, IsZero, one_ne_zero,
    Int.reduceNeg, IsEmpty.forall_iff, and_self, and_true, true_and]
  refine imp_congr_right fun _ ↦ and_congr_right fun hcursor ↦ ?_
  constructor
  · intro h record hlookup hfind husage
    obtain ⟨hfrom, hto⟩ := h hcursor hlookup record hfind husage
    refine ⟨hfrom, fun hdelete hsome ↦ ?_⟩
    obtain ⟨deleted, hdeleted⟩ := Option.isSome_iff_exists.mp hsome
    exact hto hfrom hdelete deleted hdeleted
  · intro h _ hlookup record hfind husage
    obtain ⟨hfrom, hto⟩ := h record hlookup hfind husage
    refine ⟨hfrom, fun _ hdelete deleted hdeleted ↦ ?_⟩
    exact hto hdelete (hdeleted ▸ rfl)

end AssignDeviceBySha

/-! ## getLastKeyDevice -/

section GetLastKeyDevice

variable (faults : LastFaults) (now device : UInt32)

theorem reports_getLastKeyDeviceBody (s : Store) :
    Reports IsKey (getLastKeyDeviceBody faults now device) s := by
  unfold Reports getLastKeyDeviceBody
  simp only [ends_bind, ends_read, ends_follow, ends_attempt, ends_pure, handOutBody,
    ends_unchecked]
  simp [IsKey]

theorem handOutBody_apply (sha : Bytes32) (record : Record) (s : Store) :
    handOutBody faults now sha record s =
      .ok (some (sha, record.handOut now),
        if faults.update then s else s.put sha (record.handOut now)) := rfl

theorem getLastKeyDeviceBody_of_queue {s consumed : Store} {sha : Bytes32} {record : Record}
    (hhandle : faults.handle = false) (hcursor1 : faults.cursor1 = false)
    (hcursor2 : faults.cursor2 = false) (hconsume : faults.consume = false)
    (hconsumed : s.consume device = some (sha, consumed)) (hlookup : faults.lookup = false)
    (hfind : consumed.find sha = some record) :
    getLastKeyDeviceBody faults now device s = handOutBody faults now sha record consumed := by
  simp [getLastKeyDeviceBody, bind_apply, follow, attempt, Txn.read, hhandle, hcursor1, hcursor2,
    hconsume, hconsumed, hlookup, hfind]

theorem getLastKeyDeviceBody_of_scan {s : Store} {sha : Bytes32} {record : Record}
    (hhandle : faults.handle = false) (hcursor1 : faults.cursor1 = false)
    (hcursor2 : faults.cursor2 = false)
    (hempty : faults.consume = true ∨ s.consume device = none)
    (hrow : Table.lastWhere s.main (fun record ↦ record.device = device) faults.scan =
      some (sha, record)) :
    getLastKeyDeviceBody faults now device s = handOutBody faults now sha record s := by
  have hconsume : (if faults.consume then none else s.consume device) = none := by
    rcases hempty with h | h
    · rw [if_pos h]
    · rw [h, ite_self]
  simp [getLastKeyDeviceBody, bind_apply, follow, attempt, Txn.read, hhandle, hcursor1, hcursor2,
    hconsume, hrow]

/-- Whether the record can be written back does not decide how far the body comes. -/
theorem completes_iff (s : Store) :
    (∃ r t, getLastKeyDeviceBody { faults with update := false } now device s = .ok (r, t)) ↔
      ∃ r t, getLastKeyDeviceBody faults now device s = .ok (r, t) := by
  have hends (body : Txn Store (Option (Bytes32 × Record)) (Option (Bytes32 × Record))) :
      (∃ r t, body s = .ok (r, t)) ↔ Ends (fun _ ↦ False) (fun _ _ ↦ True) body s := by
    simp only [ends_false_iff, and_true]
  rw [hends, hends]
  unfold getLastKeyDeviceBody
  simp only [ends_bind, ends_read, ends_follow, ends_attempt, handOutBody, ends_unchecked,
    ends_pure]

/-- How the body ends when the program does not die: the key comes from the queue of the device, or
else from the scan. -/
theorem ends_getLastKeyDeviceBody {Q : Option (Bytes32 × Record) → Store → Prop} {s : Store} :
    Ends (· ≠ none) Q (getLastKeyDeviceBody faults now device) s ↔
      faults.handle = false ∧ faults.cursor1 = false ∧ faults.cursor2 = false ∧
        (∀ sha consumed record, faults.consume = false →
          s.consume device = some (sha, consumed) → faults.lookup = false →
            consumed.find sha = some record →
              Q (some (sha, record.handOut now))
                (if faults.update then consumed else consumed.put sha (record.handOut now))) ∧
        ∀ sha record, faults.consume = true ∨ s.consume device = none →
          Table.lastWhere s.main (fun record ↦ record.device = device) faults.scan =
              some (sha, record) →
            Q (some (sha, record.handOut now))
              (if faults.update then s else s.put sha (record.handOut now)) := by
  unfold getLastKeyDeviceBody
  simp only [ends_bind, ends_read, ends_follow, ends_attempt, handOutBody, ends_unchecked,
    ends_pure]
  constructor
  · rintro ⟨hhandles, hbody⟩
    have hhandles' : (faults.handle || faults.cursor1) = false := by simpa using hhandles
    obtain ⟨hhandle, hcursor1⟩ := Bool.or_eq_false_iff.mp hhandles'
    obtain ⟨hscan, hqueue⟩ := hbody hhandles'
    have hcursor2 : faults.cursor2 = false := by
      cases hconsume : faults.consume with
      | true => simpa using (hscan (Or.inl hconsume)).1
      | false =>
        cases hconsumed : s.consume device with
        | none => simpa using (hscan (Or.inr hconsumed)).1
        | some next => simpa using (hqueue hconsume next.1 next.2 hconsumed).1
    refine ⟨hhandle, hcursor1, hcursor2, ?_, ?_⟩
    · intro sha consumed record hconsume hconsumed hlookup hfind
      exact ((hqueue hconsume sha consumed hconsumed).2 hcursor2).2 hlookup record hfind
    · intro sha record hempty hrow
      exact ((hscan hempty).2 hcursor2).2 trivial (sha, record) hrow
  · rintro ⟨hhandle, hcursor1, hcursor2, hqueue, hscan⟩
    refine ⟨by simp [hhandle, hcursor1], fun _ ↦ ⟨fun hempty ↦ ?_, ?_⟩⟩
    · refine ⟨by simp [hcursor2], fun _ ↦ ⟨by simp, fun _ row hrow ↦ ?_⟩⟩
      exact hscan row.1 row.2 hempty hrow
    · intro hconsume sha consumed hconsumed
      refine ⟨by simp [hcursor2], fun _ ↦ ⟨by simp, fun hlookup record hfind ↦ ?_⟩⟩
      exact hqueue sha consumed record hconsume hconsumed hlookup hfind

theorem handOut_eq_self_iff {record : Record} :
    record.handOut now = record ↔ Settled record now := by
  unfold Record.handOut Settled
  by_cases husage : record.usage < 1000000
  · refine iff_of_false (fun h ↦ ?_) fun h ↦ absurd husage (UInt32.not_lt.mpr h.2)
    have hincreased := congrArg Record.usage h
    simp [husage] at hincreased
  · rw [if_neg husage]
    constructor
    · intro h
      exact ⟨(congrArg Record.lastusagetime h).symm, UInt32.not_lt.mp husage⟩
    · intro h
      rw [← h.1]

/-- Handing out a record changes the store unless there is nothing to change in the record. -/
theorem same_put_handOut_iff {s : Store} {sha : Bytes32} {record : Record}
    (hfind : s.find sha = some record) :
    Same s (s.put sha (record.handOut now)) ↔ Settled record now := by
  rw [← handOut_eq_self_iff]
  constructor
  · intro hsame
    have hrecord := hsame.find sha
    rw [hfind, Store.find_put, if_pos rfl] at hrecord
    exact (Option.some.inj hrecord).symm
  · intro hself
    refine ⟨fun other ↦ ?_, fun _ ↦ rfl⟩
    rw [hself, Store.find_put]
    split_ifs with hother
    · rw [hother, hfind]
    · rfl

/-- A key that was taken from its queue is missing there. -/
theorem not_same_consumed {s consumed : Store} {sha : Bytes32} (record : Record)
    (hconsumed : s.consume device = some (sha, consumed)) : ¬ Same s (consumed.put sha record) := by
  intro hsame
  obtain ⟨recno, rest, hentries, hrequeued⟩ := Store.consume_cases hconsumed
  have hrest := hsame.entries device
  rw [hentries, Store.entries_put, hrequeued.entries, if_pos rfl] at hrest
  exact List.cons_ne_self _ _ hrest

theorem lastAtomic_iff (s : Store) :
    LastAtomic faults now device s ↔ LastSafe faults now device s := by
  have hrefused : ¬ IsKey none := nofun
  rw [LastAtomic, getLastKeyDevice, atomic_transact_iff same_refl hrefused
    (reports_getLastKeyDeviceBody faults now device s)
    fun r t h ↦ (completes_iff faults now device s).mpr ⟨r, t, h⟩]
  unfold LastSafe
  refine imp_congr_right fun _ ↦ ?_
  rw [ends_getLastKeyDeviceBody]
  refine and_congr_right fun hhandle ↦ and_congr_right fun hcursor1 ↦
    and_congr_right fun hcursor2 ↦ and_congr ?_ ?_
  · refine forall_congr' fun sha ↦ forall_congr' fun consumed ↦ forall_congr' fun record ↦
      imp_congr_right fun hconsume ↦ imp_congr_right fun hconsumed ↦
      imp_congr_right fun hlookup ↦ ?_
    obtain ⟨_, _, _, hrequeued⟩ := Store.consume_cases hconsumed
    rw [hrequeued.find]
    refine imp_congr_right fun hfind ↦ ?_
    have hfindConsumed := (hrequeued.find sha).trans hfind
    have hfull := getLastKeyDeviceBody_of_queue { faults with update := false } now device hhandle
      hcursor1 hcursor2 hconsume hconsumed hlookup hfindConsumed
    rw [handOutBody_apply] at hfull
    have hmissing := not_same_consumed device (record.handOut now) hconsumed
    have hwritten := same_put_handOut_iff now hfindConsumed
    rw [forall_ok_iff hfull]
    cases hcommit : faults.commit with
    | true => exact iff_of_false (fun h ↦ hmissing (h rfl)) (by simp)
    | false =>
      cases hupdate : faults.update with
      | true => simpa using hwritten
      | false => exact iff_of_true (same_refl _) ⟨rfl, nofun⟩
  · refine forall_congr' fun sha ↦ forall_congr' fun record ↦ imp_congr_right fun hempty ↦
      imp_congr_right fun hrow ↦ ?_
    have hfull := getLastKeyDeviceBody_of_scan { faults with update := false } now device hhandle
      hcursor1 hcursor2 hempty hrow
    rw [handOutBody_apply] at hfull
    have hwritten := same_put_handOut_iff now (Table.lastWhere_eq_some hrow).1
    rw [forall_ok_iff hfull]
    cases hcommit : faults.commit with
    | true =>
      have hkey : IsKey (some (sha, record.handOut now)) := rfl
      simpa [hkey] using hwritten
    | false =>
      cases hupdate : faults.update with
      | true => simpa using hwritten
      | false => exact iff_of_true (same_refl _) (by simp)

end GetLastKeyDevice

/-! ## Without failures -/

/-- With all its pointers set `getLastKeyDevice` is the function of the store. -/
theorem getLastKeyDevice_eq (faults : LastFaults) (now device : UInt32) (s : Store)
    (hhandle : faults.handle = false) (hcursor1 : faults.cursor1 = false)
    (hcursor2 : faults.cursor2 = false) :
    getLastKeyDevice faults now device s =
      some (Keyworker.getLastKeyDevice faults.toFaults now device s) := by
  unfold getLastKeyDevice transact Keyworker.getLastKeyDevice
  cases faults.begin with
  | true => rfl
  | false =>
    cases hconsume : if faults.consume then none else s.consume device with
    | none =>
      cases hrow : Table.lastWhere s.main (fun record ↦ record.device = device) faults.scan with
      | none =>
        simp [getLastKeyDeviceBody, bind_apply, follow, attempt, Txn.read, hhandle, hcursor1,
          hcursor2, hconsume, hrow]
      | some row =>
        have hempty : faults.consume = true ∨ s.consume device = none := by
          by_cases h : faults.consume
          · exact Or.inl h
          · exact Or.inr ((if_neg h).symm.trans hconsume)
        rw [getLastKeyDeviceBody_of_scan faults now device hhandle hcursor1 hcursor2 hempty hrow,
          handOutBody_apply]
        cases hcommit : faults.commit with
        | true => simp [handOut, hcommit]
        | false => simp [handOut, hcommit]
    | some next =>
      cases hfind : if faults.lookup then none else next.2.find next.1 with
      | none =>
        simp [getLastKeyDeviceBody, bind_apply, follow, attempt, Txn.read, hhandle, hcursor1,
          hcursor2, hconsume, hfind]
      | some record =>
        obtain ⟨hconsume, hconsumed⟩ : faults.consume = false ∧ s.consume device = some next := by
          simpa using hconsume
        obtain ⟨hlookup, hfind⟩ : faults.lookup = false ∧ next.2.find next.1 = some record := by
          simpa using hfind
        rw [getLastKeyDeviceBody_of_queue faults now device hhandle hcursor1 hcursor2 hconsume
          hconsumed hlookup hfind, handOutBody_apply]
        cases hcommit : faults.commit with
        | true => simp [handOut, hcommit, hlookup, hfind]
        | false => simp [handOut, hcommit, hlookup, hfind]

theorem assignDeviceBySha_eq (now recno : UInt32) (sha : Bytes32) (device : UInt32) (s : Store) :
    assignDeviceBySha ⟨false, false, false, false, false, false, false, false, false⟩ now recno sha
        device s =
      some (Keyworker.assignDeviceBySha now recno sha device s) := by
  unfold assignDeviceBySha transact assignDeviceByShaBody Keyworker.assignDeviceBySha
  simp only [bind_apply, follow, Txn.read]
  cases hfind : s.find sha with
  | none => simp [hfind]
  | some record =>
    by_cases husage : record.usage = 0
    · cases hdelete : s.delete record.device record.numInSupport with
      | none => simp [hfind, husage, hdelete, bind_apply, follow, change]
      | some deleted =>
        cases happend : deleted.append device recno sha with
        | none => simp [hfind, husage, hdelete, happend, bind_apply, follow, change]
        | some appended =>
          simp only [hfind, husage, hdelete, happend, bind_apply, follow, change, pure_apply,
            Bool.false_eq_true, ↓reduceIte]
    · simp only [hfind, husage, bind_apply, change, pure_apply, Bool.false_eq_true, ↓reduceIte]

/-- `putKey` writes the record twice, which is the same as once. -/
theorem putKey_eq (now garbage number recno : UInt32) (k : Key) (device : UInt32) (s : Store) :
    ∃ t, putKey ⟨false, false, false, false, false, false, false⟩ now garbage number recno k device
          s = some ((Keyworker.putKey now garbage recno k device s).1, t) ∧
      Same t (Keyworker.putKey now garbage recno k device s).2 := by
  unfold putKey transact putKeyBody Keyworker.putKey
  cases hfind : s.find k.sha with
  | some record => exact ⟨s, by simp [bind_apply, change, hfind], same_refl s⟩
  | none =>
    cases happend : s.append device recno k.sha with
    | none =>
      exact ⟨s, by simp [bind_apply, change, follow, hfind, append_put, happend], same_refl s⟩
    | some appended =>
      simp only [bind_apply, change, follow, pure_apply, hfind, append_put, happend,
        Option.map_some, Option.isSome_none, Bool.false_eq_true, ↓reduceIte]
      refine ⟨_, rfl, fun other ↦ ?_, fun _ ↦ rfl⟩
      simp only [Store.find_put]
      split_ifs <;> rfl

/-! ## All three -/

/-- When the functions are atomic, whatever calls fail. -/
theorem atomic_iff (s : Store) :
    (∀ faults now garbage number recno k device,
        PutAtomic faults now garbage number recno k device s ↔ PutSafe faults recno k device s) ∧
      (∀ faults now recno sha device,
        AssignAtomic faults now recno sha device s ↔ AssignSafe faults sha s) ∧
      ∀ faults now device, LastAtomic faults now device s ↔ LastSafe faults now device s := by
  refine ⟨fun faults now garbage number recno k device ↦ ?_, fun faults now recno sha device ↦ ?_,
    fun faults now device ↦ ?_⟩
  · exact putAtomic_iff faults now garbage number recno k device s
  · exact assignAtomic_iff faults now recno sha device s
  · exact lastAtomic_iff faults now device s

/-- A new key comes into the empty databases, and the commit fails: `putKey` returns 0. -/
theorem not_putAtomic_commit :
    ¬ ∀ faults now garbage number recno k device, PutAtomic faults now garbage number recno k device
        .empty := by
  intro h
  have hsafe := (putAtomic_iff ⟨false, false, false, false, false, false, true⟩ 0 0 0 0
    ⟨fun _ ↦ 0, fun _ ↦ 0⟩ 0 .empty).mp (h _ _ _ _ _ _ _)
  exact absurd ((hsafe rfl rfl (Store.find_empty _)).2 rfl rfl rfl) (by decide)

end QNet.Keyworker.Transactions
