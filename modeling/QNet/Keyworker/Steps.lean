import QNet.Keyworker.Store

/-!
# What the functions of the keyworker do to its store

As long as every entry of a support database points to a record that points back (`Linked`), a key
has at most one entry, and each function does one of three things: it leaves the store alone, it
puts the entry of one key at the end of the support database of a device (`Placed`), or it takes
the entry of one key away (`Taken`).
-/

namespace QNet.Keyworker

open Std

namespace Store

/-- The record of a key says where its entry is. -/
def Linked (s : Store) : Prop :=
  ∀ device recno sha, (recno, sha) ∈ s.entries device →
    ∃ record, s.find sha = some record ∧ record.device = device ∧ record.numInSupport = recno

/-- The key has an entry in some support database. -/
def HasEntry (s : Store) (sha : Bytes32) : Prop := ∃ device recno, (recno, sha) ∈ s.entries device

/-- The record of the key is stored, and its entry is moved to the end of the support database of
the record's device. -/
structure Placed (s s' : Store) (sha : Bytes32) (record : Record) : Prop where
  find : ∀ other, s'.find other = if other = sha then some record else s.find other
  entries : ∀ device, s'.entries device = (s.entries device).filter (·.2 ≠ sha) ++
    if device = record.device then [(record.numInSupport, sha)] else []

/-- The record of the key is stored, and its entry is taken away. -/
structure Taken (s s' : Store) (sha : Bytes32) (record : Record) : Prop where
  find : ∀ other, s'.find other = if other = sha then some record else s.find other
  entries : ∀ device, s'.entries device = (s.entries device).filter (·.2 ≠ sha)

variable {s s' deleted : Store} {sha : Bytes32} {record : Record}

theorem linked_empty : empty.Linked := by
  intro device recno sha hentry
  rw [entries_empty] at hentry
  cases hentry

theorem Placed.mem_entries (h : Placed s s' sha record) {device recno : UInt32} {other : Bytes32} :
    (recno, other) ∈ s'.entries device ↔
      if other = sha then device = record.device ∧ recno = record.numInSupport
      else (recno, other) ∈ s.entries device := by
  rw [h.entries]
  split_ifs <;> simp_all

theorem Taken.mem_entries (h : Taken s s' sha record) {device recno : UInt32} {other : Bytes32} :
    (recno, other) ∈ s'.entries device ↔ other ≠ sha ∧ (recno, other) ∈ s.entries device := by
  rw [h.entries]
  simp [and_comm]

theorem Placed.hasEntry_iff (h : Placed s s' sha record) {other : Bytes32} :
    s'.HasEntry other ↔ other = sha ∨ s.HasEntry other := by
  simp only [HasEntry, h.mem_entries]
  split_ifs with hother
  · simp [hother]
  · simp [hother]

theorem Taken.hasEntry_iff (h : Taken s s' sha record) {other : Bytes32} :
    s'.HasEntry other ↔ other ≠ sha ∧ s.HasEntry other := by
  simp only [HasEntry, h.mem_entries, exists_and_left]

theorem Linked.placed (hs : s.Linked) (h : Placed s s' sha record) : s'.Linked := by
  intro device recno other hmem
  rw [h.mem_entries] at hmem
  rw [h.find]
  split_ifs at hmem ⊢ with hother
  · exact ⟨record, rfl, hmem.1.symm, hmem.2.symm⟩
  · exact hs device recno other hmem

theorem Linked.taken (hs : s.Linked) (h : Taken s s' sha record) : s'.Linked := by
  intro device recno other hmem
  rw [h.mem_entries] at hmem
  rw [h.find, if_neg hmem.1]
  exact hs device recno other hmem.2

/-- A key has one entry at most. -/
theorem Linked.unique (hs : s.Linked) {device device' recno recno' : UInt32}
    (h : (recno, sha) ∈ s.entries device) (h' : (recno', sha) ∈ s.entries device') :
    device = device' ∧ recno = recno' := by
  obtain ⟨record, hfind, rfl, rfl⟩ := hs _ _ _ h
  obtain ⟨record', hfind', rfl, rfl⟩ := hs _ _ _ h'
  obtain rfl := Option.some.inj (hfind.symm.trans hfind')
  exact ⟨rfl, rfl⟩

theorem filter_entries_of_not_hasEntry (h : ¬s.HasEntry sha) (device : UInt32) :
    (s.entries device).filter (·.2 ≠ sha) = s.entries device := by
  rw [List.filter_eq_self]
  intro entry hentry
  exact decide_eq_true fun hsha ↦ h ⟨device, entry.1, hsha ▸ hentry⟩

/-- The other support databases have no entry of the key. -/
theorem Linked.filter_entries_of_ne (hs : s.Linked) {device recno other : UInt32}
    (hentry : (recno, sha) ∈ s.entries device) (hother : other ≠ device) :
    (s.entries other).filter (·.2 ≠ sha) = s.entries other := by
  rw [List.filter_eq_self]
  intro entry hmem
  refine decide_eq_true fun hsha ↦ hother ?_
  have hmem' : (entry.1, sha) ∈ s.entries other := hsha ▸ hmem
  exact (hs.unique hmem' hentry).1

/-- A record without an entry is rewritten. -/
theorem Taken.of_put (h : ¬s.HasEntry sha) (record : Record) :
    Taken s (s.put sha record) sha record where
  find other := find_put s sha other record
  entries device := by rw [entries_put, filter_entries_of_not_hasEntry h]

/-- A consuming read takes the entry of the oldest key. -/
theorem Linked.consume (hs : s.Linked) {device : UInt32} (h : s.consume device = some (sha, s')) :
    ∃ recno rest, s.entries device = (recno, sha) :: rest ∧
      ∃ record, s.find sha = some record ∧ record.device = device ∧ Taken s s' sha record := by
  obtain ⟨recno, rest, hentries, hrequeued⟩ := consume_cases h
  have hhead : (recno, sha) ∈ s.entries device := by
    rw [hentries]
    exact List.mem_cons_self
  obtain ⟨record, hfind, hdevice, _⟩ := hs _ _ _ hhead
  refine ⟨recno, rest, hentries, record, hfind, hdevice, fun other ↦ ?_, fun other ↦ ?_⟩
  · rw [hrequeued.find]
    split_ifs with hother
    · rw [hother, hfind]
    · rfl
  · rw [hrequeued.entries]
    split_ifs with hother
    · -- The rest of the queue has no second entry of the key.
      have hnodup := s.nodup_entries device
      rw [hentries, List.map_cons, List.nodup_cons] at hnodup
      rw [hother, hentries, List.filter_cons_of_neg (by simp), eq_comm, List.filter_eq_self]
      intro entry hentry
      refine decide_eq_true fun hsha ↦ hnodup.1 ?_
      have hrest : (entry.1, sha) ∈ s.entries device := by
        rw [hentries, ← hsha]
        exact List.mem_cons_of_mem _ hentry
      rw [(hs.unique hhead hrest).2]
      exact List.mem_map.mpr ⟨entry, hentry, rfl⟩
    · exact (hs.filter_entries_of_ne hhead hother).symm

/-- Nothing happens to a record without an entry. -/
theorem Taken.refl (h : ¬s.HasEntry sha) (hfind : s.find sha = some record) :
    Taken s s sha record where
  find other := by
    split_ifs with hother
    · rw [hother, hfind]
    · rfl
  entries device := (filter_entries_of_not_hasEntry h device).symm

theorem Taken.put (h : Taken s s' sha record) (record' : Record) :
    Taken s (s'.put sha record') sha record' where
  find other := by
    rw [find_put, h.find]
    split_ifs <;> rfl
  entries device := by rw [entries_put, h.entries]

/-- An append of a key without an entry. -/
theorem Placed.of_append {device recno : UInt32} (hs : ¬s.HasEntry sha)
    (h : s.append device recno sha = some s') (hdevice : record.device = device)
    (hrecno : record.numInSupport = recno) : Placed s (s'.put sha record) sha record := by
  have hrequeued := append_cases h
  refine ⟨fun other ↦ ?_, fun other ↦ ?_⟩
  · rw [find_put, hrequeued.find]
  · rw [entries_put, hrequeued.entries, filter_entries_of_not_hasEntry hs, hdevice, hrecno]
    split_ifs with hother
    · rw [hother]
    · rw [List.append_nil]

/-- Deleting the entry of the key by its number. -/
theorem Linked.delete (hs : s.Linked) {device recno : UInt32}
    (hentry : (recno, sha) ∈ s.entries device) (h : s.delete device recno = some s') :
    (∀ other, s'.find other = s.find other) ∧
      ∀ other, s'.entries other = (s.entries other).filter (·.2 ≠ sha) := by
  obtain ⟨_, hrequeued⟩ := delete_cases h
  refine ⟨hrequeued.find, fun other ↦ ?_⟩
  rw [hrequeued.entries]
  split_ifs with hother
  · rw [hother]
    apply List.filter_congr
    intro entry hmem
    have hiff : entry.1 = recno ↔ entry.2 = sha := by
      constructor
      · intro hrecno
        have hentry' := List.inj_on_of_nodup_map (s.nodup_entries device) hmem hentry hrecno
        exact congrArg Prod.snd hentry'
      · intro hsha
        have hmem' : (entry.1, sha) ∈ s.entries device := hsha ▸ hmem
        exact (hs.unique hmem' hentry).2
    simp only [ne_eq, hiff]
  · exact (hs.filter_entries_of_ne hentry hother).symm

end Store

open Store

variable {s s' : Store} {now garbage recno device : UInt32} {sha : Bytes32} {ret : ℤ}

theorem Store.Linked.not_hasEntry (hs : s.Linked) (hsha : s.find sha = none) : ¬s.HasEntry sha := by
  rintro ⟨device, recno, hentry⟩
  obtain ⟨record, hfind, _⟩ := hs _ _ _ hentry
  rw [hsha] at hfind
  cases hfind

theorem putKey_cases {k : Key} (hs : s.Linked)
    (h : putKey now garbage recno k device s = (ret, s')) :
    ret = -1 ∧ s' = s ∧ (s.find k.sha = none → s.append device recno k.sha = none) ∨
      ret = 0 ∧ s.find k.sha = none ∧ (s.append device recno k.sha).isSome ∧
        Placed s s' k.sha ⟨k.key, now, now, initialUsage garbage, device, recno⟩ := by
  unfold putKey at h
  split_ifs at h with hexists
  · cases h
    refine .inl ⟨rfl, rfl, fun hnone ↦ ?_⟩
    rw [hnone] at hexists
    cases hexists
  · rw [Option.not_isSome_iff_eq_none] at hexists
    split at h
    · rename_i happend
      cases h
      exact .inl ⟨rfl, rfl, fun _ ↦ happend⟩
    · rename_i appended happend
      cases h
      exact .inr ⟨rfl, hexists, by rw [happend]; rfl,
        Placed.of_append (hs.not_hasEntry hexists) happend rfl rfl⟩

/-- A key that is there already is refused. -/
theorem putKey_of_isSome {k : Key} (h : (s.find k.sha).isSome) :
    putKey now garbage recno k device s = (-1, s) := by
  unfold putKey
  rw [if_pos h]

/-- A used key changes its device and nothing else; the entry of an unused one is moved. Which
entry that is, is decided by the number in its record. -/
theorem assignDeviceBySha_cases (hs : s.Linked)
    (h : assignDeviceBySha now recno sha device s = (ret, s')) :
    ret ≠ 0 ∧ s' = s ∨
      ret = 0 ∧ ∃ record, s.find sha = some record ∧
        (record.usage ≠ 0 ∧
            s' = s.put sha { record with lastusagetime := now, device := device } ∨
          record.usage = 0 ∧
            ∃ other, (record.numInSupport, other) ∈ s.entries record.device ∧
              (other = sha → Placed s s' sha { record with
                numInSupport := recno, lastusagetime := now, device := device })) := by
  unfold assignDeviceBySha at h
  split at h
  · cases h
    exact .inl ⟨by decide, rfl⟩
  · rename_i record hfind
    split_ifs at h with husage
    · split at h
      · cases h
        exact .inl ⟨by decide, rfl⟩
      · rename_i deleted hdelete
        split at h
        · cases h
          exact .inl ⟨by decide, rfl⟩
        · rename_i appended happend
          cases h
          obtain ⟨⟨other, hother⟩, _⟩ := delete_cases hdelete
          refine .inr ⟨rfl, record, hfind, .inr ⟨husage, other, hother, ?_⟩⟩
          rintro rfl
          obtain ⟨hdeletedFind, hdeletedEntries⟩ := hs.delete hother hdelete
          have hgone : ¬deleted.HasEntry other := by
            rintro ⟨device', recno', hentry⟩
            rw [hdeletedEntries, List.mem_filter] at hentry
            exact of_decide_eq_true hentry.2 rfl
          have hplaced : Placed deleted _ other { record with
              numInSupport := recno, lastusagetime := now, device := device } :=
            Placed.of_append hgone happend rfl rfl
          refine ⟨fun key ↦ ?_, fun d ↦ ?_⟩
          · rw [hplaced.find, hdeletedFind]
          · rw [hplaced.entries, hdeletedEntries, List.filter_filter]
            simp only [Bool.and_self]
    · cases h
      exact .inr ⟨rfl, record, hfind, .inl ⟨husage, rfl⟩⟩

/-- The usage of a key that is handed out does not wrap around. -/
theorem handOut_usage_ne (record : Record) (now : UInt32) : (record.handOut now).usage ≠ 0 := by
  have hbound : (1000000 : UInt32).toNat = 1000000 := rfl
  intro hzero
  have hzero' := congrArg UInt32.toNat hzero
  rw [Record.handOut] at hzero'
  dsimp only at hzero'
  split_ifs at hzero' with husage
  · have hlt := UInt32.lt_iff_toNat_lt.mp husage
    rw [UInt32.toNat_add] at hzero'
    simp at hzero' hlt
    omega
  · apply husage
    rw [UInt32.lt_iff_toNat_lt, hzero']
    decide

/-- A key is taken from the queue of the device, or, when that is empty or cannot be read, from the
main database. -/
theorem getLastKeyDevice_cases {faults : Faults} {result : Option (Bytes32 × Record)}
    (hs : s.Linked) (h : getLastKeyDevice faults now device s = (result, s')) :
    result = none ∧ s' = s ∨
      ∃ sha record, result = some (sha, record.handOut now) ∧ s.find sha = some record ∧
        record.device = device ∧ faults.begin = false ∧
          ((∃ recno rest, s.entries device = (recno, sha) :: rest ∧
              faults.consume = false ∧ faults.lookup = false ∧
              (faults.commit = true ∧ s' = s ∨ ∃ record', Taken s s' sha record' ∧
                (record' = record.handOut now ∨ faults.update = true ∧ record' = record))) ∨
            (faults.consume = true ∨ s.entries device = []) ∧
              (faults.commit = true ∧ s' = s ∨ faults.update = true ∧ s' = s ∨
                s' = s.put sha (record.handOut now))) := by
  unfold getLastKeyDevice at h
  by_cases hbegin : faults.begin = true
  · rw [if_pos hbegin] at h
    cases h
    exact .inl ⟨rfl, rfl⟩
  · rw [if_neg hbegin] at h
    rw [Bool.not_eq_true] at hbegin
    split at h
    · rename_i sha consumed hconsume
      split_ifs at hconsume with hfault
      rw [Bool.not_eq_true] at hfault
      obtain ⟨recno, rest, hentries, record, hfind, hdevice, htaken⟩ := hs.consume hconsume
      split at h
      · cases h
        exact .inl ⟨rfl, rfl⟩
      · rename_i record' hlookup
        split_ifs at hlookup with hmissed
        rw [Bool.not_eq_true] at hmissed
        rw [htaken.find, if_pos rfl] at hlookup
        obtain rfl := Option.some.inj hlookup
        unfold handOut at h
        cases h
        refine .inr ⟨sha, record, rfl, hfind, hdevice, hbegin,
          .inl ⟨recno, rest, hentries, hfault, hmissed, ?_⟩⟩
        split_ifs with hcommit hupdate
        · exact .inl ⟨hcommit, rfl⟩
        · exact .inr ⟨record, htaken, .inr ⟨hupdate, rfl⟩⟩
        · exact .inr ⟨_, htaken.put _, .inl rfl⟩
    · rename_i hconsume
      have hscan : faults.consume = true ∨ s.entries device = [] := by
        split_ifs at hconsume with hfault
        · exact .inl hfault
        · exact .inr (consume_eq_none hconsume)
      split at h
      · cases h
        exact .inl ⟨rfl, rfl⟩
      · rename_i sha record hlast
        obtain ⟨hfind, hdevice⟩ := Table.lastWhere_eq_some hlast
        unfold handOut at h
        cases h
        refine .inr ⟨sha, record, rfl, hfind, of_decide_eq_true hdevice, hbegin, .inr ⟨hscan, ?_⟩⟩
        split_ifs with hcommit hupdate
        · exact .inl ⟨hcommit, rfl⟩
        · exact .inr (.inl ⟨hupdate, rfl⟩)
        · exact .inr (.inr rfl)

/-- A record without an entry for its device has none at all. -/
theorem Store.Linked.not_hasEntry_of_entries (hs : s.Linked) {record : Record}
    (hfind : s.find sha = some record) (hempty : s.entries record.device = []) :
    ¬s.HasEntry sha := by
  rintro ⟨device, recno, hentry⟩
  obtain ⟨record', hfind', rfl, rfl⟩ := hs _ _ _ hentry
  obtain rfl := Option.some.inj (hfind.symm.trans hfind')
  rw [hempty] at hentry
  cases hentry

/-- Without failures the entry of the key goes in any case. -/
theorem getLastKeyDevice_succeeds {result : Option (Bytes32 × Record)} (hs : s.Linked)
    (h : getLastKeyDevice .none now device s = (result, s')) :
    result = none ∧ s' = s ∨
      ∃ sha record, result = some (sha, record.handOut now) ∧ s.find sha = some record ∧
        Taken s s' sha (record.handOut now) := by
  rcases getLastKeyDevice_cases hs h with hnone | ⟨sha, record, hresult, hfind, rfl, _, hcases⟩
  · exact .inl hnone
  · refine .inr ⟨sha, record, hresult, hfind, ?_⟩
    rcases hcases with ⟨_, _, _, _, _, ⟨hcommit, _⟩ | ⟨record', htaken, rfl | ⟨hupdate, _⟩⟩⟩ |
      ⟨hfault | hempty, ⟨hcommit, _⟩ | ⟨hupdate, _⟩ | rfl⟩
    · cases hcommit
    · exact htaken
    · cases hupdate
    · cases hcommit
    · cases hupdate
    · cases hfault
    · cases hcommit
    · cases hupdate
    · exact Taken.of_put (hs.not_hasEntry_of_entries hfind hempty) _

/-- Without failures a key is handed out while the queue of the device is not empty. -/
theorem getLastKeyDevice_isSome (hs : s.Linked) (hentries : s.entries device ≠ []) :
    (getLastKeyDevice .none now device s).1.isSome := by
  cases hconsume : s.consume device with
  | none => exact absurd (consume_eq_none hconsume) hentries
  | some next =>
    obtain ⟨sha, consumed⟩ := next
    obtain ⟨_, _, _, record, _, _, htaken⟩ := hs.consume hconsume
    have hlookup : consumed.find sha = some record := by rw [htaken.find, if_pos rfl]
    unfold getLastKeyDevice
    simp only [Faults.none, Bool.false_eq_true, if_false, hconsume, hlookup]
    rfl

end QNet.Keyworker
