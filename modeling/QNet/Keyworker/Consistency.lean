import QNet.Keyworker.World
import QNet.Lib.Machine

/-!
# Consistency of the store

The two kinds of tables agree as long as every key is stored with usage 0. That is not so by itself:
`putKey` sets one byte of the four, and the rest is what `malloc` left there. `consistent_iff` says
that nothing else can go wrong while the database calls succeed.
-/

namespace QNet.Keyworker

open Store

/-- What the tables say about each other and about the keys that were handed out. -/
structure Consistent (w : World) : Prop where
  entry_record : ∀ device recno sha, (recno, sha) ∈ w.store.entries device →
    ∃ record, w.store.find sha = some record ∧ record.device = device ∧ record.numInSupport = recno
  entry_unique : ∀ device device' recno recno' sha, (recno, sha) ∈ w.store.entries device →
    (recno', sha) ∈ w.store.entries device' → device = device' ∧ recno = recno'
  usage_zero : ∀ sha record, w.store.find sha = some record → record.usage = 0 →
    w.store.HasEntry sha
  usage_pos : ∀ sha record, w.store.find sha = some record → record.usage ≠ 0 →
    ¬w.store.HasEntry sha
  usage_fresh : ∀ sha record, w.store.find sha = some record → sha ∉ w.handed → record.usage = 0
  refuses : ∀ now garbage recno k device, (w.store.find k.sha).isSome →
    (putKey now garbage recno k device w.store).1 ≠ 0 ∧
      (putKey now garbage recno k device w.store).2 = w.store

/-- No database call fails. -/
def Event.Succeeds : Event → Prop
  | .getLastKeyDevice faults _ _ => faults = .none
  | _ => True

/-- A new key whose entry can be appended finds zeros in the three bytes that are not written. -/
def Clean (w : World) : Event → Prop
  | .putKey _ garbage recno k device =>
      w.store.find k.sha = none → (w.store.append device recno k.sha).isSome →
        initialUsage garbage = 0
  | _ => True

/-! ## One step -/

section Step

variable {w w' : World} {sha : Bytes32} {record : Record}

theorem consistent_of (hlinked : w.store.Linked)
    (husage : ∀ sha record, w.store.find sha = some record →
      (record.usage = 0 ↔ w.store.HasEntry sha))
    (hfresh : ∀ sha record, w.store.find sha = some record → sha ∉ w.handed → record.usage = 0) :
    Consistent w where
  entry_record := hlinked
  entry_unique _ _ _ _ _ h h' := hlinked.unique h h'
  usage_zero sha record hfind := (husage sha record hfind).mp
  usage_pos sha record hfind hpos hentry := hpos ((husage sha record hfind).mpr hentry)
  usage_fresh := hfresh
  refuses now garbage recno k device hexists := by
    rw [putKey_of_isSome hexists]
    exact ⟨Int.neg_ne_zero.mpr Int.one_ne_zero, rfl⟩

theorem Consistent.linked (h : Consistent w) : w.store.Linked := h.entry_record

theorem Consistent.usage_iff (h : Consistent w) (hfind : w.store.find sha = some record) :
    record.usage = 0 ↔ w.store.HasEntry sha :=
  ⟨h.usage_zero sha record hfind, fun hentry ↦ by
    by_contra hpos
    exact h.usage_pos sha record hfind hpos hentry⟩

/-- A key of usage 0 gets the last entry of a queue. -/
theorem Consistent.placed (h : Consistent w) (hplaced : Placed w.store w'.store sha record)
    (hzero : record.usage = 0) (hhanded : w'.handed = w.handed) : Consistent w' := by
  refine consistent_of (h.linked.placed hplaced) (fun other found hfind ↦ ?_)
    fun other found hfind hother ↦ ?_
  · rw [hplaced.find] at hfind
    rw [hplaced.hasEntry_iff]
    split_ifs at hfind with heq
    · cases hfind
      exact iff_of_true hzero (.inl heq)
    · rw [h.usage_iff hfind]
      exact (or_iff_right heq).symm
  · rw [hplaced.find] at hfind
    split_ifs at hfind
    · cases hfind
      exact hzero
    · exact h.usage_fresh other found hfind (hhanded ▸ hother)

/-- The entry of a key that has been handed out goes, and its usage is not 0 from then on. -/
theorem Consistent.taken (h : Consistent w) (htaken : Taken w.store w'.store sha record)
    (hpos : record.usage ≠ 0) (hsha : sha ∈ w'.handed)
    (hhanded : ∀ key ∈ w.handed, key ∈ w'.handed) : Consistent w' := by
  refine consistent_of (h.linked.taken htaken) (fun other found hfind ↦ ?_)
    fun other found hfind hother ↦ ?_
  · rw [htaken.find] at hfind
    rw [htaken.hasEntry_iff]
    split_ifs at hfind with heq
    · cases hfind
      exact iff_of_false hpos fun hentry ↦ hentry.1 heq
    · rw [h.usage_iff hfind]
      exact (and_iff_right heq).symm
  · rw [htaken.find] at hfind
    split_ifs at hfind with heq
    · exact absurd hsha (heq ▸ hother)
    · exact h.usage_fresh other found hfind fun hmem ↦ hother (hhanded other hmem)

theorem consistent_putKey_iff (h : Consistent w) (now garbage recno : UInt32) (k : Key)
    (device : UInt32) : Consistent (w.next (.putKey now garbage recno k device)) ↔
      Clean w (.putKey now garbage recno k device) := by
  rcases World.next_putKey_cases h.linked now garbage recno k device rfl with
    ⟨hsame, hrefused⟩ | ⟨hnew, happend, hplaced, hhanded, _⟩
  · rw [hsame]
    refine iff_of_true h fun hnew happend ↦ ?_
    rw [hrefused hnew] at happend
    cases happend
  · constructor
    · intro hnext _ _
      have hfind := hplaced.find k.sha
      rw [if_pos rfl] at hfind
      exact (hnext.usage_iff hfind).mpr (hplaced.hasEntry_iff.mpr (.inl rfl))
    · intro hclean
      exact h.placed hplaced (hclean hnew happend) hhanded

theorem Consistent.assign (h : Consistent w) (now recno : UInt32) (sha : Bytes32)
    (device : UInt32) : Consistent (w.next (.assignDeviceBySha now recno sha device)) := by
  rcases World.next_assign_cases h.linked now recno sha device rfl with
    hsame | ⟨record, hfind, hsameHanded, _, ⟨hpos, hstore⟩ | ⟨hzero, other, hother, hplaced⟩⟩
  · rwa [hsame]
  · have hgone : ¬w.store.HasEntry sha := h.usage_pos sha record hfind hpos
    have hhanded : sha ∈ w.handed := by
      by_contra hnot
      exact hpos (h.usage_fresh sha record hfind hnot)
    have htaken : Taken w.store (w.next (.assignDeviceBySha now recno sha device)).store sha
        { record with lastusagetime := now, device := device } := by
      rw [hstore]
      exact Taken.of_put hgone _
    exact h.taken htaken hpos hhanded fun _ hkey ↦ hkey
  · -- The number in the record of an unused key is that of its own entry.
    obtain ⟨device', recno', hentry⟩ := h.usage_zero sha record hfind hzero
    obtain ⟨record', hfind', rfl, rfl⟩ := h.entry_record _ _ _ hentry
    obtain rfl := Option.some.inj (hfind.symm.trans hfind')
    have hsame := List.inj_on_of_nodup_map (w.store.nodup_entries record.device) hother hentry rfl
    exact h.placed (hplaced (congrArg Prod.snd hsame)) hzero hsameHanded

theorem Consistent.getLast (h : Consistent w) (now device : UInt32) :
    Consistent (w.next (.getLastKeyDevice .none now device)) := by
  rcases World.next_getLast_cases h.linked now device rfl with
    hsame | ⟨sha, record, _, htaken, hhanded⟩
  · rwa [hsame]
  · refine h.taken htaken (handOut_usage_ne record now) ?_ fun key hkey ↦ ?_
    · rw [hhanded]
      exact List.mem_concat_self
    · rw [hhanded]
      exact List.mem_append_left _ hkey

end Step

/-- While the database calls succeed, a step keeps the tables consistent if and only if it does not
insert a key with garbage in its usage. -/
theorem consistent_next_iff {w : World} (h : Consistent w) {e : Event} (hcalls : e.Succeeds) :
    Consistent (w.next e) ↔ Clean w e := by
  cases e with
  | putKey now garbage recno k device => exact consistent_putKey_iff h now garbage recno k device
  | assignDeviceBySha now recno sha device =>
    exact iff_of_true (h.assign now recno sha device) trivial
  | getByKey sha => exact iff_of_true h trivial
  | getLastKeyDevice faults now device =>
    obtain rfl : faults = .none := hcalls
    exact iff_of_true (h.getLast now device) trivial

theorem consistent_init : Consistent World.init := by
  refine consistent_of linked_empty (fun sha record hfind ↦ ?_) fun sha record hfind ↦ ?_
  · cases (find_empty sha).symm.trans hfind
  · cases (find_empty sha).symm.trans hfind

/-- From empty databases, with any keys and devices and in any order of calls, the store is
consistent in all states up to the last one if and only if every key that is inserted on the way
finds zeros in the bytes of its usage that are not written. -/
theorem consistent_iff (events : List Event) (hcalls : ∀ e ∈ events, e.Succeeds) :
    (∀ before, before <+: events → Consistent (before.foldl World.next .init)) ↔
      ∀ before e, before ++ [e] <+: events → Clean (before.foldl World.next .init) e :=
  foldl_invariant_iff consistent_init fun _ h e he ↦ consistent_next_iff h (hcalls e he)

def sampleKey : Key := ⟨fun _ ↦ 7, fun _ ↦ 8⟩

/-- A key is added to device 0, assigned to device 1 and handed out there. -/
def sampleEvents : List Event :=
  [.putKey 0 0 1 sampleKey 0, .assignDeviceBySha 0 1 sampleKey.sha 1, .getLastKeyDevice .none 0 1]

theorem consistent_iff_sample : Consistent (sampleEvents.foldl World.next .init) := by
  have hcalls : ∀ e ∈ sampleEvents, e.Succeeds := by
    simp [sampleEvents, Event.Succeeds]
  refine (consistent_iff sampleEvents hcalls).mpr (fun before e hpart ↦ ?_) _ List.prefix_rfl
  have hmem : e ∈ sampleEvents := hpart.subset (by simp)
  simp only [sampleEvents, List.mem_cons, List.not_mem_nil, or_false] at hmem
  rcases hmem with rfl | rfl | rfl
  · exact fun _ _ ↦ rfl
  · trivial
  · trivial

/-- One of the bytes that `putKey` leaves alone was 1. -/
theorem not_consistent_garbage :
    ¬∀ events : List Event, (∀ e ∈ events, e.Succeeds) →
      Consistent (events.foldl World.next .init) := by
  intro h
  have hconsistent := h [.putKey 0 256 1 sampleKey 0] (by simp [Event.Succeeds])
  have hfind :
      ([Event.putKey 0 256 1 sampleKey 0].foldl World.next .init).store.find sampleKey.sha =
        some ⟨sampleKey.key, 0, 0, 256, 0, 1⟩ := by decide
  exact absurd (hconsistent.usage_fresh _ _ hfind (by decide)) (by decide)

end QNet.Keyworker
