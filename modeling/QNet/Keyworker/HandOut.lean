import QNet.Keyworker.World
import QNet.Lib.Machine

/-!
# Handing out the keys of a device

`getLastKeyDevice` is to hand out the keys of a device in the order in which they came to it, each
once, and a used key only when no unused one is left. It does so as long as four situations are
avoided (`CarefulStep`): that a commit fails after a key was taken from the queue, since the key is
returned all the same; that the queue cannot be read although it has entries, since the function
then looks for a used key; that a key with an entry is moved to another device although its usage is
not 0, since the entry then stays behind; and that the number in the record of a key without an
entry has been given to another key.
-/

namespace QNet.Keyworker

open Store

/-- The keyworker with empty databases in the beginning. -/
def keyworker : Machine World Event := .ofNext .init fun w e ↦ some (w.next e)

/-- What an observer expects of a call: an unused key is handed out if there is one, the first one
first, and is not kept in any queue; otherwise the key was handed out before. -/
structure HandsOut (w : World) (faults : Faults) (now device : UInt32) : Prop where
  first : ∀ next rest, w.pending device = next :: rest →
    ∀ sha record, (getLastKeyDevice faults now device w.store).1 = some (sha, record) →
      sha = next ∧ next ∉ w.handed ∧ ¬(getLastKeyDevice faults now device w.store).2.HasEntry next
  given : w.pending device ≠ [] → faults = .none →
    (getLastKeyDevice faults now device w.store).1.isSome
  reused : w.pending device = [] →
    ∀ sha record, (getLastKeyDevice faults now device w.store).1 = some (sha, record) →
      sha ∈ w.handed

/-- The four situations are avoided. -/
def CarefulStep (w : World) : Event → Prop
  | .assignDeviceBySha _ _ sha _ => ∀ record, w.store.find sha = some record →
      (record.usage ≠ 0 → ¬w.store.HasEntry sha) ∧
        (record.usage = 0 →
          ∀ other, (record.numInSupport, other) ∈ w.store.entries record.device → other = sha)
  | .getLastKeyDevice faults _ device => w.store.entries device ≠ [] → faults.begin = false →
      faults.consume = false ∧ (faults.lookup = false → faults.commit = false)
  | _ => True

theorem carefulStep_none (w : World) (now device : UInt32) :
    CarefulStep w (.getLastKeyDevice .none now device) := fun _ _ ↦ ⟨rfl, fun _ ↦ rfl⟩

/-- The queues are what the observer expects. -/
structure Faithful (w : World) : Prop where
  linked : w.store.Linked
  queue : ∀ device, (w.store.entries device).map Prod.snd = w.pending device
  fresh : ∀ device, ∀ sha ∈ w.pending device, sha ∉ w.handed
  known : ∀ sha record, w.store.find sha = some record →
    sha ∈ w.pending record.device ∨ sha ∈ w.handed
  stored : ∀ sha ∈ w.handed, (w.store.find sha).isSome

namespace Faithful

open World

variable {w w' : World} {sha : Bytes32} {record : Record}

theorem init : Faithful World.init where
  linked := linked_empty
  queue device := by
    rw [World.init, entries_empty]
    rfl
  fresh _ _ h := by cases h
  known sha record h := by cases (find_empty sha).symm.trans h
  stored _ h := by cases h

theorem hasEntry_iff (h : Faithful w) :
    w.store.HasEntry sha ↔ ∃ device, sha ∈ w.pending device := by
  simp only [← h.queue, List.mem_map, HasEntry]
  constructor
  · rintro ⟨device, recno, hentry⟩
    exact ⟨device, _, hentry, rfl⟩
  · rintro ⟨device, ⟨recno, _⟩, hentry, rfl⟩
    exact ⟨device, recno, hentry⟩

theorem pending_eq_nil_iff (h : Faithful w) {device : UInt32} :
    w.pending device = [] ↔ w.store.entries device = [] := by
  rw [← h.queue, List.map_eq_nil_iff]

/-- The queues without a key. -/
theorem map_filter (h : Faithful w) (sha : Bytes32) (device : UInt32) :
    ((w.store.entries device).filter (·.2 ≠ sha)).map Prod.snd =
      (w.pending device).filter (· ≠ sha) := by
  rw [← h.queue, List.filter_map]
  rfl

/-- A key that was not handed out comes to the end of the queue of a device. -/
theorem placed (h : Faithful w) (w' : World) (hplaced : Placed w.store w'.store sha record)
    (hsha : sha ∉ w.handed) (hhanded : w'.handed = w.handed)
    (hpending : w'.pending = place w.pending sha record.device) : Faithful w' where
  linked := h.linked.placed hplaced
  queue device := by
    rw [hplaced.entries, List.map_append, h.map_filter, hpending, place]
    split_ifs <;> rfl
  fresh device other hother := by
    rw [hhanded]
    rw [hpending, place, List.mem_append, List.mem_filter] at hother
    rcases hother with ⟨hother, _⟩ | hother
    · exact h.fresh device other hother
    · split_ifs at hother
      · rwa [List.mem_singleton.mp hother]
      · cases hother
  known other found hfind := by
    rw [hplaced.find] at hfind
    rw [hhanded, hpending, place, List.mem_append, List.mem_filter]
    split_ifs at hfind with heq
    · cases hfind
      rw [heq, if_pos rfl]
      exact .inl (.inr List.mem_cons_self)
    · refine (h.known other found hfind).imp (fun hmem ↦ .inl ⟨hmem, decide_eq_true heq⟩) id
  stored other hother := by
    rw [hplaced.find]
    split_ifs
    · rfl
    · exact h.stored other (hhanded ▸ hother)

/-- The entry of a key goes when it is handed out; a key that was handed out has none. -/
theorem taken (h : Faithful w) (w' : World) (htaken : Taken w.store w'.store sha record)
    (hhanded : ∀ key, key ∈ w'.handed ↔ key ∈ w.handed ∨ key = sha)
    (hpending : w'.pending = take w.pending sha) : Faithful w' where
  linked := h.linked.taken htaken
  queue device := by rw [htaken.entries, h.map_filter, hpending, take]
  fresh device other hother := by
    rw [hpending, take, List.mem_filter] at hother
    rw [hhanded]
    rintro (hold | heq)
    · exact h.fresh device other hother.1 hold
    · exact of_decide_eq_true hother.2 heq
  known other found hfind := by
    rw [htaken.find] at hfind
    rw [hhanded, hpending, take, List.mem_filter]
    split_ifs at hfind with heq
    · exact .inr (.inr heq)
    · exact (h.known other found hfind).imp (fun hmem ↦ ⟨hmem, decide_eq_true heq⟩) .inl
  stored other hother := by
    rw [htaken.find]
    rw [hhanded] at hother
    split_ifs with heq
    · rfl
    · exact h.stored other (hother.resolve_right heq)

theorem not_hasEntry_of_handed (h : Faithful w) (hsha : sha ∈ w.handed) :
    ¬w.store.HasEntry sha := by
  rw [h.hasEntry_iff]
  rintro ⟨device, hpending⟩
  exact h.fresh device sha hpending hsha

theorem handed_of_not_hasEntry (h : Faithful w) (hfind : w.store.find sha = some record)
    (hgone : ¬w.store.HasEntry sha) : sha ∈ w.handed := by
  rw [h.hasEntry_iff] at hgone
  exact (h.known sha record hfind).resolve_left fun hpending ↦ hgone ⟨_, hpending⟩

theorem take_of_handed (h : Faithful w) (hsha : sha ∈ w.handed) :
    take w.pending sha = w.pending := by
  funext device
  rw [take, List.filter_eq_self]
  intro other hother
  refine decide_eq_true fun heq ↦ ?_
  exact h.fresh device other hother (heq ▸ hsha)

/-! ### The calls -/

theorem putKey (h : Faithful w) (now garbage recno : UInt32) (k : Key) (device : UInt32) :
    Faithful (w.next (.putKey now garbage recno k device)) := by
  rcases next_putKey_cases h.linked now garbage recno k device rfl with
    ⟨hsame, _⟩ | ⟨hnew, _, hplaced, hhanded, hpending⟩
  · rwa [hsame]
  · have hsha : k.sha ∉ w.handed := by
      intro hhanded
      have hstored := h.stored k.sha hhanded
      rw [hnew] at hstored
      cases hstored
    exact h.placed _ hplaced hsha hhanded hpending

theorem assign (h : Faithful w) {now recno : UInt32} {sha : Bytes32} {device : UInt32}
    (hcareful : CarefulStep w (.assignDeviceBySha now recno sha device)) :
    Faithful (w.next (.assignDeviceBySha now recno sha device)) := by
  rcases next_assign_cases h.linked now recno sha device rfl with hsame |
    ⟨record, hfind, hhanded, hpending, ⟨hpos, hstore⟩ | ⟨hzero, other, hother, hplaced⟩⟩
  · rwa [hsame]
  · have hgone := (hcareful record hfind).1 hpos
    have hsha := h.handed_of_not_hasEntry hfind hgone
    have htaken : Taken w.store (w.next (.assignDeviceBySha now recno sha device)).store sha
        { record with lastusagetime := now, device := device } := by
      rw [hstore]
      exact Taken.of_put hgone _
    refine h.taken _ htaken (fun key ↦ ?_) ?_
    · rw [hhanded]
      exact (or_iff_left_of_imp fun heq ↦ heq ▸ hsha).symm
    · rw [h.take_of_handed hsha, hpending, if_neg (not_not.mpr hsha)]
  · obtain rfl := (hcareful record hfind).2 hzero other hother
    have hpendingSha : other ∈ w.pending record.device := by
      rw [← h.queue]
      exact List.mem_map.mpr ⟨_, hother, rfl⟩
    have hsha := h.fresh _ other hpendingSha
    rw [if_pos hsha] at hpending
    exact h.placed _ (hplaced rfl) hsha hhanded hpending

/-- A call that returns a key from a queue commits what it does; one that returns a key from the
main database finds the queue empty. -/
theorem getLast_cases (h : Faithful w) {faults : Faults} {now device : UInt32}
    {result : Option (Bytes32 × Record)} {s' : Store}
    (hcareful : CarefulStep w (.getLastKeyDevice faults now device))
    (hcall : getLastKeyDevice faults now device w.store = (result, s')) :
    result = none ∧ s' = w.store ∨
      ∃ sha record record', result = some (sha, record) ∧ Taken w.store s' sha record' ∧
        ((∃ rest, w.pending device = sha :: rest) ∨ w.pending device = [] ∧ sha ∈ w.handed) := by
  rcases getLastKeyDevice_cases h.linked hcall with
    hnone | ⟨sha, record, hresult, hfind, hdevice, hbegin, hcases⟩
  · exact .inl hnone
  · refine .inr ⟨sha, record.handOut now, ?_⟩
    rcases hcases with ⟨recno, rest, hentries, _, hlookup, hcommit⟩ | ⟨hconsume, hstore⟩
    · have hnonempty : w.store.entries device ≠ [] := by
        rw [hentries]
        exact List.cons_ne_nil _ _
      have hqueue := h.queue device
      rw [hentries, List.map_cons] at hqueue
      rcases hcommit with ⟨hfailed, _⟩ | ⟨record', htaken, _⟩
      · rw [(hcareful hnonempty hbegin).2 hlookup] at hfailed
        cases hfailed
      · exact ⟨record', hresult, htaken, .inl ⟨_, hqueue.symm⟩⟩
    · have hempty : w.store.entries device = [] := by
        by_contra hnonempty
        rcases hconsume with hfailed | hempty
        · rw [(hcareful hnonempty hbegin).1] at hfailed
          cases hfailed
        · exact hnonempty hempty
      have hgone : ¬w.store.HasEntry sha :=
        h.linked.not_hasEntry_of_entries hfind (hdevice.symm ▸ hempty)
      have hused : w.pending device = [] ∧ sha ∈ w.handed :=
        ⟨h.pending_eq_nil_iff.mpr hempty, h.handed_of_not_hasEntry hfind hgone⟩
      rcases hstore with ⟨_, rfl⟩ | ⟨_, rfl⟩ | rfl
      · exact ⟨record, hresult, Taken.refl hgone hfind, .inr hused⟩
      · exact ⟨record, hresult, Taken.refl hgone hfind, .inr hused⟩
      · exact ⟨record.handOut now, hresult, Taken.of_put hgone _, .inr hused⟩

theorem getLast (h : Faithful w) {faults : Faults} {now device : UInt32}
    (hcareful : CarefulStep w (.getLastKeyDevice faults now device)) :
    Faithful (w.next (.getLastKeyDevice faults now device)) := by
  rw [World.next]
  generalize hcall : getLastKeyDevice faults now device w.store = call
  obtain ⟨result, s'⟩ := call
  rcases h.getLast_cases hcareful hcall with ⟨rfl, rfl⟩ | ⟨sha, record, record', rfl, htaken, _⟩
  · exact h
  · exact h.taken ⟨s', w.handed ++ [sha], take w.pending sha⟩ htaken (by simp) rfl

theorem handsOut (h : Faithful w) {faults : Faults} {now device : UInt32}
    (hcareful : CarefulStep w (.getLastKeyDevice faults now device)) :
    HandsOut w faults now device := by
  have hcases := h.getLast_cases hcareful
    (Prod.mk.eta (p := getLastKeyDevice faults now device w.store)).symm
  refine ⟨fun next rest hpending sha record hresult ↦ ?_, fun hpending hfaults ↦ ?_,
    fun hpending sha record hresult ↦ ?_⟩
  · rcases hcases with ⟨hnone, _⟩ | ⟨sha', _, record', hsome, htaken, ⟨_, hfirst⟩ | ⟨hempty, _⟩⟩
    · cases hnone.symm.trans hresult
    · cases hsome.symm.trans hresult
      cases hpending.symm.trans hfirst
      refine ⟨rfl, h.fresh device next ?_, fun hentry ↦ ?_⟩
      · rw [hpending]
        exact List.mem_cons_self
      · exact (htaken.hasEntry_iff.mp hentry).1 rfl
    · cases hpending.symm.trans hempty
  · rw [hfaults]
    exact getLastKeyDevice_isSome h.linked (h.pending_eq_nil_iff.not.mp hpending)
  · rcases hcases with ⟨hnone, _⟩ | ⟨sha', _, record', hsome, htaken, ⟨_, hfirst⟩ | ⟨_, hused⟩⟩
    · cases hnone.symm.trans hresult
    · cases hpending.symm.trans hfirst
    · cases hsome.symm.trans hresult
      exact hused

end Faithful

/-- In every run of careful steps the queues are what the observer expects. -/
theorem faithful_of_run {events : List Event} {w : World}
    (hrun : (keyworker.guard CarefulStep).Run events w) : Faithful w := by
  refine hrun.invariant (fun w hw ↦ ?_) fun w e t h hstep ↦ ?_
  · obtain rfl : w = World.init := hw
    exact .init
  · obtain ⟨hnext, hcareful⟩ := hstep
    obtain rfl := Option.some.inj hnext
    cases e with
    | putKey now garbage recno k device => exact h.putKey now garbage recno k device
    | assignDeviceBySha now recno sha device => exact h.assign hcareful
    | getByKey sha => exact h
    | getLastKeyDevice faults now device => exact h.getLast hcareful

/-- After any run of careful steps, a careful call of `getLastKeyDevice` hands out the first unused
key of the device, or a used one when there is none. -/
theorem handsOut_of_run {events : List Event} {w : World}
    (hrun : (keyworker.guard CarefulStep).Run events w) {faults : Faults} {now device : UInt32}
    (hcareful : CarefulStep w (.getLastKeyDevice faults now device)) :
    HandsOut w faults now device :=
  (faithful_of_run hrun).handsOut hcareful

def firstKey : Key := ⟨fun _ ↦ 1, fun _ ↦ 11⟩

def secondKey : Key := ⟨fun _ ↦ 2, fun _ ↦ 12⟩

/-- Two keys come to device 0, one of them with garbage in its usage. -/
def twoKeys : List Event := [.putKey 0 256 1 firstKey 0, .putKey 0 0 2 secondKey 0]

theorem handsOut_of_run_twoKeys :
    ∃ w, (keyworker.guard CarefulStep).Run twoKeys w ∧ w.pending 0 = [firstKey.sha, secondKey.sha] ∧
      HandsOut w .none 0 0 := by
  have hstep (w : World) (garbage recno : UInt32) (k : Key) :
      (keyworker.guard CarefulStep).step w (.putKey 0 garbage recno k 0)
        (w.next (.putKey 0 garbage recno k 0)) := ⟨rfl, trivial⟩
  have hstart : (keyworker.guard CarefulStep).Run [] .init := .start rfl
  have hrun := (hstart.snoc (hstep _ 256 1 firstKey)).snoc (hstep _ 0 2 secondKey)
  exact ⟨_, hrun, by decide, handsOut_of_run hrun fun _ _ ↦ ⟨rfl, fun _ ↦ rfl⟩⟩

/-- The first call takes a key from the queue, and its commit fails. -/
def commitFails : Faults := { Faults.none with commit := true }

/-- The second call returns the same key again, although another one waits. -/
theorem not_handsOut_commit :
    ¬∀ events w, keyworker.Run events w → ∀ faults now device, HandsOut w faults now device := by
  intro h
  obtain ⟨w, hrun, hpending, hagain⟩ := Machine.exists_run_ofNext World.init
    (fun w e ↦ some (w.next e)) (twoKeys ++ [.getLastKeyDevice commitFails 0 0])
    (P := fun w ↦ w.pending 0 = [secondKey.sha] ∧
      (getLastKeyDevice .none 0 0 w.store).1.map Prod.fst = some firstKey.sha) (by decide)
  obtain ⟨⟨sha, record⟩, hresult, rfl⟩ := Option.map_eq_some_iff.mp hagain
  have hfirst := ((h _ w hrun .none 0 0).first _ _ hpending _ _ hresult).1
  exact absurd hfirst (by decide)

end QNet.Keyworker
