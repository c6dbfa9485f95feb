import QNet.Keyworker.HandOut

/-!
# Handlers on a thread pool

A `request<device>` is two transactions: it takes a key of the default device and assigns it to the
device that asked. Between the two any transactions of other handlers may run.

A key of a device that is empty of unused ones is a second time that of the handler which finds it,
since `getLastKeyDevice` falls back to a used one. When a request is done its key belongs to the
device that asked, so that another device does not get it. But between its transactions the key is
still one of the default device, and a request for another device falls back to it.
`distinct_iff_of_run` says when no request gets a key that was given out before. The database calls
succeed here.
-/

namespace QNet.Keyworker

open Store

/-- `deviceId`, the device without a number in the command. -/
def deviceId : UInt32 := 0

/-- A key that was returned to a client. -/
structure Grant where
  key : Bytes32
  /-- By `request`, not by `last`. -/
  request : Bool
  device : UInt32
  deriving DecidableEq

/-- A request between its two transactions. -/
structure Waiting where
  key : Bytes32
  device : UInt32

/-- What the request returns when it is done. -/
def Waiting.grant (w : Waiting) : Grant := ⟨w.key, true, w.device⟩

structure Handlers where
  world : World
  waiting : List Waiting
  /-- The keys that were returned, in the order of the answers. -/
  answered : List Grant

inductive Transaction
  | upload (now garbage recno : UInt32) (key : Bytes32) (device : UInt32)
  | last (now device : UInt32)
  | key (sha : Bytes32)
  /-- The first transaction of a request. -/
  | request (now device : UInt32)
  /-- The second one, of the request at this position. -/
  | assign (now recno : UInt32) (position : ℕ)

namespace Handlers

def init : Handlers := ⟨.init, [], []⟩

def next (sha256 : Bytes32 → Bytes32) (s : Handlers) : Transaction → Handlers
  | .upload now garbage recno key device =>
      { s with world := s.world.next (.putKey now garbage recno ⟨sha256 key, key⟩ device) }
  | .last now device =>
      match (getLastKeyDevice .none now device s.world.store).1 with
      | none => s
      | some (_, lastKey) =>
          { s with
            world := s.world.next (.getLastKeyDevice .none now device)
            answered := s.answered ++ [⟨lastKey.key, false, device⟩] }
  | .key _ => s
  | .request now device =>
      match (getLastKeyDevice .none now deviceId s.world.store).1 with
      | none => s
      | some (_, lastKey) =>
          { s with
            world := s.world.next (.getLastKeyDevice .none now deviceId)
            waiting := s.waiting ++ [⟨lastKey.key, device⟩] }
  | .assign now recno position =>
      match s.waiting[position]? with
      | none => s
      | some w =>
          { s with
            world := s.world.next (.assignDeviceBySha now recno (sha256 w.key) w.device)
            waiting := s.waiting.eraseIdx position
            answered :=
              if (assignDeviceBySha now recno (sha256 w.key) w.device s.world.store).1 = 0 then
                s.answered ++ [w.grant]
              else s.answered }

end Handlers

def handlers (sha256 : Bytes32 → Bytes32) : Machine Handlers Transaction :=
  .ofNext .init fun s t ↦ some (s.next sha256 t)

/-! ## The store -/

/-- Keys are stored under their SHA, and those that were handed out are used. -/
structure Settled (sha256 : Bytes32 → Bytes32) (w : World) : Prop where
  faithful : Faithful w
  keyed : ∀ sha record, w.store.find sha = some record → sha256 record.key = sha
  used : ∀ sha record, w.store.find sha = some record → sha ∈ w.handed → record.usage ≠ 0

namespace Settled

variable {sha256 : Bytes32 → Bytes32} {w : World}

theorem init : Settled sha256 World.init where
  faithful := .init
  keyed sha record hfind := by cases (find_empty sha).symm.trans hfind
  used sha record hfind := by cases (find_empty sha).symm.trans hfind

/-- One record is put under the SHA of its key. -/
theorem update (h : Settled sha256 w) {t : World} (hfaithful : Faithful t) {sha : Bytes32}
    {record : Record} (hfind : ∀ other, t.store.find other =
      if other = sha then some record else w.store.find other)
    (hkey : sha256 record.key = sha) (hused : sha ∈ t.handed → record.usage ≠ 0)
    (hhanded : ∀ other ∈ t.handed, other ≠ sha → other ∈ w.handed) : Settled sha256 t := by
  refine ⟨hfaithful, fun other found hfound ↦ ?_, fun other found hfound hother ↦ ?_⟩
  · rw [hfind] at hfound
    split_ifs at hfound with heq
    · rw [heq, ← hkey, Option.some.inj hfound]
    · exact h.keyed other found hfound
  · rw [hfind] at hfound
    split_ifs at hfound with heq
    · exact Option.some.inj hfound ▸ hused (heq ▸ hother)
    · exact h.used other found hfound (hhanded other hother heq)

theorem putKey (h : Settled sha256 w) (now garbage recno : UInt32) (key : Bytes32)
    (device : UInt32) :
    Settled sha256 (w.next (.putKey now garbage recno ⟨sha256 key, key⟩ device)) := by
  have hfaithful := h.faithful.putKey now garbage recno ⟨sha256 key, key⟩ device
  rcases World.next_putKey_cases h.faithful.linked now garbage recno ⟨sha256 key, key⟩ device rfl
    with ⟨hsame, _⟩ | ⟨hnew, _, hplaced, hhanded, _⟩
  · rwa [hsame]
  · refine h.update hfaithful hplaced.find rfl (fun hsha ↦ ?_) fun other hother _ ↦ hhanded ▸ hother
    -- A new key was not handed out.
    have hstored := h.faithful.stored (sha256 key) (hhanded ▸ hsha)
    rw [hnew] at hstored
    cases hstored

/-- A key that was handed out is assigned. -/
theorem assign (h : Settled sha256 w) {sha : Bytes32} (hsha : sha ∈ w.handed)
    (now recno device : UInt32) :
    Settled sha256 (w.next (.assignDeviceBySha now recno sha device)) := by
  have hcareful : CarefulStep w (.assignDeviceBySha now recno sha device) := fun record hfind ↦
    ⟨fun _ ↦ h.faithful.not_hasEntry_of_handed hsha,
      fun hzero ↦ absurd hzero (h.used sha record hfind hsha)⟩
  have hfaithful := h.faithful.assign hcareful
  rcases World.next_assign_cases h.faithful.linked now recno sha device rfl with
    hsame | ⟨record, hfind, hhanded, _, ⟨hpos, hstore⟩ | ⟨hzero, _⟩⟩
  · rwa [hsame]
  · have hput (other : Bytes32) := congrArg (Store.find · other) hstore
    exact h.update hfaithful (fun other ↦ (hput other).trans (find_put w.store sha other _))
      (h.keyed sha record hfind) (fun _ ↦ hpos) fun other hother _ ↦ hhanded ▸ hother
  · exact absurd hzero (h.used sha record hfind hsha)

theorem getLast (h : Settled sha256 w) (now device : UInt32) :
    Settled sha256 (w.next (.getLastKeyDevice .none now device)) := by
  have hfaithful := h.faithful.getLast (carefulStep_none w now device)
  rcases World.next_getLast_cases h.faithful.linked now device rfl with
    hsame | ⟨sha, record, hfind, htaken, hhanded⟩
  · rwa [hsame]
  · refine h.update hfaithful htaken.find (h.keyed sha record hfind)
      (fun _ ↦ handOut_usage_ne record now) fun other hother hne ↦ ?_
    rw [hhanded] at hother
    exact (List.mem_append.mp hother).resolve_right fun hmem ↦ hne (List.mem_singleton.mp hmem)

end Settled

/-! ### Stored keys stay -/

/-- A record stays where it is and keeps its key. -/
def KeepsKeys (w t : World) : Prop :=
  ∀ sha record, w.store.find sha = some record →
    ∃ record', t.store.find sha = some record' ∧ record'.key = record.key

theorem KeepsKeys.refl (w : World) : KeepsKeys w w := fun _ record hfind ↦ ⟨record, hfind, rfl⟩

theorem KeepsKeys.of_find {w t : World} {sha : Bytes32} {record : Record}
    (hfind : ∀ other, t.store.find other =
      if other = sha then some record else w.store.find other)
    (hkey : ∀ old, w.store.find sha = some old → record.key = old.key) : KeepsKeys w t := by
  intro other old hold
  by_cases heq : other = sha
  · subst heq
    exact ⟨record, by rw [hfind, if_pos rfl], hkey old hold⟩
  · exact ⟨old, by rw [hfind, if_neg heq, hold], rfl⟩

theorem Settled.keepsKeys_putKey {sha256 : Bytes32 → Bytes32} {w : World} (h : Settled sha256 w)
    (now garbage recno : UInt32) (k : Key) (device : UInt32) :
    KeepsKeys w (w.next (.putKey now garbage recno k device)) := by
  rcases World.next_putKey_cases h.faithful.linked now garbage recno k device rfl with
    ⟨hsame, _⟩ | ⟨hnew, _, hplaced, _⟩
  · rw [hsame]
    exact .refl w
  · refine .of_find hplaced.find fun old hold ↦ ?_
    rw [hnew] at hold
    cases hold

theorem Settled.keepsKeys_assign {sha256 : Bytes32 → Bytes32} {w : World} (h : Settled sha256 w)
    {sha : Bytes32} (hsha : sha ∈ w.handed) (now recno device : UInt32) :
    KeepsKeys w (w.next (.assignDeviceBySha now recno sha device)) := by
  rcases World.next_assign_cases h.faithful.linked now recno sha device rfl with
    hsame | ⟨record, hfind, _, _, ⟨_, hstore⟩ | ⟨hzero, _⟩⟩
  · rw [hsame]
    exact .refl w
  · have hput (other : Bytes32) := congrArg (Store.find · other) hstore
    refine .of_find (fun other ↦ (hput other).trans (find_put w.store sha other _))
      fun old hold ↦ ?_
    obtain rfl := Option.some.inj (hfind.symm.trans hold)
    rfl
  · exact absurd hzero (h.used sha record hfind hsha)

theorem Settled.keepsKeys_getLast {sha256 : Bytes32 → Bytes32} {w : World} (h : Settled sha256 w)
    (now device : UInt32) : KeepsKeys w (w.next (.getLastKeyDevice .none now device)) := by
  rcases World.next_getLast_cases h.faithful.linked now device rfl with
    hsame | ⟨sha, record, hfind, htaken, _⟩
  · rw [hsame]
    exact .refl w
  · refine .of_find htaken.find fun old hold ↦ ?_
    obtain rfl := Option.some.inj (hfind.symm.trans hold)
    rfl

/-! ## Which key a handler gets -/

/-- The used key to which `getLastKeyDevice` falls back, when no unused one is in the queue. -/
def fallback (s : Store) (device : UInt32) : Option (Bytes32 × Record) :=
  if (s.entries device).isEmpty then
    Table.lastWhere s.main (fun record ↦ record.device = device) none
  else none

/-- An empty queue leaves the fallback. -/
theorem getLastKeyDevice_of_isEmpty {s : Store} (now : UInt32) {device : UInt32}
    (hempty : (s.entries device).isEmpty = true) :
    (getLastKeyDevice .none now device s).1 =
      (fallback s device).map fun next ↦ (next.1, next.2.handOut now) := by
  have hconsume : s.consume device = none := by
    cases hconsume : s.consume device with
    | none => rfl
    | some next =>
      obtain ⟨sha, s'⟩ := next
      obtain ⟨recno, rest, hentries, _⟩ := consume_cases hconsume
      rw [hentries] at hempty
      cases hempty
  rw [fallback, if_pos hempty]
  unfold getLastKeyDevice
  simp only [Faults.none, Bool.false_eq_true, if_false, hconsume]
  split
  · rename_i hrow
    rw [hrow, Option.map_none]
  · rename_i hrow
    rw [hrow, Option.map_some]
    rfl

/-- A handler gets a key of the main database. It was not handed out before, unless it is the
fallback. -/
theorem Settled.getLast_cases {sha256 : Bytes32 → Bytes32} {w : World} (h : Settled sha256 w)
    {now device : UInt32} {sha : Bytes32} {lastKey : Record}
    (hcall : (getLastKeyDevice .none now device w.store).1 = some (sha, lastKey)) :
    (∃ record, w.store.find sha = some record ∧ record.key = lastKey.key) ∧
      (w.next (.getLastKeyDevice .none now device)).handed = w.handed ++ [sha] ∧
      (fallback w.store device = none ∧ sha ∉ w.handed ∨
        ∃ next ∈ fallback w.store device, next.2.key = lastKey.key ∧ sha ∈ w.handed) := by
  have hcall' : getLastKeyDevice .none now device w.store = (some (sha, lastKey), _) :=
    Prod.ext hcall rfl
  refine ⟨?_, by rw [World.next, World.afterGetLast, hcall], ?_⟩
  · rcases getLastKeyDevice_succeeds h.faithful.linked hcall' with
      ⟨hnone, _⟩ | ⟨sha', record, hsome, hfind, _⟩
    · cases hnone
    · cases hsome
      exact ⟨record, hfind, rfl⟩
  · have hempty : (w.store.entries device).isEmpty = true ↔ w.pending device = [] := by
      rw [List.isEmpty_iff, h.faithful.pending_eq_nil_iff]
    rcases h.faithful.getLast_cases (carefulStep_none w now device) hcall' with
      ⟨hnone, _⟩ | ⟨sha', _, _, hsome, _, ⟨rest, hfirst⟩ | ⟨hpending, hused⟩⟩
    · cases hnone
    · cases hsome
      have hmem : sha ∈ w.pending device := by
        rw [hfirst]
        exact List.mem_cons_self
      refine .inl ⟨if_neg fun hnil ↦ ?_, h.faithful.fresh device sha hmem⟩
      rw [hempty.mp hnil] at hmem
      cases hmem
    · cases hsome
      rw [getLastKeyDevice_of_isEmpty now (hempty.mpr hpending)] at hcall
      obtain ⟨next, hnext, heq⟩ := Option.map_eq_some_iff.mp hcall
      cases heq
      exact .inr ⟨next, hnext, rfl, hused⟩

/-- The assignment of a key that was handed out succeeds. -/
theorem Settled.assign_succeeds {sha256 : Bytes32 → Bytes32} {w : World} (h : Settled sha256 w)
    {sha : Bytes32} (hsha : sha ∈ w.handed) (now recno device : UInt32) :
    (assignDeviceBySha now recno sha device w.store).1 = 0 := by
  obtain ⟨record, hfind⟩ := Option.isSome_iff_exists.mp (h.faithful.stored sha hsha)
  unfold assignDeviceBySha
  simp only [hfind, if_neg (h.used sha record hfind hsha)]

/-! ## The handlers -/

namespace Handlers

/-- The keys that were returned or are about to be. -/
def given (s : Handlers) : List Grant := s.answered ++ s.waiting.map Waiting.grant

/-- The later grant is not a request for the same key. -/
def Apart (g g' : Grant) : Prop := g'.request = true → g.key ≠ g'.key

/-- No request returned a key that a request or a `last` had returned before. In particular no two
requests, for whatever devices, returned the same key. -/
def Distinct (s : Handlers) : Prop := s.answered.Pairwise Apart

/-- The condition on the state before a transaction: a request does not find the queue of the
default device empty while the main database has a used key of it, and a `last` does not fall back
to the key of a request that is between its transactions. -/
def Undisturbed (s : Handlers) : Transaction → Prop
  | .request _ _ => fallback s.world.store deviceId = none
  | .last _ device => ∀ next ∈ fallback s.world.store device, ∀ w ∈ s.waiting, next.2.key ≠ w.key
  | _ => True

/-- What a run of handlers keeps: the keys that were handed out are those that were given to a
handler. -/
structure Sound (sha256 : Bytes32 → Bytes32) (s : Handlers) : Prop where
  settled : Settled sha256 s.world
  handed : ∀ sha, sha ∈ s.world.handed ↔ ∃ g ∈ s.given, sha256 g.key = sha
  stored : ∀ g ∈ s.given, ∃ record, s.world.store.find (sha256 g.key) = some record ∧
    record.key = g.key

variable {sha256 : Bytes32 → Bytes32} {s : Handlers}

namespace Sound

theorem init : Sound sha256 Handlers.init where
  settled := .init
  handed sha := by simp [given, Handlers.init, World.init]
  stored _ h := by cases h

/-- A handler takes another key. -/
theorem granted (h : Sound sha256 s) {now device : UInt32} {sha : Bytes32} {lastKey : Record}
    (hcall : (getLastKeyDevice .none now device s.world.store).1 = some (sha, lastKey))
    {s' : Handlers} (hworld : s'.world = s.world.next (.getLastKeyDevice .none now device))
    {g : Grant} (hkey : g.key = lastKey.key) (hperm : s'.given.Perm (g :: s.given)) :
    Sound sha256 s' := by
  obtain ⟨⟨record, hfind, hsame⟩, hhanded, _⟩ := h.settled.getLast_cases hcall
  have hsha : sha256 lastKey.key = sha := hsame ▸ h.settled.keyed sha record hfind
  have hkeeps := h.settled.keepsKeys_getLast now device
  refine ⟨hworld ▸ h.settled.getLast now device, fun other ↦ ?_, fun g' hg' ↦ ?_⟩
  · rw [hworld, hhanded, List.mem_append, List.mem_singleton, h.handed]
    simp only [hperm.mem_iff, List.mem_cons, or_and_right, exists_or, exists_eq_left, hkey, hsha]
    rw [or_comm, eq_comm]
  · rw [hperm.mem_iff, List.mem_cons] at hg'
    rw [hworld]
    rcases hg' with rfl | hold
    · obtain ⟨record', hfind', hsame'⟩ := hkeeps sha record hfind
      exact ⟨record', by rw [hkey, hsha, hfind'], by rw [hsame', hsame, hkey]⟩
    · obtain ⟨record, hfind, hsame⟩ := h.stored g' hold
      obtain ⟨record', hfind', hsame'⟩ := hkeeps _ record hfind
      exact ⟨record', hfind', hsame'.trans hsame⟩

theorem last (h : Sound sha256 s) (now device : UInt32) :
    Sound sha256 (s.next sha256 (.last now device)) := by
  rw [Handlers.next]
  split
  · exact h
  · rename_i sha lastKey hcall
    refine h.granted hcall rfl (g := ⟨lastKey.key, false, device⟩) rfl ?_
    rw [given, List.append_assoc]
    exact List.perm_middle

theorem request (h : Sound sha256 s) (now device : UInt32) :
    Sound sha256 (s.next sha256 (.request now device)) := by
  rw [Handlers.next]
  split
  · exact h
  · rename_i sha lastKey hcall
    refine h.granted hcall rfl (g := ⟨lastKey.key, true, device⟩) rfl ?_
    rw [given, List.map_append, ← List.append_assoc]
    exact List.perm_append_comm

/-- The key of a waiting request was handed out. -/
theorem handed_of_waiting (h : Sound sha256 s) {w : Waiting} (hw : w ∈ s.waiting) :
    sha256 w.key ∈ s.world.handed :=
  (h.handed _).mpr ⟨w.grant, List.mem_append_right _ (List.mem_map_of_mem hw), rfl⟩

/-- The second transaction of a request succeeds. -/
theorem next_assign (h : Sound sha256 s) (now recno : UInt32) {position : ℕ} {w : Waiting}
    (hw : s.waiting[position]? = some w) :
    s.next sha256 (.assign now recno position) =
      ⟨s.world.next (.assignDeviceBySha now recno (sha256 w.key) w.device),
        s.waiting.eraseIdx position, s.answered ++ [w.grant]⟩ := by
  have hret := h.settled.assign_succeeds (h.handed_of_waiting (List.mem_of_getElem? hw)) now recno
    w.device
  simp only [Handlers.next, hw, hret, if_true]

theorem assign (h : Sound sha256 s) (now recno : UInt32) (position : ℕ) :
    Sound sha256 (s.next sha256 (.assign now recno position)) := by
  cases hw : s.waiting[position]? with
  | none => simpa only [Handlers.next, hw] using h
  | some w =>
    have hhanded := h.handed_of_waiting (List.mem_of_getElem? hw)
    rw [h.next_assign now recno hw]
    have hperm : (s.answered ++ [w.grant] ++ (s.waiting.eraseIdx position).map Waiting.grant).Perm
        s.given := by
      rw [List.append_assoc]
      obtain ⟨hlt, heq⟩ := List.getElem?_eq_some_iff.mp hw
      have herase := (List.getElem_cons_eraseIdx_perm hlt).map Waiting.grant
      rw [heq] at herase
      exact herase.append_left s.answered
    refine ⟨h.settled.assign hhanded now recno w.device, fun sha ↦ ?_, fun g hg ↦ ?_⟩
    · simp only [given, hperm.mem_iff]
      exact h.handed sha
    · obtain ⟨record, hfind, hsame⟩ := h.stored g (hperm.mem_iff.mp hg)
      obtain ⟨record', hfind', hsame'⟩ :=
        h.settled.keepsKeys_assign hhanded now recno w.device _ record hfind
      exact ⟨record', hfind', hsame'.trans hsame⟩

theorem next (h : Sound sha256 s) (t : Transaction) : Sound sha256 (s.next sha256 t) := by
  cases t with
  | upload now garbage recno key device =>
    refine ⟨h.settled.putKey now garbage recno key device, h.handed, fun g hg ↦ ?_⟩
    obtain ⟨record, hfind, hsame⟩ := h.stored g hg
    obtain ⟨record', hfind', hsame'⟩ :=
      h.settled.keepsKeys_putKey now garbage recno ⟨sha256 key, key⟩ device _ record hfind
    exact ⟨record', hfind', hsame'.trans hsame⟩
  | last now device => exact h.last now device
  | key sha => exact h
  | request now device => exact h.request now device
  | assign now recno position => exact h.assign now recno position

end Sound

/-! ### What a step must meet -/

/-- A grant at the end of those that were given is apart from them when its key is a new one. -/
theorem pairwise_given_concat_iff {given : List Grant} {g : Grant} (hg : g.request = true) :
    (given ++ [g]).Pairwise Apart ↔ given.Pairwise Apart ∧ ∀ g' ∈ given, g'.key ≠ g.key := by
  rw [List.pairwise_append]
  simp only [List.pairwise_singleton, List.mem_singleton, forall_eq, true_and, Apart, hg,
    true_imp_iff]

/-- What `last` returns is apart from what was returned before it, but the requests that are
between their transactions come after it. -/
theorem pairwise_given_last_iff {answered : List Grant} {waiting : List Waiting} {g : Grant}
    (hg : g.request = false) :
    (answered ++ [g] ++ waiting.map Waiting.grant).Pairwise Apart ↔
      (answered ++ waiting.map Waiting.grant).Pairwise Apart ∧ ∀ w ∈ waiting, g.key ≠ w.key := by
  have hbefore (g' : Grant) : Apart g' g := fun hrequest ↦ by
    rw [hg] at hrequest
    cases hrequest
  have hafter (w : Waiting) : Apart g w.grant ↔ g.key ≠ w.key := forall_prop_of_true rfl
  simp only [List.append_assoc, List.singleton_append, List.pairwise_append, List.pairwise_cons,
    List.mem_cons, forall_eq_or_imp, hbefore, true_and, List.forall_mem_map, hafter]
  constructor
  · rintro ⟨hanswered, ⟨hnew, hwaiting⟩, hacross⟩
    exact ⟨⟨hanswered, hwaiting, hacross⟩, hnew⟩
  · rintro ⟨⟨hanswered, hwaiting, hacross⟩, hnew⟩
    exact ⟨hanswered, ⟨hnew, hwaiting⟩, hacross⟩

/-- The order in which requests get done does not matter. -/
theorem pairwise_given_assign_iff {answered : List Grant} {waiting : List Waiting} {position : ℕ}
    {w : Waiting} (hw : waiting[position]? = some w) :
    (answered ++ [w.grant] ++ (waiting.eraseIdx position).map Waiting.grant).Pairwise Apart ↔
      (answered ++ waiting.map Waiting.grant).Pairwise Apart := by
  have hperm : (w :: waiting.eraseIdx position).Perm waiting := by
    obtain ⟨hlt, heq⟩ := List.getElem?_eq_some_iff.mp hw
    have herase := List.getElem_cons_eraseIdx_perm hlt
    rwa [heq] at herase
  have hapart (w w' : Waiting) : Apart w.grant w'.grant ↔ w.key ≠ w'.key := forall_prop_of_true rfl
  rw [List.append_assoc, List.singleton_append, ← List.map_cons, List.pairwise_append,
    List.pairwise_append, List.pairwise_map, List.pairwise_map]
  simp only [hapart, List.forall_mem_map, hperm.mem_iff]
  rw [hperm.pairwise_iff fun hne ↦ Ne.symm hne]

/-- The key a handler takes is new to those that were given exactly when it is not the fallback. -/
theorem Sound.fallback_eq_none_iff (h : Sound sha256 s) {now device : UInt32} {sha : Bytes32}
    {lastKey : Record}
    (hcall : (getLastKeyDevice .none now device s.world.store).1 = some (sha, lastKey)) :
    fallback s.world.store device = none ↔ ∀ g ∈ s.given, g.key ≠ lastKey.key := by
  obtain ⟨⟨record, hfind, hsame⟩, _, ⟨hnone, hfresh⟩ | ⟨next, hnext, _, hused⟩⟩ :=
    h.settled.getLast_cases hcall
  · refine iff_of_true hnone fun g hg hkey ↦ hfresh ?_
    refine (h.handed sha).mpr ⟨g, hg, ?_⟩
    rw [hkey, ← hsame, h.settled.keyed sha record hfind]
  · -- The main database has one key under this SHA.
    obtain ⟨g, hg, rfl⟩ := (h.handed sha).mp hused
    obtain ⟨record', hfind', hsame'⟩ := h.stored g hg
    obtain rfl := Option.some.inj (hfind.symm.trans hfind')
    refine iff_of_false (fun hnone ↦ ?_) fun hall ↦ hall g hg (hsame'.symm.trans hsame)
    rw [hnone] at hnext
    cases hnext

theorem Sound.request_iff (h : Sound sha256 s) (now device : UInt32) :
    (s.next sha256 (.request now device)).given.Pairwise Apart ↔
      s.given.Pairwise Apart ∧ s.Undisturbed (.request now device) := by
  simp only [Handlers.next, Undisturbed]
  split
  · rename_i hcall
    have hnone : fallback s.world.store deviceId = none := by
      by_cases hempty : (s.world.store.entries deviceId).isEmpty = true
      · rw [getLastKeyDevice_of_isEmpty now hempty] at hcall
        exact Option.map_eq_none_iff.mp hcall
      · exact if_neg hempty
    exact (and_iff_left hnone).symm
  · rename_i sha lastKey hcall
    have hgiven : given { s with
        world := s.world.next (.getLastKeyDevice .none now deviceId)
        waiting := s.waiting ++ [⟨lastKey.key, device⟩] } =
          s.given ++ [⟨lastKey.key, true, device⟩] := by
      simp only [given, List.map_append, List.append_assoc]
      rfl
    rw [hgiven, pairwise_given_concat_iff rfl, h.fallback_eq_none_iff hcall]

theorem Sound.last_iff (h : Sound sha256 s) (now device : UInt32) :
    (s.next sha256 (.last now device)).given.Pairwise Apart ↔
      s.given.Pairwise Apart ∧ s.Undisturbed (.last now device) := by
  simp only [Handlers.next, Undisturbed]
  split
  · rename_i hcall
    refine (and_iff_left fun next hnext ↦ ?_).symm
    have hempty : (s.world.store.entries device).isEmpty = true := by
      by_contra hempty
      rw [fallback, if_neg hempty] at hnext
      cases hnext
    rw [getLastKeyDevice_of_isEmpty now hempty, Option.map_eq_none_iff] at hcall
    rw [hcall] at hnext
    cases hnext
  · rename_i sha lastKey hcall
    have hwaiting : (∀ w ∈ s.waiting, lastKey.key ≠ w.key) ↔
        ∀ next ∈ fallback s.world.store device, ∀ w ∈ s.waiting, next.2.key ≠ w.key := by
      obtain ⟨_, _, ⟨hnone, _⟩ | ⟨next, hnext, hsame, _⟩⟩ := h.settled.getLast_cases hcall
      · have hnew := (h.fallback_eq_none_iff hcall).mp hnone
        refine iff_of_true (fun w hw ↦ ?_) fun next hnext ↦ by rw [hnone] at hnext; cases hnext
        exact (hnew w.grant (List.mem_append_right _ (List.mem_map_of_mem hw))).symm
      · rw [Option.mem_def.mp hnext]
        simp only [Option.mem_def, Option.some.injEq, forall_eq', hsame]
    rw [← hwaiting]
    exact pairwise_given_last_iff rfl

theorem Sound.assign_iff (h : Sound sha256 s) (now recno : UInt32) (position : ℕ) :
    (s.next sha256 (.assign now recno position)).given.Pairwise Apart ↔
      s.given.Pairwise Apart := by
  cases hw : s.waiting[position]? with
  | none => simp only [Handlers.next, hw]
  | some w =>
    rw [h.next_assign now recno hw]
    exact pairwise_given_assign_iff hw

/-- A transaction keeps what was given apart exactly when it meets the condition. -/
theorem Sound.next_iff (h : Sound sha256 s) (t : Transaction) :
    (s.next sha256 t).given.Pairwise Apart ↔ s.given.Pairwise Apart ∧ s.Undisturbed t := by
  cases t with
  | upload => exact (and_iff_left trivial).symm
  | last now device => exact h.last_iff now device
  | key => exact (and_iff_left trivial).symm
  | request now device => exact h.request_iff now device
  | assign now recno position =>
    exact (h.assign_iff now recno position).trans (and_iff_left trivial).symm

end Handlers

open Handlers in
/-- With any number of handlers and any interleaving of their transactions: in a run all of whose
transactions meet the condition no request returns a key that a request or a `last` returned
before. And these are the only runs, as soon as no request is between its transactions. -/
theorem distinct_iff_of_run {sha256 : Bytes32 → Bytes32} {events : List Transaction} {s : Handlers}
    (hrun : (handlers sha256).Run events s) :
    (((handlers sha256).guard Undisturbed).Run events s → s.Distinct) ∧
      (s.waiting = [] →
        (s.Distinct ↔ ((handlers sha256).guard Undisturbed).Run events s)) := by
  have hiff : s.given.Pairwise Apart ↔ ((handlers sha256).guard Undisturbed).Run events s := by
    refine Machine.holds_iff_run_guard (I := Sound sha256) (P := fun s ↦ s.given.Pairwise Apart)
      .init .nil (fun s t _ h hstep ↦ ?_) (fun s t _ h hstep ↦ ?_) hrun
    · obtain rfl := Option.some.inj hstep
      exact h.next t
    · obtain rfl := Option.some.inj hstep
      exact h.next_iff t
  refine ⟨fun hguarded ↦ (List.pairwise_append.mp (hiff.mpr hguarded)).1, fun hdone ↦ ?_⟩
  rw [← hiff, Distinct, given, hdone, List.map_nil, List.append_nil]

instance (s : Handlers) : (t : Transaction) → Decidable (s.Undisturbed t)
  | .request _ _ => decidable_of_iff _ Option.isNone_iff_eq_none
  | .last _ device =>
      inferInstanceAs (Decidable (∀ next ∈ fallback s.world.store device, ∀ w ∈ s.waiting,
        next.2.key ≠ w.key))
  | .upload .. | .key _ | .assign .. => inferInstanceAs (Decidable True)

/-- Two keys are on the default device, and two devices ask at the same time; then one of them asks
for its last key again. -/
def twoRequests : List Transaction :=
  [.upload 0 0 1 (fun _ ↦ 1) 0, .upload 0 0 2 (fun _ ↦ 2) 0, .request 0 5, .request 0 6,
    .assign 0 0 1, .assign 0 0 0, .last 0 6]

theorem distinct_iff_of_run_twoRequests :
    ∃ s, (handlers id).Run twoRequests s ∧ s.waiting.length = 0 ∧ s.answered =
      [⟨fun _ ↦ 2, true, 6⟩, ⟨fun _ ↦ 1, true, 5⟩, ⟨fun _ ↦ 2, false, 6⟩] ∧ s.Distinct := by
  obtain ⟨s, hguarded, hwaiting, hanswered⟩ := Machine.exists_run_guard Handlers.init
    (fun s t ↦ some (s.next id t)) Handlers.Undisturbed twoRequests
    (P := fun s ↦ s.waiting.length = 0 ∧ s.answered =
      [⟨fun _ ↦ 2, true, 6⟩, ⟨fun _ ↦ 1, true, 5⟩, ⟨fun _ ↦ 2, false, 6⟩]) (by decide)
  have hrun : (handlers id).Run twoRequests s := hguarded.of_guard
  have hdone := (distinct_iff_of_run hrun).2 (List.length_eq_zero_iff.mp hwaiting)
  exact ⟨s, hrun, hwaiting, hanswered, hdone.mpr hguarded⟩

/-- One key is on the default device, and two devices ask for it at the same time. -/
def raceForKey : List Transaction :=
  [.upload 0 0 1 (fun _ ↦ 1) 0, .request 0 5, .request 0 6, .assign 0 0 0, .assign 0 0 0]

/-- Both get it, because it is still a key of the default device when the second one asks. -/
theorem not_requests_distinct :
    ¬∀ events s, (handlers id).Run events s → s.Distinct := by
  intro h
  obtain ⟨s, hrun, hanswered⟩ := Machine.exists_run_ofNext Handlers.init
    (fun s t ↦ some (s.next id t)) raceForKey
    (P := fun s ↦ s.answered = [⟨fun _ ↦ 1, true, 5⟩, ⟨fun _ ↦ 1, true, 6⟩]) (by decide)
  have hdistinct := h _ s hrun
  rw [Handlers.Distinct, hanswered] at hdistinct
  exact List.rel_of_pairwise_cons hdistinct List.mem_cons_self rfl rfl

end QNet.Keyworker
