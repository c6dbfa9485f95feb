import QNet.Lib.Machine
import QNet.Tunnel.Loop

/-!
# Runs of a tunnel process

The loop takes frames and datagrams in any order, with any answers of the keyworker. A run ends
where the process dies. The packets sent so far are kept as a history.

Of the keys a datagram changes what the search for its key changes, and it may set the key to send
(`net2tap_keys`). So the receive branch leaves the sender's variables alone, except that keys it
asks for also go to `q1` (`net2tap_sender`).
-/

namespace QNet.Tunnel

inductive Input
  | frame (answers : Answers) (bytes : List UInt8)
  | datagram (answers : Answers) (source : Address) (bytes : List UInt8)

/-- One iteration of the loop. -/
def react (lib : Library) (cfg : Config) (s : Loop) : Input → Option (Loop × List Effect)
  | .frame answers bytes => tap2net lib cfg answers s bytes
  | .datagram answers source bytes => net2tap lib cfg answers s source bytes

/-- The packets handed to `sendto`. -/
def sent (effects : List Effect) : List (List UInt8) :=
  effects.filterMap fun effect ↦
    match effect with
    | .sendto _ packet => some packet
    | _ => none

structure Process where
  loop : Loop
  packets : List (List UInt8)

def Process.next (lib : Library) (cfg : Config) (s : Process) (input : Input) : Option Process :=
  (react lib cfg s.loop input).map fun next ↦ ⟨next.1, s.packets ++ sent next.2⟩

/-- The process enters the loop after its first query of the keyworker. -/
def Process.start (lib : Library) (nextkey : Option Bytes32) (s : Loop) : Process :=
  ⟨{ s with keys := getLastKey lib.sha256 nextkey Keys.init, curpakagenum := 0 }, []⟩

/-- The process with a given first answer of the keyworker; the remaining variables of `s` are the
addresses and an uninitialised buffer. -/
def process (lib : Library) (cfg : Config) (nextkey : Option Bytes32) (s : Loop) :
    Machine Process Input :=
  .ofNext (Process.start lib nextkey s) (Process.next lib cfg)

/-! ## What a datagram does to the keys -/

/-- A packet that is delivered sends nothing, and of the keys it can only set the key to send. -/
theorem deliver_keys {lib : Library} {cfg : Config} {answers : Answers} {s : Loop} {cnt : ℕ}
    {next : Loop × List Effect} (h : deliver lib cfg answers s cnt = next) :
    sent next.2 = [] ∧ ∃ key, next.1.keys = { s.keys with curKeyToSend := key } := by
  subst h
  have hwrite (off : ℕ) (t : Loop) (n : ℕ) : sent (writeFrame lib cfg off t n).2 = [] := by
    rw [writeFrame_effects]
    rfl
  have htake : sent (takeHeader answers s).2.1 = [] := by
    unfold takeHeader
    dsimp only
    split_ifs <;> rfl
  by_cases hprog : cfg.prog = .ctapudp
  · have hplain : deliver lib cfg answers s cnt = writeFrame lib cfg 0 s cnt := by
      rw [deliver, hprog]
    rw [hplain, writeFrame_keys]
    exact ⟨hwrite 0 s cnt, _, rfl⟩
  · rw [deliver_header lib answers s cnt hprog]
    dsimp only
    rw [writeFrame_keys, takeHeader_keys, sent, List.filterMap_append]
    exact ⟨List.append_eq_nil_iff.mpr ⟨htake, hwrite 4 _ _⟩, _, rfl⟩

theorem openSealed_keys {lib : Library} {cfg : Config} {answers : Answers} {s s' : Loop}
    {cnt : ℕ} {effects : List Effect}
    (h : openSealed lib cfg answers s cnt = some (s', effects)) :
    sent effects = [] ∧ ∃ key, s'.keys = { s.keys with curKeyToSend := key } := by
  rcases openSealed_cases h with ⟨_, rfl, rfl⟩ | ⟨_, _, hdelivered⟩
  · exact ⟨rfl, _, rfl⟩
  · exact deliver_keys hdelivered

/-- The keys after the search for the key of a datagram, as far as it came. -/
inductive Searched (answers : Answers) (s : Loop) (datagram : List UInt8) : Keys → Prop
  | untouched : Searched answers s datagram s.keys
  | first {keys : Keys} : firstKey s.keys = some keys → Searched answers s datagram keys
  | search {keys found : Keys} {ok : Bool} : firstKey s.keys = some keys →
      32 ≤ (datagram.take 2000).length →
      findKey answers.bySha (readBytes32 (s.buf.store 0 (datagram.take 2000)) 0)
        (keys.q2.items.length + 3) keys = some (found, ok) → Searched answers s datagram found

/-- A datagram sends nothing, and after the search only the key to send may be set. -/
theorem net2tap_keys {lib : Library} {cfg : Config} {answers : Answers} {s s' : Loop}
    {source : Address} {datagram : List UInt8} {effects : List Effect}
    (h : net2tap lib cfg answers s source datagram = some (s', effects)) :
    sent effects = [] ∧ ∃ k key, Searched answers s datagram k ∧
      s'.keys = { k with curKeyToSend := key } := by
  unfold net2tap at h
  dsimp only at h
  split at h
  · cases h
    exact ⟨rfl, _, _, .untouched, rfl⟩
  · rename_i keys hfirst
    have hkeys : Searched answers s datagram keys := by
      split_ifs at hfirst
      · exact .first hfirst
      · cases hfirst
        exact .untouched
    split at h
    · cases h
      exact ⟨rfl, keys, _, hkeys, rfl⟩
    · split_ifs at h with haes hshort
      · cases h
        exact ⟨rfl, keys, _, hkeys, rfl⟩
      · obtain ⟨⟨found, ok⟩, hfound, h⟩ := Option.bind_eq_some_iff.mp h
        rw [if_pos haes] at hfirst
        have hsearch : Searched answers s datagram found := .search hfirst (by omega) hfound
        cases ok with
        | false =>
          cases h
          exact ⟨rfl, found, _, hsearch, rfl⟩
        | true =>
          obtain ⟨hsent, key, hopened⟩ := openSealed_keys h
          exact ⟨hsent, found, key, hsearch, hopened⟩
      · obtain ⟨hsent, key, hdelivered⟩ := deliver_keys (Option.some.inj h)
        exact ⟨hsent, keys, key, hkeys, hdelivered⟩

/-! ## Receiving and the sender's keys -/

/-- From `k` to `k'` nothing happened to the sender but that new keys were queued. -/
structure SenderKept (k k' : Keys) : Prop where
  curKey1 : k'.curKey1 = k.curKey1
  waslimit : k'.waslimit = k.waslimit
  q1 : ∀ key ∈ k'.q1.items, key ∈ k.q1.items ∨ key.usage = 0

namespace SenderKept

theorem refl (k : Keys) : SenderKept k k := ⟨rfl, rfl, fun _ hkey ↦ .inl hkey⟩

theorem trans {k k' k'' : Keys} (h : SenderKept k k') (h' : SenderKept k' k'') :
    SenderKept k k'' where
  curKey1 := h'.curKey1.trans h.curKey1
  waslimit := h'.waslimit.trans h.waslimit
  q1 key hkey := (h'.q1 key hkey).elim (h.q1 key) .inr

theorem load (k : Keys) {key : Key} (hkey : key.usage = 0) : SenderKept k (k.load key) where
  curKey1 := rfl
  waslimit := rfl
  q1 other hother := by
    rcases BoundedQueue.mem_items_enqueue hother with hold | rfl
    · exact .inl hold
    · exact .inr hkey

theorem takeQ2 (k : Keys) (q2 : BoundedQueue Key) (key : Option Key) :
    SenderKept k { k with q2 := q2, curKey2 := key } :=
  ⟨rfl, rfl, fun _ hkey ↦ .inl hkey⟩

theorem toSend (k : Keys) (key : Option Bytes32) :
    SenderKept k { k with curKeyToSend := key } := ⟨rfl, rfl, fun _ hkey ↦ .inl hkey⟩

end SenderKept

theorem getLastKey_sender (sha256 : Bytes32 → Bytes32) (nextkey : Option Bytes32) (k : Keys) :
    SenderKept k (getLastKey sha256 nextkey k) := by
  cases nextkey with
  | none => exact .refl k
  | some buff => exact .load k rfl

theorem getKeyBySha_sender {nextkey : Option Bytes32} {sha : Bytes32} {k k' : Keys}
    (h : getKeyBySha nextkey sha k = some k') : SenderKept k k' := by
  obtain ⟨buff, _, rfl⟩ := Option.map_eq_some_iff.mp h
  exact .load k rfl

theorem firstKey_sender {k k' : Keys} (h : firstKey k = some k') : SenderKept k k' := by
  unfold firstKey at h
  split at h
  · cases h
    exact .refl k
  · obtain ⟨next, _, rfl⟩ := Option.map_eq_some_iff.mp h
    exact .takeQ2 k next.2 (some next.1)

theorem findKey_sender {nextkey : Option Bytes32} {sha : Bytes32} {fuel : ℕ} {k k' : Keys}
    {found : Bool} (h : findKey nextkey sha fuel k = some (k', found)) : SenderKept k k' := by
  refine findKey_invariant (P := SenderKept k) ?_ ?_ ?_ (.refl k) h
  · exact fun next key q2 _ hnext ↦ hnext.trans (.takeQ2 next q2 (some key))
  · exact fun next asked _ hasked _ hnext ↦ hnext.trans (getKeyBySha_sender hasked)
  · exact fun next asked key q2 _ hasked _ hnext ↦
      (hnext.trans (getKeyBySha_sender hasked)).trans (.takeQ2 asked q2 (some key))

/-- Of the sender's variables a datagram changes only `q1`, by new keys. -/
theorem net2tap_sender {lib : Library} {cfg : Config} {answers : Answers} {s s' : Loop}
    {source : Address} {datagram : List UInt8} {effects : List Effect}
    (h : net2tap lib cfg answers s source datagram = some (s', effects)) :
    SenderKept s.keys s'.keys ∧ sent effects = [] := by
  obtain ⟨hsent, k, key, hsearch, hkeys⟩ := net2tap_keys h
  have hkept : SenderKept s.keys k := by
    cases hsearch with
    | untouched => exact .refl _
    | first hfirst => exact firstKey_sender hfirst
    | search hfirst _ hfound => exact (firstKey_sender hfirst).trans (findKey_sender hfound)
  rw [hkeys]
  exact ⟨hkept.trans (.toSend k key), hsent⟩

/-! ## The size of q1 -/

theorem limit_getLastKey (sha256 : Bytes32 → Bytes32) (nextkey : Option Bytes32) (k : Keys) :
    (getLastKey sha256 nextkey k).q1.limit = k.q1.limit := by
  cases nextkey with
  | none => rfl
  | some buff => exact BoundedQueue.limit_enqueue _ _

/-- With room in `q1`, an answer of the keyworker can be taken from there. -/
theorem dequeue_getLastKey (sha256 : Bytes32 → Bytes32) (nextkey : Option Bytes32) {k : Keys}
    (hlimit : 0 < k.q1.limit) (hitems : k.q1.items = []) :
    ((getLastKey sha256 nextkey k).q1.dequeue = none ↔ nextkey = none) := by
  rw [BoundedQueue.dequeue_eq_none_iff]
  cases nextkey with
  | none => exact iff_of_true hitems rfl
  | some buff =>
    have hloaded : (k.q1.enqueue (constructKey sha256 buff)).items = [constructKey sha256 buff] :=
      BoundedQueue.items_enqueue_of_isEmpty hitems hlimit
    refine iff_of_false (fun hempty ↦ ?_) nofun
    exact List.cons_ne_nil _ _ (hloaded.symm.trans hempty)

theorem renewKey_limit {sha256 : Bytes32 → Bytes32} {haslimit changed : Bool}
    {nextkey : Option Bytes32} {k k' : Keys}
    (h : renewKey sha256 haslimit nextkey k = some (k', changed)) :
    k'.q1.limit = k.q1.limit := by
  unfold renewKey at h
  split at h
  · rename_i hq1
    cases h
    exact (BoundedQueue.dequeue_eq_some_iff.mp hq1).2
  · dsimp only at h
    split at h
    · cases h
      exact limit_getLastKey sha256 nextkey k
    · rename_i hq1
      have hlimit := (BoundedQueue.dequeue_eq_some_iff.mp hq1).2.trans
        (limit_getLastKey sha256 nextkey k)
      unfold adoptKey at h
      split at h
      · split at h
        · cases h
        · split_ifs at h <;> cases h <;> exact hlimit
      · cases h
        exact hlimit

theorem chooseKey_limit {sha256 : Bytes32 → Bytes32} {haslimit tosend : Bool}
    {nextkey : Option Bytes32} {k k' : Keys}
    (h : chooseKey sha256 haslimit nextkey k = some (k', tosend)) :
    k'.q1.limit = k.q1.limit := by
  unfold chooseKey at h
  split_ifs at h
  · exact renewKey_limit h
  · cases h
    rfl

theorem rotateKey_limit {sha256 : Bytes32 → Bytes32} {haslimit : Bool} {ppk : UInt16}
    {nextkey : Option Bytes32} {k k' : Keys}
    (h : rotateKey sha256 haslimit ppk nextkey k = some k') : k'.q1.limit = k.q1.limit := by
  unfold rotateKey at h
  split at h
  · cases h
  · split_ifs at h
    · obtain ⟨⟨next, changed⟩, hrenew, rfl⟩ := Option.map_eq_some_iff.mp h
      exact renewKey_limit hrenew
    · cases h
      rfl

theorem getKeyBySha_limit {nextkey : Option Bytes32} {sha : Bytes32} {k k' : Keys}
    (h : getKeyBySha nextkey sha k = some k') : k'.q1.limit = k.q1.limit := by
  obtain ⟨buff, _, rfl⟩ := Option.map_eq_some_iff.mp h
  exact BoundedQueue.limit_enqueue _ _

theorem findKey_limit {nextkey : Option Bytes32} {sha : Bytes32} {fuel : ℕ} {k k' : Keys}
    {found : Bool} (h : findKey nextkey sha fuel k = some (k', found)) :
    k'.q1.limit = k.q1.limit := by
  refine findKey_invariant (P := fun next ↦ next.q1.limit = k.q1.limit) ?_ ?_ ?_ rfl h
  · exact fun _ _ _ _ hnext ↦ hnext
  · exact fun _ _ _ hasked _ hnext ↦ (getKeyBySha_limit hasked).trans hnext
  · exact fun _ _ _ _ _ hasked _ hnext ↦ (getKeyBySha_limit hasked).trans hnext

theorem firstKey_limit {k k' : Keys} (h : firstKey k = some k') : k'.q1.limit = k.q1.limit := by
  unfold firstKey at h
  split at h
  · cases h
    rfl
  · obtain ⟨next, _, rfl⟩ := Option.map_eq_some_iff.mp h
    rfl

/-- No iteration changes the size with which `q1` was made. -/
theorem react_limit {lib : Library} {cfg : Config} {s s' : Loop} {input : Input}
    {effects : List Effect} (h : react lib cfg s input = some (s', effects)) :
    s'.keys.q1.limit = s.keys.q1.limit := by
  cases input with
  | frame answers bytes =>
    cases haes : cfg.aes with
    | false =>
      obtain ⟨⟨built, cnt⟩, hbuilt, h⟩ := Option.bind_eq_some_iff.mp h
      simp only [haes, Bool.false_eq_true, if_false] at h
      cases h
      obtain ⟨key, hkeys⟩ := buildPacket_keys hbuilt
      change built.keys.q1.limit = _
      rw [hkeys]
    | true =>
      obtain ⟨built, cnt, keys, tosend, hbuilt, hchoose, hsent⟩ := tap2net_cases haes h
      obtain ⟨key, hkeys⟩ := buildPacket_keys hbuilt
      have hlimit : keys.q1.limit = s.keys.q1.limit := by
        rw [chooseKey_limit hchoose, hkeys]
      rcases hsent with ⟨_, hs', _⟩ | ⟨_, cur, _, hrotate, _⟩
      · rw [hs', hlimit]
      · exact (rotateKey_limit hrotate).trans hlimit
  | datagram answers source bytes =>
    obtain ⟨_, k, key, hsearch, hkeys⟩ := net2tap_keys h
    have hlimit : k.q1.limit = s.keys.q1.limit := by
      cases hsearch with
      | untouched => rfl
      | first hfirst => exact firstKey_limit hfirst
      | search hfirst _ hfound => exact (findKey_limit hfound).trans (firstKey_limit hfirst)
    rw [hkeys]
    exact hlimit

end QNet.Tunnel
