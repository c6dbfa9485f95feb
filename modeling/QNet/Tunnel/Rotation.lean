import QNet.Tunnel.NullKey

/-!
# Rotation of keys

Without option `-l` a key should encrypt `ppk + 1` packets, and then give way to the next one as
soon as there is one. The program counts the packets in the key object, in sixteen bits. The count
comes back to zero after 65536 packets: with `ppk = 65535` it never exceeds `ppk`, and with a
smaller `ppk` it falls behind when no other key is to be had for so long. And the program looks for
another key after a packet only, so that one which comes to `q1` later is not taken for the next
packet. `rotatesInTime_iff` says that this is all that can go wrong.

Key objects are counted as they are taken from `q1`; the current one is the last of them.
-/

namespace QNet.Tunnel

/-- The process, with the number of key objects taken from `q1` so far and of the packets encrypted
under the last of them. -/
structure Sender where
  loop : Loop
  objects : ℕ
  count : ℕ
  /-- From each of these packets to the next one there was another key to be had. -/
  served : Bool
  /-- After the last of them there was one. -/
  offered : Bool

/-- A key is taken before the next packet. -/
def Keys.takesKey (k : Keys) : Bool := k.curKey1.isNone || k.waslimit

/-- After a packet `rotateKey` takes another key object. -/
def rotates (sha256 : Bytes32 → Bytes32) (haslimit : Bool) (ppk : UInt16)
    (nextkey : Option Bytes32) (k : Keys) : Bool :=
  k.curKey1.any fun cur ↦
    decide (cur.usage > ppk) && (renewKey sha256 haslimit nextkey k).any Prod.snd

/-- The keys after a packet was encrypted under the chosen one; `none` when no packet is encrypted,
for want of a key or of AES. -/
def Keys.sealedKeys (lib : Library) (cfg : Config) (answers : Answers) (k : Keys) : Option Keys :=
  if cfg.aes then
    match chooseKey lib.sha256 cfg.haslimit answers.choose k with
    | some (keys, true) => keys.curKey1.map fun cur ↦ { keys with curKey1 := some cur.used }
    | _ => none
  else none

/-- Another key is to be had: `q1` holds one, or the keyworker answers with one. -/
def Keys.another (nextkey : Option Bytes32) (k : Keys) : Bool :=
  !k.q1.items.isEmpty || nextkey.isSome

theorem Keys.another_iff {nextkey : Option Bytes32} {k : Keys} :
    k.another nextkey = true ↔ k.q1.items ≠ [] ∨ nextkey ≠ none := by
  simp [Keys.another, Option.isSome_iff_ne_none]

namespace Sender

/-- The key object under which the next packet is encrypted. -/
def packetObject (s : Sender) : ℕ := if s.loop.keys.takesKey then s.objects + 1 else s.objects

/-- How many packets it has encrypted then. -/
def packetCount (s : Sender) : ℕ := if s.loop.keys.takesKey then 1 else s.count + 1

/-- From each packet it has encrypted before to the next one there was another key to be had. -/
def packetServed (s : Sender) (answers : Answers) : Bool :=
  s.loop.keys.takesKey || (s.served && (s.offered || s.loop.keys.another answers.choose))

variable (lib : Library) (cfg : Config)

/-- One iteration. -/
def next (s : Sender) (input : Input) : Option Sender :=
  (react lib cfg s.loop input).map fun (loop, _) ↦
    match input with
    | .datagram .. => { s with loop := loop }
    | .frame answers _ =>
        match s.loop.keys.sealedKeys lib cfg answers with
        | none => { s with loop := loop }
        | some keys =>
            if rotates lib.sha256 cfg.haslimit cfg.ppk answers.rotate keys then
              ⟨loop, s.packetObject + 1, 0, true, true⟩
            else
              ⟨loop, s.packetObject, s.packetCount, s.packetServed answers,
                keys.another answers.rotate⟩

/-- The process enters the loop after its first query of the keyworker. -/
def start (nextkey : Option Bytes32) (s : Loop) : Sender :=
  ⟨(Process.start lib nextkey s).loop, 0, 0, true, true⟩

/-- All runs. -/
def machine (nextkey : Option Bytes32) (s : Loop) : Machine Sender Input :=
  .ofNext (start lib nextkey s) (next lib cfg)

/-- A packet is encrypted whose key has encrypted `ppk + 1` packets with it, and after it there is
another key. -/
def Due (s : Sender) : Input → Prop
  | .datagram .. => False
  | .frame answers _ => cfg.ppk.toNat + 1 ≤ s.packetCount ∧
      ∃ keys ∈ s.loop.keys.sealedKeys lib cfg answers, keys.another answers.rotate = true

/-- A packet is encrypted after the current key has encrypted `ppk + 1` packets, and before it there
is another key. -/
def Overdue (s : Sender) : Input → Prop
  | .datagram .. => False
  | .frame answers _ => cfg.ppk.toNat + 1 ≤ s.count ∧
      (s.loop.keys.sealedKeys lib cfg answers).isSome ∧ s.loop.keys.another answers.choose = true

/-- In both cases the next packet is encrypted under another key object. -/
def InTime (s : Sender) (input : Input) : Prop :=
  (s.Due lib cfg input → ∀ t, s.next lib cfg input = some t → t.packetObject ≠ s.packetObject) ∧
    (s.Overdue lib cfg input → s.packetObject ≠ s.objects)

/-- The packet is one of at most `ppk + 1` under its key, if another key was always to be had. -/
def Within (s : Sender) : Input → Prop
  | .datagram .. => True
  | .frame answers _ => (s.loop.keys.sealedKeys lib cfg answers).isSome →
      s.packetServed answers = true → s.packetCount ≤ cfg.ppk.toNat + 1

/-- The count in the key object has not come back to `ppk` or less. -/
def NotWrapped (s : Sender) (input : Input) : Prop :=
  s.Due lib cfg input → cfg.ppk.toNat < s.packetCount % 2 ^ 16

/-- No other key has come since the current one was looked at after its last packet, when it has
encrypted `ppk + 1` packets. -/
def NotLate (s : Sender) : Input → Prop
  | .datagram .. => True
  | .frame answers _ => cfg.ppk.toNat + 1 ≤ s.count →
      (s.loop.keys.sealedKeys lib cfg answers).isSome →
        s.loop.keys.q1.items.length = 0 ∧ answers.choose.isNone

end Sender

/-! ## Keys without option -l -/

/-- What holds of the keys without option `-l`. -/
structure Keys.Unlimited (k : Keys) : Prop where
  waslimit : k.waslimit = false
  limit : 0 < k.q1.limit
  queued : ∀ key ∈ k.q1.items, key.usage = 0

variable {sha256 : Bytes32 → Bytes32} {nextkey : Option Bytes32} {k k' : Keys}

theorem Keys.Unlimited.of_sender (hk : k.Unlimited) (hkept : SenderKept k k')
    (hlimit : k'.q1.limit = k.q1.limit) : k'.Unlimited where
  waslimit := hkept.waslimit.trans hk.waslimit
  limit := hlimit ▸ hk.limit
  queued key hkey := (hkept.q1 key hkey).elim (hk.queued key) id

/-- A key is taken exactly when there is one, and then it is a fresh object. -/
theorem renewKey_unlimited (sha256 : Bytes32 → Bytes32) (nextkey : Option Bytes32)
    (hk : k.Unlimited) :
    ∃ k' changed, renewKey sha256 false nextkey k = some (k', changed) ∧ k'.Unlimited ∧
      (changed = true ↔ k.another nextkey = true) ∧
      (changed = true → ∃ key, k'.curKey1 = some key ∧ key.usage = 0) ∧
      (changed = false → k'.curKey1 = k.curKey1) := by
  have htake {k : Keys} (hk : k.Unlimited) {key : Key} {q1 : BoundedQueue Key}
      (hq1 : k.q1.dequeue = some (key, q1)) :
      { k with q1 := q1, curKey1 := some key }.Unlimited ∧ key.usage = 0 := by
    obtain ⟨hitems, hlimit⟩ := BoundedQueue.dequeue_eq_some_iff.mp hq1
    refine ⟨⟨hk.waslimit, hlimit.symm ▸ hk.limit, fun other hother ↦ ?_⟩, ?_⟩
    · exact hk.queued other (hitems ▸ List.mem_cons_of_mem key hother)
    · exact hk.queued key (hitems ▸ List.mem_cons_self)
  rw [Keys.another_iff]
  cases hq1 : k.q1.dequeue with
  | some next =>
    obtain ⟨hnext, hfresh⟩ := htake hk hq1
    have hitems : k.q1.items ≠ [] := by
      rw [(BoundedQueue.dequeue_eq_some_iff.mp hq1).1]
      exact List.cons_ne_nil _ _
    refine ⟨_, true, by rw [renewKey, hq1], hnext, iff_of_true rfl (.inl hitems), ?_, nofun⟩
    exact fun _ ↦ ⟨next.1, rfl, hfresh⟩
  | none =>
    have hitems := BoundedQueue.dequeue_eq_none_iff.mp hq1
    have hkept := getLastKey_sender sha256 nextkey k
    have hasked := hk.of_sender hkept (limit_getLastKey sha256 nextkey k)
    have hanswer := dequeue_getLastKey sha256 nextkey hk.limit hitems
    cases hnext : (getLastKey sha256 nextkey k).q1.dequeue with
    | none =>
      have hnone := hanswer.mp hnext
      refine ⟨_, false, by simp only [renewKey, hq1, hnext], hasked, ?_, nofun,
        fun _ ↦ hkept.curKey1⟩
      exact iff_of_false nofun fun h ↦ h.elim (absurd hitems) (absurd hnone)
    | some next =>
      obtain ⟨hnextKeys, hfresh⟩ := htake hasked hnext
      have hsome : nextkey ≠ none := fun hnone ↦ nomatch hnext.symm.trans (hanswer.mpr hnone)
      refine ⟨_, true, by simp only [renewKey, hq1, hnext, adoptKey]; rfl, hnextKeys,
        iff_of_true rfl (.inr hsome), fun _ ↦ ⟨next.1, rfl, hfresh⟩, nofun⟩

theorem chooseKey_of_takesKey_eq_false (htakes : k.takesKey = false)
    (sha256 : Bytes32 → Bytes32) (haslimit : Bool) (nextkey : Option Bytes32) :
    chooseKey sha256 haslimit nextkey k = some (k, true) :=
  if_neg (Bool.eq_false_iff.mp htakes)

/-- The key for the next packet is a fresh object, or the current one. -/
theorem chooseKey_unlimited (sha256 : Bytes32 → Bytes32) (nextkey : Option Bytes32)
    (hk : k.Unlimited) :
    ∃ k' tosend, chooseKey sha256 false nextkey k = some (k', tosend) ∧ k'.Unlimited ∧
      (tosend = true → ∃ cur, k'.curKey1 = some cur ∧
        if k.takesKey then cur.usage = 0 else k.curKey1 = some cur) ∧
      (tosend = false → k'.curKey1 = k.curKey1) := by
  cases htakes : k.takesKey with
  | true =>
    obtain ⟨k', changed, hrenew, hk', _, hchanged, hkept⟩ :=
      renewKey_unlimited sha256 nextkey hk
    refine ⟨k', changed, ?_, hk', fun h ↦ ?_, hkept⟩
    · rw [chooseKey, ← hrenew]
      exact if_pos htakes
    · obtain ⟨key, hkey, hfresh⟩ := hchanged h
      exact ⟨key, hkey, by rwa [if_pos rfl]⟩
  | false =>
    have hsame := chooseKey_of_takesKey_eq_false htakes sha256 false nextkey
    rw [Keys.takesKey, Bool.or_eq_false_iff, Option.isNone_eq_false_iff] at htakes
    obtain ⟨cur, hcur⟩ := Option.isSome_iff_exists.mp htakes.1
    exact ⟨k, true, hsame, hk, fun _ ↦ ⟨cur, hcur, by simpa using hcur⟩, nofun⟩

/-- Another key object is taken when the count exceeds `ppk` and there is one. -/
theorem rotateKey_unlimited (sha256 : Bytes32 → Bytes32) (ppk : UInt16)
    (nextkey : Option Bytes32) {cur : Key} (hk : k.Unlimited) (hcur : k.curKey1 = some cur) :
    ∃ k', rotateKey sha256 false ppk nextkey k = some k' ∧ k'.Unlimited ∧
      (rotates sha256 false ppk nextkey k = true ↔
        ppk < cur.usage ∧ k.another nextkey = true) ∧
      if rotates sha256 false ppk nextkey k then ∃ key, k'.curKey1 = some key ∧ key.usage = 0
      else k'.curKey1 = some cur := by
  obtain ⟨k', changed, hrenew, hk', hthere, hchanged, hkept⟩ :=
    renewKey_unlimited sha256 nextkey hk
  unfold rotateKey rotates
  simp only [hcur, hrenew, Option.any_some, Option.map_some]
  by_cases hexceeds : ppk < cur.usage
  · rw [if_pos hexceeds, decide_eq_true hexceeds, Bool.true_and, ← hthere]
    refine ⟨k', rfl, hk', (and_iff_right hexceeds).symm, ?_⟩
    cases changed with
    | true => simpa using hchanged rfl
    | false => simpa [hcur] using hkept rfl
  · rw [if_neg hexceeds, decide_eq_false hexceeds, Bool.false_and]
    exact ⟨k, rfl, hk, iff_of_false nofun fun h ↦ hexceeds h.1, by simpa using hcur⟩

/-! ## One iteration -/

theorem rotates_toSend (sha256 : Bytes32 → Bytes32) (haslimit : Bool) (ppk : UInt16)
    (nextkey : Option Bytes32) (k : Keys) (key : Option Bytes32) :
    rotates sha256 haslimit ppk nextkey { k with curKeyToSend := key } =
      rotates sha256 haslimit ppk nextkey k := by
  unfold rotates
  rw [renewKey_toSend]
  simp only [Option.any_map]

theorem Keys.Unlimited.toSend (hk : k.Unlimited) (cur : Option Key) (key : Option Bytes32) :
    { k with curKey1 := cur, curKeyToSend := key }.Unlimited := ⟨hk.waslimit, hk.limit, hk.queued⟩

/-- After the `n`-th packet under `cur`: there is another key object if the sixteen bits exceed
`ppk` and there is another key. The count begins anew with it. -/
theorem rotateKey_used {ppk : UInt16} {cur : Key} {key : Option Bytes32} {n : ℕ}
    (hk : k.Unlimited) (husage : cur.used.usage.toNat = n % 2 ^ 16)
    (hrotate : rotateKey sha256 false ppk nextkey
      { k with curKey1 := some cur.used, curKeyToSend := key } = some k') :
    k'.Unlimited ∧
      (rotates sha256 false ppk nextkey { k with curKey1 := some cur.used } = true ↔
        ppk.toNat < n % 2 ^ 16 ∧ k.another nextkey = true) ∧
      ∃ cur', k'.curKey1 = some cur' ∧ cur'.usage.toNat =
        (if rotates sha256 false ppk nextkey { k with curKey1 := some cur.used } then 0 else n) %
          2 ^ 16 := by
  obtain ⟨rotated, hrotated, hunlimited, hrotates, hcur⟩ :=
    rotateKey_unlimited sha256 ppk nextkey (hk.toSend (some cur.used) key) rfl
  cases hrotated.symm.trans hrotate
  have htosend := rotates_toSend sha256 false ppk nextkey { k with curKey1 := some cur.used } key
  rw [htosend] at hrotates hcur
  rw [UInt16.lt_iff_toNat_lt, husage] at hrotates
  refine ⟨hunlimited, hrotates, ?_⟩
  split_ifs at hcur ⊢
  · obtain ⟨next, hnext, hfresh⟩ := hcur
    exact ⟨next, hnext, by rw [hfresh]; rfl⟩
  · exact ⟨cur.used, hcur, husage⟩

/-- With a key a packet is always encrypted. -/
theorem sealedKeys_of_curKey1 {lib : Library} {cfg : Config} (haes : cfg.aes = true)
    (answers : Answers) (htakes : k.takesKey = false) {cur : Key} (hcur : k.curKey1 = some cur) :
    k.sealedKeys lib cfg answers = some { k with curKey1 := some cur.used } := by
  unfold Keys.sealedKeys
  rw [if_pos haes, chooseKey_of_takesKey_eq_false htakes]
  dsimp only
  rw [hcur, Option.map_some]

/-- The keys after a frame, when no packet was sent and when one was. -/
theorem tap2net_sealedKeys {lib : Library} {cfg : Config} {answers : Answers} {s s' : Loop}
    {frame : List UInt8} {effects : List Effect} (haes : cfg.aes = true)
    (h : tap2net lib cfg answers s frame = some (s', effects)) :
    (∃ keys key, s.keys.sealedKeys lib cfg answers = none ∧
        chooseKey lib.sha256 cfg.haslimit answers.choose s.keys = some (keys, false) ∧
        s'.keys = { keys with curKeyToSend := key }) ∨
      ∃ keys cur key, s.keys.sealedKeys lib cfg answers =
          some { keys with curKey1 := some cur.used } ∧
        chooseKey lib.sha256 cfg.haslimit answers.choose s.keys = some (keys, true) ∧
        keys.curKey1 = some cur ∧
        rotateKey lib.sha256 cfg.haslimit cfg.ppk answers.rotate
          { keys with curKey1 := some cur.used, curKeyToSend := key } = some s'.keys := by
  obtain ⟨built, cnt, chosen, tosend, hbuilt, hchoose, hsent⟩ := tap2net_cases haes h
  obtain ⟨key, hkeys⟩ := buildPacket_keys hbuilt
  rw [hkeys, chooseKey_toSend] at hchoose
  obtain ⟨⟨keys, tosend'⟩, hchosen, heq⟩ := Option.map_eq_some_iff.mp hchoose
  cases heq
  unfold Keys.sealedKeys
  rw [if_pos haes, hchosen]
  rcases hsent with ⟨rfl, hs', _⟩ | ⟨rfl, cur, hcur, hrotate, _⟩
  · exact .inl ⟨keys, key, rfl, rfl, hs'⟩
  · refine .inr ⟨keys, cur, key, ?_, rfl, hcur, hrotate⟩
    dsimp only
    rw [hcur, Option.map_some]

namespace Sender

/-- The key object counts the packets, as far as sixteen bits go. -/
structure Counted (s : Sender) : Prop where
  unlimited : s.loop.keys.Unlimited
  usage : ∀ cur ∈ s.loop.keys.curKey1, cur.usage.toNat = s.count % 2 ^ 16
  current : 0 < s.count → s.loop.keys.curKey1.isSome

variable {lib : Library} {cfg : Config} {s t : Sender}

/-- The count in the key object, after the packet. -/
theorem Counted.usage_used (hs : s.Counted) {cur : Key}
    (hcur : if s.loop.keys.takesKey then cur.usage = 0 else s.loop.keys.curKey1 = some cur) :
    cur.used.usage.toNat = s.packetCount % 2 ^ 16 := by
  have hused : cur.used.usage.toNat = (cur.usage.toNat + 1) % 2 ^ 16 :=
    UInt16.toNat_add cur.usage 1
  unfold packetCount
  split_ifs at hcur ⊢ with htakes
  · rw [hused, hcur]
    rfl
  · rw [hused, hs.usage cur hcur, Nat.mod_add_mod]

/-- Once there is a key, no other is taken before a packet. -/
theorem Counted.takesKey_eq_false (hs : s.Counted) {cur : Key}
    (hcur : s.loop.keys.curKey1 = some cur) : s.loop.keys.takesKey = false := by
  rw [Keys.takesKey, hcur, hs.unlimited.waslimit]
  rfl

/-- A frame keeps the count right. A packet is sent, and there is another key object afterwards if
the sixteen bits exceed `ppk` and there is another key. -/
theorem next_frame {answers : Answers} {bytes : List UInt8} (haes : cfg.aes = true)
    (hlimit : cfg.haslimit = false) (hs : s.Counted)
    (ht : s.next lib cfg (.frame answers bytes) = some t) :
    t.Counted ∧ (s.loop.keys.sealedKeys lib cfg answers = none ∧ t = { s with loop := t.loop } ∨
      ∃ keys, s.loop.keys.sealedKeys lib cfg answers = some keys ∧
        (∃ cur, t.loop.keys.curKey1 = some cur) ∧
        if cfg.ppk.toNat < s.packetCount % 2 ^ 16 ∧ keys.another answers.rotate = true then
          t = ⟨t.loop, s.packetObject + 1, 0, true, true⟩
        else t = ⟨t.loop, s.packetObject, s.packetCount, s.packetServed answers,
          keys.another answers.rotate⟩) := by
  obtain ⟨⟨loop, effects⟩, hreact, hnext⟩ := Option.map_eq_some_iff.mp ht
  obtain ⟨chosen, tosend, hchosen, hchosenKeys, hcur, hnone⟩ :=
    chooseKey_unlimited lib.sha256 answers.choose hs.unlimited
  rw [← hlimit] at hchosen
  rcases tap2net_sealedKeys haes hreact with
    ⟨keys, key, hsealed, hchoose, hkeys⟩ | ⟨keys, cur, key, hsealed, hchoose, hcurKey, hrotate⟩
  · cases hchosen.symm.trans hchoose
    simp only [hsealed] at hnext
    subst hnext
    refine ⟨⟨?_, ?_, ?_⟩, .inl ⟨hsealed, rfl⟩⟩
    · rw [hkeys]
      exact hchosenKeys.toSend _ _
    · intro cur hcur
      rw [hkeys] at hcur
      exact hs.usage cur (hnone rfl ▸ hcur)
    · rw [hkeys]
      exact fun hcount ↦ hnone rfl ▸ hs.current hcount
  · cases hchosen.symm.trans hchoose
    obtain ⟨cur', hcur', hfresh⟩ := hcur rfl
    cases hcurKey.symm.trans hcur'
    rw [hlimit] at hrotate
    obtain ⟨hunlimited, hrotates, next, hnextKey, husage⟩ :=
      rotateKey_used hchosenKeys (hs.usage_used hfresh) hrotate
    rw [← hlimit] at hrotates husage
    simp only [hsealed] at hnext
    subst hnext
    split_ifs at husage ⊢ with hchanged
    · refine ⟨⟨hunlimited, ?_, fun _ ↦ ?_⟩, .inr ⟨_, hsealed, ⟨next, hnextKey⟩, ?_⟩⟩
      · intro cur hcur
        cases hnextKey.symm.trans hcur
        exact husage
      · rw [hnextKey]
        rfl
      · exact (if_pos (hrotates.mp hchanged)).mpr rfl
    · refine ⟨⟨hunlimited, ?_, fun _ ↦ ?_⟩, .inr ⟨_, hsealed, ⟨next, hnextKey⟩, ?_⟩⟩
      · intro cur hcur
        cases hnextKey.symm.trans hcur
        exact husage
      · rw [hnextKey]
        rfl
      · exact (if_neg (mt hrotates.mpr hchanged)).mpr rfl

/-- A datagram leaves the current key and its count alone. -/
theorem next_datagram {answers : Answers} {source : Address} {bytes : List UInt8}
    (hs : s.Counted) (ht : s.next lib cfg (.datagram answers source bytes) = some t) :
    t.Counted ∧ t = { s with loop := t.loop } := by
  obtain ⟨⟨loop, effects⟩, hreact, rfl⟩ := Option.map_eq_some_iff.mp ht
  have hkept := (net2tap_sender hreact).1
  refine ⟨⟨hs.unlimited.of_sender hkept (react_limit hreact), fun cur hcur ↦ ?_, fun hcount ↦ ?_⟩,
    rfl⟩
  · exact hs.usage cur (hkept.curKey1.symm.trans hcur)
  · dsimp only
    rw [hkept.curKey1]
    exact hs.current hcount

theorem sealedKeys_of_not_aes (haes : cfg.aes ≠ true) (answers : Answers) (k : Keys) :
    k.sealedKeys lib cfg answers = none := if_neg haes

/-- The process dies of a frame that comes before the first key. -/
theorem next_eq_none_iff (lib : Library) (cfg : Config) (hlimit : 0 < s.loop.keys.q1.limit)
    (answers : Answers) (bytes : List UInt8) :
    s.next lib cfg (.frame answers bytes) = none ↔
      BeforeKey cfg s.loop (.frame answers bytes) := by
  rw [← none_mem_sendReads lib cfg answers hlimit bytes,
    ← tap2net_eq_none_iff lib cfg answers s.loop bytes]
  exact Option.map_eq_none_iff

theorem packetCount_le (s : Sender) : s.packetCount ≤ s.count + 1 := by
  unfold packetCount
  split_ifs
  · omega
  · exact le_rfl

/-! ## Rotation in time -/

/-- The invariant: the count is right, and while another key was always to be had, at most `ppk + 1`
packets were encrypted, and at most `ppk` if one was to be had after the last of them. -/
structure Served (cfg : Config) (s : Sender) : Prop where
  counted : cfg.aes = true → s.Counted
  count : s.served = true → s.count ≤ cfg.ppk.toNat + 1
  offered : s.served = true → s.offered = true → s.count ≤ cfg.ppk.toNat

theorem aes_of_sealedKeys {answers : Answers} {k : Keys}
    (h : (k.sealedKeys lib cfg answers).isSome = true) : cfg.aes = true := by
  by_contra haes
  rw [sealedKeys_of_not_aes haes] at h
  cases h

/-- The current key stays for the next packet. -/
theorem Counted.packetObject_eq (hs : s.Counted) (hcount : 0 < s.count) :
    s.packetObject = s.objects := by
  obtain ⟨cur, hcur⟩ := Option.isSome_iff_exists.mp (hs.current hcount)
  rw [packetObject, hs.takesKey_eq_false hcur]
  rfl

theorem Served.within (hs : s.Served cfg) {input : Input} (hlate : s.NotLate lib cfg input) :
    s.Within lib cfg input := by
  cases input with
  | datagram => exact trivial
  | frame answers bytes =>
    intro hsealed hserved
    unfold packetCount
    split_ifs with htakes
    · omega
    · rw [packetServed, Bool.eq_false_iff.mpr htakes, Bool.false_or, Bool.and_eq_true,
        Bool.or_eq_true] at hserved
      obtain ⟨hbefore, hoffered | hanother⟩ := hserved
      · exact Nat.succ_le_succ (hs.offered hbefore hoffered)
      · -- What has come since the last packet would have been late.
        have hbound : ¬ cfg.ppk.toNat + 1 ≤ s.count := by
          intro hmany
          obtain ⟨hitems, hchoose⟩ := hlate hmany hsealed
          rcases Keys.another_iff.mp hanother with hq1 | hanswer
          · exact hq1 (List.length_eq_zero_iff.mp hitems)
          · exact hanswer (Option.isNone_iff_eq_none.mp hchoose)
        omega

/-- A packet after which another key is due. -/
theorem Served.due_iff (hlimit : cfg.haslimit = false) (hs : s.Served cfg) (input : Input) :
    (s.Due lib cfg input → ∀ t, s.next lib cfg input = some t →
      t.packetObject ≠ s.packetObject) ↔ s.NotWrapped lib cfg input := by
  cases input with
  | datagram => exact iff_of_true nofun nofun
  | frame answers bytes =>
    refine forall_congr' fun hdue ↦ ?_
    obtain ⟨hmany, keys, hsealed, hanother⟩ := hdue
    have haes : cfg.aes = true := aes_of_sealedKeys (Option.isSome_iff_exists.mpr ⟨keys, hsealed⟩)
    cases hnext : s.next lib cfg (.frame answers bytes) with
    | none =>
      have hdies := (next_eq_none_iff lib cfg (hs.counted haes).unlimited.limit _ _).mp hnext
      have hfirst : s.packetCount = 1 := by
        rw [packetCount, Keys.takesKey, hdies.2.1]
        rfl
      refine iff_of_true nofun ?_
      rw [hfirst] at hmany ⊢
      exact hmany
    | some t =>
      obtain ⟨ht, hframe⟩ := next_frame haes hlimit (hs.counted haes) hnext
      rcases hframe with ⟨hnone, _⟩ | ⟨keys', hkeys', ⟨cur, hcur⟩, hafter⟩
      · cases hnone.symm.trans hsealed
      · cases hkeys'.symm.trans hsealed
        have hobject : t.packetObject = t.objects := by
          rw [packetObject, ht.takesKey_eq_false hcur]
          rfl
        simp only [Option.some.injEq, forall_eq', hobject]
        split_ifs at hafter with hrotates
        · rw [hafter]
          exact iff_of_true (Nat.succ_ne_self _) hrotates.1
        · rw [hafter]
          exact iff_of_false (fun h ↦ h rfl) fun h ↦ hrotates ⟨h, hanother⟩

/-- A packet before which another key is due. -/
theorem Served.overdue_iff (hs : s.Served cfg) (input : Input) :
    (s.Overdue lib cfg input → s.packetObject ≠ s.objects) ↔ s.NotLate lib cfg input := by
  cases input with
  | datagram => exact iff_of_true nofun trivial
  | frame answers bytes =>
    have hnothing : ¬ s.loop.keys.another answers.choose = true ↔
        s.loop.keys.q1.items.length = 0 ∧ answers.choose.isNone := by
      rw [Keys.another_iff, not_or, not_not, not_not, List.length_eq_zero_iff,
        Option.isNone_iff_eq_none]
    rw [Overdue, NotLate, ← hnothing, and_imp, and_imp]
    refine forall_congr' fun hmany ↦ forall_congr' fun hsealed ↦ ?_
    have hsame := (hs.counted (aes_of_sealedKeys hsealed)).packetObject_eq (by omega)
    simp only [hsame, ne_eq, not_true_eq_false, imp_false]

theorem Served.next (hlimit : cfg.haslimit = false) (hs : s.Served cfg) {input : Input}
    (hwrapped : s.NotWrapped lib cfg input) (hlate : s.NotLate lib cfg input)
    (ht : s.next lib cfg input = some t) : t.Served cfg := by
  by_cases haes : cfg.aes = true
  · cases input with
    | datagram answers source bytes =>
      obtain ⟨hcounted, hsame⟩ := next_datagram (hs.counted haes) ht
      exact ⟨fun _ ↦ hcounted, by rw [hsame]; exact hs.count, by rw [hsame]; exact hs.offered⟩
    | frame answers bytes =>
      obtain ⟨hcounted, hframe⟩ := next_frame haes hlimit (hs.counted haes) ht
      rcases hframe with ⟨_, hsame⟩ | ⟨keys, hsealed, _, hafter⟩
      · rw [hsame] at hcounted ⊢
        exact ⟨fun _ ↦ hcounted, hs.count, hs.offered⟩
      · have hbound := hs.within hlate (Option.isSome_iff_exists.mpr ⟨keys, hsealed⟩)
        split_ifs at hafter with hrotates
        · rw [hafter] at hcounted ⊢
          exact ⟨fun _ ↦ hcounted, fun _ ↦ Nat.zero_le _, fun _ _ ↦ Nat.zero_le _⟩
        · rw [hafter] at hcounted ⊢
          refine ⟨fun _ ↦ hcounted, hbound, fun hserved hanother ↦ ?_⟩
          -- One packet more would have been due.
          have hbefore := hbound hserved
          by_contra hmore
          have hdue : s.Due lib cfg (.frame answers bytes) :=
            ⟨Nat.succ_le_of_lt (Nat.lt_of_not_le hmore), keys, hsealed, hanother⟩
          exact hrotates ⟨hwrapped hdue, hanother⟩
  · obtain ⟨⟨loop, effects⟩, _, rfl⟩ := Option.map_eq_some_iff.mp ht
    cases input with
    | datagram => exact ⟨fun h ↦ absurd h haes, hs.count, hs.offered⟩
    | frame answers bytes =>
      simp only [sealedKeys_of_not_aes haes]
      exact ⟨fun h ↦ absurd h haes, hs.count, hs.offered⟩

theorem served_start (nextkey : Option Bytes32) (s0 : Loop) :
    (start lib nextkey s0).Served cfg := by
  have hkept := getLastKey_sender lib.sha256 nextkey Keys.init
  have hlimit := limit_getLastKey lib.sha256 nextkey Keys.init
  have hinit : Keys.init.Unlimited := ⟨rfl, Nat.succ_pos 9, nofun⟩
  refine ⟨fun _ ↦ ⟨hinit.of_sender hkept hlimit, fun cur hcur ↦ ?_, nofun⟩,
    fun _ ↦ Nat.zero_le _, fun _ _ ↦ Nat.zero_le _⟩
  cases hkept.curKey1.symm.trans hcur

/-- Without option `-l` keys rotate in time exactly when the count of a key object never comes back
to `ppk` or less while another key is to be had, and when no key comes too late for the look that
the program takes after the last packet of an exhausted one. -/
theorem rotatesInTime_iff (lib : Library) (cfg : Config) (hlimit : cfg.haslimit = false)
    (nextkey : Option Bytes32) (s0 : Loop) (inputs : List Input) :
    (∀ before input s, before ++ [input] <+: inputs → (machine lib cfg nextkey s0).Run before s →
        s.InTime lib cfg input ∧ s.Within lib cfg input) ↔
      ∀ before input s, before ++ [input] <+: inputs → (machine lib cfg nextkey s0).Run before s →
        s.NotWrapped lib cfg input ∧ s.NotLate lib cfg input := by
  refine Machine.forall_steps_iff (I := Served cfg) (served_start nextkey s0) ?_ ?_ inputs
  · intro s input hs
    rw [InTime, hs.due_iff hlimit, hs.overdue_iff]
    exact and_iff_left_of_imp fun h ↦ hs.within h.2
  · intro s input t hs hmeets ht
    exact hs.next hlimit hmeets.1 hmeets.2 ht

/-! ## How long it takes -/

theorem count_le_length_of_run {nextkey : Option Bytes32} {s0 : Loop} {inputs : List Input}
    (hrun : (machine lib cfg nextkey s0).Run inputs s) : s.count ≤ inputs.length := by
  induction hrun with
  | start h => rw [h]; exact le_rfl
  | @snoc before s t input _ hlast ih =>
    have hmore := s.packetCount_le
    have hstep : t.count ≤ s.count + 1 := by
      obtain ⟨⟨loop, effects⟩, _, rfl⟩ := Option.map_eq_some_iff.mp hlast
      cases input with
      | datagram => exact Nat.le_succ _
      | frame answers bytes =>
        dsimp only
        split
        · exact Nat.le_succ _
        · split_ifs
          · exact Nat.zero_le _
          · exact hmore
    rw [List.length_append, List.length_singleton]
    omega

/-- Fewer than 65536 packets do not bring the count back. -/
theorem notWrapped_of_run {nextkey : Option Bytes32} {s0 : Loop} {inputs : List Input}
    (hrun : (machine lib cfg nextkey s0).Run inputs s) (hlength : inputs.length + 1 < 2 ^ 16)
    (input : Input) : s.NotWrapped lib cfg input := by
  intro hdue
  cases input with
  | datagram => cases hdue
  | frame answers bytes =>
    have hcount := count_le_length_of_run hrun
    have hpacket := s.packetCount_le
    rw [Nat.mod_eq_of_lt (by omega)]
    exact hdue.1

/-- The keyworker answers with another key after every packet. -/
def anotherAnswers : Answers := { noAnswers with rotate := some fun _ ↦ 9 }

instance (s : Sender) : (input : Input) → Decidable (s.Due lib cfg input)
  | .datagram .. => inferInstanceAs (Decidable False)
  | .frame answers _ => inferInstanceAs (Decidable (_ ∧
      ∃ keys ∈ s.loop.keys.sealedKeys lib cfg answers, keys.another answers.rotate = true))

instance (s : Sender) : (input : Input) → Decidable (s.Overdue lib cfg input)
  | .datagram .. => inferInstanceAs (Decidable False)
  | .frame .. => inferInstanceAs (Decidable (_ ∧ _ ∧ _))

instance (s : Sender) : (input : Input) → Decidable (s.NotLate lib cfg input)
  | .datagram .. => inferInstanceAs (Decidable True)
  | .frame .. => inferInstanceAs (Decidable (_ → _ → _ ∧ _))

instance (s : Sender) (input : Input) : Decidable (s.NotWrapped lib cfg input) :=
  inferInstanceAs (Decidable (_ → _))

/-- Options `-e 1` without `-l`. -/
def twiceConfig : Config := { sampleConfig with haslimit := false, ppk := 1 }

/-- Two frames under the first key, and one under the next. -/
def threeFrames : List Input :=
  [.frame noAnswers [], .frame anotherAnswers [], .frame noAnswers []]

theorem rotatesInTime_iff_threeFrames :
    ∃ s, (machine sampleLibrary twiceConfig (some fun _ ↦ 8) sampleLoop).Run
        [.frame noAnswers [], .frame anotherAnswers []] s ∧ s.objects = 2 ∧
      s.InTime sampleLibrary twiceConfig (.frame noAnswers []) ∧
      s.Within sampleLibrary twiceConfig (.frame noAnswers []) := by
  obtain ⟨s, hrun, hobjects⟩ := Machine.exists_run_ofNext
    (start sampleLibrary (some fun _ ↦ 8) sampleLoop) (next sampleLibrary twiceConfig)
    [.frame noAnswers [], .frame anotherAnswers []] (P := fun s ↦ s.objects = 2) (by decide)
  have hall := (rotatesInTime_iff sampleLibrary twiceConfig rfl (some fun _ ↦ 8) sampleLoop
    threeFrames).mpr (Machine.forall_steps_of_meets (by decide))
  exact ⟨s, hrun, hobjects, hall _ _ s (List.prefix_refl _) hrun⟩

/-- A datagram under a key that the receiver does not have, and that the keyworker knows. -/
def lateDatagram : Input :=
  .datagram { noAnswers with bySha := some fun _ ↦ 5 } ⟨0, 0⟩
    (List.ofFn (fun _ : Fin 32 ↦ 5) ++ paddingCipher.encrypt (fun _ ↦ 5) [0, 0, 1, 0, 1])

/-- Two frames, and no other key; then one comes, before the third frame. -/
def lateKey : List Input :=
  [.frame noAnswers [], .frame noAnswers [], lateDatagram, .frame noAnswers []]

/-- The third packet is encrypted under the first key, though another one is in `q1`. -/
theorem not_rotatesInTime_late :
    ¬ ∀ before input s, before ++ [input] <+: lateKey →
      (machine sampleLibrary twiceConfig (some fun _ ↦ 8) sampleLoop).Run before s →
      s.InTime sampleLibrary twiceConfig input ∧ s.Within sampleLibrary twiceConfig input := by
  intro hall
  obtain ⟨s, hrun, hoverdue, hsame⟩ := Machine.exists_run_ofNext
    (start sampleLibrary (some fun _ ↦ 8) sampleLoop) (next sampleLibrary twiceConfig)
    [.frame noAnswers [], .frame noAnswers [], lateDatagram]
    (P := fun s ↦ s.Overdue sampleLibrary twiceConfig (.frame noAnswers []) ∧
      s.packetObject = s.objects) (by decide)
  exact (hall _ _ s (List.prefix_refl _) hrun).1.2 hoverdue hsame

/-- Options `-e 65535` without `-l`. -/
def neverConfig : Config := { sampleConfig with haslimit := false, ppk := 65535 }

/-- With `-e 65535` every frame is sent under the first key. -/
theorem exists_run_frames (n : ℕ) :
    ∃ s, (machine sampleLibrary neverConfig (some fun _ ↦ 8) sampleLoop).Run
        (List.replicate n (.frame anotherAnswers [])) s ∧
      s.Counted ∧ s.count = n ∧ s.packetCount = n + 1 ∧
      ∃ keys, s.loop.keys.sealedKeys sampleLibrary neverConfig anotherAnswers = some keys := by
  induction n with
  | zero =>
    have hstart : (start sampleLibrary (some fun _ ↦ 8) sampleLoop).Served neverConfig :=
      served_start _ _
    exact ⟨_, .start rfl, hstart.counted rfl, rfl, rfl, _, rfl⟩
  | succ n ih =>
    obtain ⟨s, hrun, hs, _, hpacket, keys, hsealed⟩ := ih
    have hlives : s.next sampleLibrary neverConfig (.frame anotherAnswers []) ≠ none := by
      rw [Ne, next_eq_none_iff _ _ hs.unlimited.limit]
      rintro ⟨_, _, ⟨_, hdevice, _⟩ | ⟨hrestricted, _⟩⟩
      · exact absurd hdevice (by decide)
      · cases hrestricted
    obtain ⟨t, hnext⟩ := Option.ne_none_iff_exists'.mp hlives
    obtain ⟨ht, hframe⟩ := next_frame rfl rfl hs hnext
    rcases hframe with ⟨hnone, _⟩ | ⟨_, _, ⟨cur, hcur⟩, hafter⟩
    · cases hnone.symm.trans hsealed
    · have htakes := ht.takesKey_eq_false hcur
      have hnever : ¬ neverConfig.ppk.toNat < s.packetCount % 2 ^ 16 :=
        Nat.not_lt.mpr (Nat.le_of_lt_succ (Nat.mod_lt _ (Nat.two_pow_pos 16)))
      rw [if_neg fun h ↦ hnever h.1] at hafter
      have hcount : t.count = n + 1 := by
        rw [hafter]
        exact hpacket
      refine ⟨t, ?_, ht, hcount, ?_, _, sealedKeys_of_curKey1 rfl _ htakes hcur⟩
      · rw [List.replicate_succ']
        exact hrun.snoc hnext
      · rw [packetCount, htakes, hcount]
        rfl

/-- The key object counts to 65535 and then from zero. -/
theorem not_rotatesInTime_never :
    ¬ ∀ before input s, before ++ [input] <+: List.replicate 65536 (.frame anotherAnswers []) →
      (machine sampleLibrary neverConfig (some fun _ ↦ 8) sampleLoop).Run before s →
      s.InTime sampleLibrary neverConfig input ∧ s.Within sampleLibrary neverConfig input := by
  intro hall
  obtain ⟨s, hrun, hs, hcount, hpacket, keys, hsealed⟩ := exists_run_frames 65535
  have hpart : List.replicate 65535 (.frame anotherAnswers []) ++ [.frame anotherAnswers []] <+:
      List.replicate 65536 (Input.frame anotherAnswers []) := by
    rw [← List.replicate_succ']
  have hmax : s.count ≤ neverConfig.ppk.toNat := hcount.le
  have hserved : s.Served neverConfig := ⟨fun _ ↦ hs, fun _ ↦ hmax.trans (Nat.le_succ _),
    fun _ _ ↦ hmax⟩
  have hdue : s.Due sampleLibrary neverConfig (.frame anotherAnswers []) :=
    ⟨hpacket.ge, keys, hsealed, Bool.or_true _⟩
  have hwrapped := (hserved.due_iff rfl _).mp (hall _ _ s hpart hrun).1.1 hdue
  rw [hpacket] at hwrapped
  exact absurd hwrapped (by decide)

end Sender

end QNet.Tunnel
