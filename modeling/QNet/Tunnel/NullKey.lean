import QNet.Tunnel.Discard

/-!
# Reads through a null key

`curKey1` and `curKey2` are null until a first key has been taken. The receive branch looks at
`curKey2` before anything else and goes no further without a key. The send branch has two reads
that come too early: the flag of a packet of a device is made from `curKey1->usage` before a key is
chosen, and with option `-l` the first key is compared with the current one, when it had to be asked
for: `readsKeys_iff`.

For each branch the values of the pointer are listed at the points where it is followed. The list
ends with the first null pointer, as the program does (`tap2net_eq_none_iff`).
-/

namespace QNet.Tunnel

/-! ## The reads of curKey1 -/

/-- In `renewKey` the current key is compared with the one that was asked for. -/
def renewReads (sha256 : Bytes32 → Bytes32) (haslimit : Bool) (nextkey : Option Bytes32)
    (k : Keys) : List (Option Key) :=
  match k.q1.dequeue with
  | some _ => []
  | none =>
      match (getLastKey sha256 nextkey k).q1.dequeue with
      | none => []
      | some _ => if haslimit then [k.curKey1] else []

/-- `curKey1->usage == ppk / 2`, in the programs with a header. -/
def headerReads (cfg : Config) (k : Keys) : List (Option Key) :=
  if cfg.prog ≠ .ctapudp ∧ cfg.aes = true ∧ cfg.deviceid > 0 ∧ cfg.isserver = false then
    [k.curKey1]
  else []

def chooseReads (sha256 : Bytes32 → Bytes32) (haslimit : Bool) (nextkey : Option Bytes32)
    (k : Keys) : List (Option Key) :=
  if k.curKey1.isNone || k.waslimit then renewReads sha256 haslimit nextkey k else []

/-- `curKey1->usage > ppk`, and what follows. -/
def rotateReads (sha256 : Bytes32 → Bytes32) (haslimit : Bool) (ppk : UInt16)
    (nextkey : Option Bytes32) (k : Keys) : List (Option Key) :=
  k.curKey1 ::
    match k.curKey1 with
    | none => []
    | some cur => if cur.usage > ppk then renewReads sha256 haslimit nextkey k else []

/-- A packet is encrypted and counted under the chosen key, if there is one. -/
def sealReads (lib : Library) (cfg : Config) (answers : Answers) :
    Option (Keys × Bool) → List (Option Key)
  | some (keys, true) =>
      keys.curKey1 ::
        match keys.curKey1 with
        | none => []
        | some cur => rotateReads lib.sha256 cfg.haslimit cfg.ppk answers.rotate
            { keys with curKey1 := some cur.used }
  | _ => []

/-- The send branch. -/
def sendReads (lib : Library) (cfg : Config) (answers : Answers) (k : Keys) :
    List (Option Key) :=
  headerReads cfg k ++
    if cfg.aes then
      chooseReads lib.sha256 cfg.haslimit answers.choose k ++
        sealReads lib cfg answers (chooseKey lib.sha256 cfg.haslimit answers.choose k)
    else []

/-! ## The reads of curKey2 -/

/-- The loop of `findKey`: `curKey2->sha` in every round. -/
def searchReads (nextkey : Option Bytes32) (sha : Bytes32) : ℕ → Keys → List (Option Key)
  | 0, _ => []
  | fuel + 1, k =>
      k.curKey2 ::
        match k.curKey2 with
        | none => []
        | some cur =>
            if cur.sha = sha then []
            else
              match k.q2.dequeue with
              | some (key, q2) =>
                  searchReads nextkey sha fuel { k with q2 := q2, curKey2 := some key }
              | none =>
                  match getKeyBySha nextkey sha k with
                  | none => []
                  | some asked =>
                      match asked.q2.dequeue with
                      | none => searchReads nextkey sha fuel asked
                      | some (key, q2) =>
                          searchReads nextkey sha fuel { asked with q2 := q2, curKey2 := some key }

/-- The receive branch, with `curKey2->key` at the end. -/
def recvReads (cfg : Config) (answers : Answers) (s : Loop) (source : Address)
    (datagram : List UInt8) : List (Option Key) :=
  let received := datagram.take 2000
  let sha := readBytes32 (s.buf.store 0 received) 0
  if cfg.aes then
    match firstKey s.keys with
    | none => []
    | some keys =>
        if (acceptAddress cfg s source).isNone || decide (received.length < 32 + 16) then []
        else
          searchReads answers.bySha sha (keys.q2.items.length + 3) keys ++
            match findKey answers.bySha sha (keys.q2.items.length + 3) keys with
            | some (found, true) => [found.curKey2]
            | _ => []
  else []

/-- The key pointers that an iteration follows. -/
def keyReads (lib : Library) (cfg : Config) (s : Loop) : Input → List (Option Key)
  | .frame answers _ => sendReads lib cfg answers s.keys
  | .datagram answers source bytes => recvReads cfg answers s source bytes

/-- A frame comes before there is a key, at a device that asks for keys, or with option `-l` when
the first key has to be asked for. -/
def BeforeKey (cfg : Config) (s : Loop) : Input → Prop
  | .frame answers _ => cfg.aes = true ∧ s.keys.curKey1 = none ∧
      ((cfg.prog ≠ .ctapudp ∧ 0 < cfg.deviceid ∧ cfg.isserver = false) ∨
        (cfg.haslimit = true ∧ s.keys.q1.items = [] ∧ answers.choose ≠ none))
  | .datagram .. => False

/-! ## Sending -/

section Send

variable {sha256 : Bytes32 → Bytes32} {haslimit changed : Bool} {nextkey : Option Bytes32}
  {k k' : Keys}

theorem renewKey_eq_none_iff :
    renewKey sha256 haslimit nextkey k = none ↔ none ∈ renewReads sha256 haslimit nextkey k := by
  have hkept := (getLastKey_sender sha256 nextkey k).curKey1
  unfold renewKey renewReads
  cases k.q1.dequeue with
  | some next => simp
  | none =>
    dsimp only
    cases (getLastKey sha256 nextkey k).q1.dequeue with
    | none => simp
    | some next =>
      dsimp only [adoptKey]
      rw [hkept]
      cases haslimit with
      | false => simp
      | true =>
        cases k.curKey1 with
        | none => simp
        | some cur =>
          simp only [if_true]
          split_ifs <;> simp

theorem adoptKey_changed {loaded : Key} (h : adoptKey haslimit loaded k = some (k', true)) :
    k'.curKey1 = some loaded := by
  unfold adoptKey at h
  cases haslimit with
  | false =>
    cases h
    rfl
  | true =>
    cases hcur : k.curKey1 with
    | none =>
      rw [hcur] at h
      cases h
    | some cur =>
      simp only [hcur, if_true] at h
      split_ifs at h
      · cases h
      · cases h
        rfl

/-- A key that was taken is the current one. -/
theorem renewKey_changed (h : renewKey sha256 haslimit nextkey k = some (k', true)) :
    ∃ cur, k'.curKey1 = some cur := by
  unfold renewKey at h
  split at h
  · cases h
    exact ⟨_, rfl⟩
  · dsimp only at h
    split at h
    · cases h
    · exact ⟨_, adoptKey_changed h⟩

theorem chooseKey_tosend (h : chooseKey sha256 haslimit nextkey k = some (k', true)) :
    ∃ cur, k'.curKey1 = some cur := by
  unfold chooseKey at h
  split_ifs at h with hrenew
  · exact renewKey_changed h
  · cases h
    rw [Bool.or_eq_true, not_or, Option.isNone_iff_eq_none] at hrenew
    exact Option.ne_none_iff_exists'.mp hrenew.1

theorem chooseKey_eq_none_iff :
    chooseKey sha256 haslimit nextkey k = none ↔
      none ∈ chooseReads sha256 haslimit nextkey k := by
  unfold chooseKey chooseReads
  split_ifs
  · exact renewKey_eq_none_iff
  · simp

/-- The key to send is not looked at. -/
theorem rotateReads_toSend (sha256 : Bytes32 → Bytes32) (haslimit : Bool) (ppk : UInt16)
    (nextkey : Option Bytes32) (k : Keys) (key : Option Bytes32) :
    rotateReads sha256 haslimit ppk nextkey { k with curKeyToSend := key } =
      rotateReads sha256 haslimit ppk nextkey k := by
  cases nextkey <;> rfl

theorem rotateKey_eq_none_iff {ppk : UInt16} :
    rotateKey sha256 haslimit ppk nextkey k = none ↔
      none ∈ rotateReads sha256 haslimit ppk nextkey k := by
  unfold rotateKey rotateReads
  cases hcur : k.curKey1 with
  | none => simp
  | some cur =>
    dsimp only
    split_ifs
    · rw [Option.map_eq_none_iff, renewKey_eq_none_iff]
      simp
    · simp

end Send

theorem buildPacket_eq_none_iff (lib : Library) (cfg : Config) (s : Loop) (frame : List UInt8) :
    buildPacket lib cfg s frame = none ↔ none ∈ headerReads cfg s.keys := by
  unfold buildPacket headerReads
  split
  · rename_i hctapudp
    simp [hctapudp]
  · rename_i hother
    have hheaders : cfg.prog ≠ .ctapudp := hother
    have hdevice : (cfg.aes && decide (cfg.deviceid > 0) && !cfg.isserver) = true ↔
        cfg.prog ≠ .ctapudp ∧ cfg.aes = true ∧ cfg.deviceid > 0 ∧ cfg.isserver = false := by
      simp [hheaders, and_assoc]
    rw [Option.map_eq_none_iff, headerFlag]
    by_cases hread : cfg.prog ≠ .ctapudp ∧ cfg.aes = true ∧ cfg.deviceid > 0 ∧
        cfg.isserver = false
    · rw [if_pos (hdevice.mpr hread), if_pos hread, Option.map_eq_none_iff, List.mem_singleton,
        eq_comm]
    · rw [if_neg (mt hdevice.mp hread), if_neg hread]
      exact iff_of_false nofun List.not_mem_nil

/-- The process dies of a frame exactly where it follows a null pointer. -/
theorem tap2net_eq_none_iff (lib : Library) (cfg : Config) (answers : Answers) (s : Loop)
    (frame : List UInt8) :
    tap2net lib cfg answers s frame = none ↔ none ∈ sendReads lib cfg answers s.keys := by
  unfold sendReads
  rw [List.mem_append, ← buildPacket_eq_none_iff lib cfg s frame]
  cases hbuilt : buildPacket lib cfg s frame with
  | none => simp [tap2net, hbuilt]
  | some packet =>
    obtain ⟨built, cnt⟩ := packet
    obtain ⟨key, hkeys⟩ := buildPacket_keys hbuilt
    rw [or_iff_right nofun]
    cases haes : cfg.aes with
    | false => simp [tap2net, hbuilt, haes]
    | true =>
      have hchoose : chooseKey lib.sha256 cfg.haslimit answers.choose built.keys =
          (chooseKey lib.sha256 cfg.haslimit answers.choose s.keys).map fun next ↦
            ({ next.1 with curKeyToSend := key }, next.2) := by
        rw [hkeys, chooseKey_toSend]
      rw [if_pos rfl, List.mem_append, ← chooseKey_eq_none_iff]
      cases hchosen : chooseKey lib.sha256 cfg.haslimit answers.choose s.keys with
      | none => simp [tap2net, hbuilt, haes, hchoose, hchosen]
      | some chosen =>
        obtain ⟨keys, tosend⟩ := chosen
        rw [hchosen, Option.map_some] at hchoose
        rw [or_iff_right nofun]
        cases tosend with
        | false => simp [tap2net, hbuilt, haes, hchoose, sealReads]
        | true =>
          cases hcur : keys.curKey1 with
          | none => simp [tap2net, hbuilt, haes, hchoose, sealReads, sendSealed, hcur]
          | some cur =>
            have hdies : tap2net lib cfg answers s frame = none ↔
                ∀ rotated, rotateKey lib.sha256 cfg.haslimit cfg.ppk answers.rotate
                  { keys with curKey1 := some cur.used, curKeyToSend := key } ≠ some rotated := by
              simp [tap2net, hbuilt, haes, hchoose, sendSealed, hcur, sendPacket]
            have hrotate := rotateReads_toSend lib.sha256 cfg.haslimit cfg.ppk answers.rotate
              { keys with curKey1 := some cur.used } key
            simp only [sealReads, hcur]
            rw [hdies, ← Option.eq_none_iff_forall_ne_some, rotateKey_eq_none_iff, hrotate,
              List.mem_cons, or_iff_right nofun]

theorem none_mem_renewReads {sha256 : Bytes32 → Bytes32} {haslimit : Bool}
    {nextkey : Option Bytes32} {k : Keys} (hlimit : 0 < k.q1.limit) :
    none ∈ renewReads sha256 haslimit nextkey k ↔
      haslimit = true ∧ k.curKey1 = none ∧ k.q1.items = [] ∧ nextkey ≠ none := by
  unfold renewReads
  cases hq1 : k.q1.dequeue with
  | some next =>
    refine iff_of_false nofun fun h ↦ ?_
    rw [BoundedQueue.dequeue_eq_none_iff.mpr h.2.2.1] at hq1
    cases hq1
  | none =>
    have hitems := BoundedQueue.dequeue_eq_none_iff.mp hq1
    have hasked := dequeue_getLastKey sha256 nextkey hlimit hitems
    dsimp only
    cases hnext : (getLastKey sha256 nextkey k).q1.dequeue with
    | none => simp [hasked.mp hnext]
    | some next =>
      have hne : nextkey ≠ none := fun hnone ↦ nomatch hnext.symm.trans (hasked.mpr hnone)
      cases haslimit <;> simp [hitems, hne, eq_comm]

/-- Behind the choice of a key there is one. -/
theorem none_notMem_sealReads (lib : Library) (cfg : Config) (answers : Answers) {k : Keys}
    (hlimit : 0 < k.q1.limit) :
    none ∉ sealReads lib cfg answers (chooseKey lib.sha256 cfg.haslimit answers.choose k) := by
  cases hchosen : chooseKey lib.sha256 cfg.haslimit answers.choose k with
  | none => exact nofun
  | some chosen =>
    obtain ⟨keys, tosend⟩ := chosen
    cases tosend with
    | false => exact nofun
    | true =>
      obtain ⟨cur, hcur⟩ := chooseKey_tosend hchosen
      have hlimit' : 0 < keys.q1.limit := (chooseKey_limit hchosen).symm ▸ hlimit
      simp only [sealReads, hcur, rotateReads, List.mem_cons, reduceCtorEq, false_or]
      split_ifs
      · intro hmem
        obtain ⟨_, hnone, _⟩ := (none_mem_renewReads (k := { keys with curKey1 := some cur.used })
          hlimit').mp hmem
        cases hnone
      · exact nofun

/-- The send branch follows a null pointer only before there is a key. -/
theorem none_mem_sendReads (lib : Library) (cfg : Config) (answers : Answers) {s : Loop}
    (hlimit : 0 < s.keys.q1.limit) (bytes : List UInt8) :
    none ∈ sendReads lib cfg answers s.keys ↔ BeforeKey cfg s (.frame answers bytes) := by
  have hheader : none ∈ headerReads cfg s.keys ↔ s.keys.curKey1 = none ∧
      cfg.prog ≠ .ctapudp ∧ cfg.aes = true ∧ 0 < cfg.deviceid ∧ cfg.isserver = false := by
    unfold headerReads
    split_ifs with hdevice
    · rw [and_iff_left hdevice, List.mem_singleton, eq_comm]
    · exact iff_of_false List.not_mem_nil fun h ↦ hdevice h.2
  have hchoose : none ∈ chooseReads lib.sha256 cfg.haslimit answers.choose s.keys ↔
      cfg.haslimit = true ∧ s.keys.curKey1 = none ∧ s.keys.q1.items = [] ∧
        answers.choose ≠ none := by
    unfold chooseReads
    split_ifs with hrenew
    · exact none_mem_renewReads hlimit
    · refine iff_of_false nofun fun h ↦ hrenew ?_
      rw [h.2.1]
      rfl
  unfold sendReads BeforeKey
  rw [List.mem_append, hheader]
  cases cfg.aes with
  | false => simp
  | true =>
    rw [if_pos rfl, List.mem_append, hchoose,
      or_iff_left (none_notMem_sealReads lib cfg answers hlimit)]
    simp only [true_and, and_or_left]
    exact or_congr Iff.rfl and_left_comm

/-! ## Receiving -/

/-- The search goes from key to key. -/
theorem none_notMem_searchReads (nextkey : Option Bytes32) (sha : Bytes32) (fuel : ℕ) {k : Keys}
    {cur : Key} (hcur : k.curKey2 = some cur) : none ∉ searchReads nextkey sha fuel k := by
  induction fuel generalizing k cur with
  | zero => exact nofun
  | succ fuel ih =>
    rw [searchReads, hcur, List.mem_cons, or_iff_right nofun]
    dsimp only
    split_ifs
    · exact nofun
    · split
      · exact ih rfl
      · split
        · exact nofun
        · rename_i asked hasked
          obtain ⟨buff, _, rfl⟩ := Option.map_eq_some_iff.mp hasked
          split
          · exact ih hcur
          · exact ih rfl

theorem none_notMem_recvReads (cfg : Config) (answers : Answers) (s : Loop) (source : Address)
    (datagram : List UInt8) : none ∉ recvReads cfg answers s source datagram := by
  unfold recvReads
  dsimp only
  by_cases haes : cfg.aes
  · rw [if_pos haes]
    cases hfirst : firstKey s.keys with
    | none => exact List.not_mem_nil
    | some keys =>
      have hcur : ∃ cur, keys.curKey2 = some cur := by
        unfold firstKey at hfirst
        split at hfirst
        · rename_i cur hcur
          cases hfirst
          exact ⟨cur, hcur⟩
        · obtain ⟨next, _, rfl⟩ := Option.map_eq_some_iff.mp hfirst
          exact ⟨_, rfl⟩
      obtain ⟨cur, hcur⟩ := hcur
      dsimp only
      split_ifs
      · exact List.not_mem_nil
      · rw [List.mem_append, or_iff_right (none_notMem_searchReads _ _ _ hcur)]
        split
        · rename_i found hfound
          obtain ⟨last, hlast, _⟩ := (findKey_found hfound).1 rfl
          simp [hlast]
        · exact List.not_mem_nil
  · rw [if_neg haes]
    exact List.not_mem_nil

/-! ## All runs -/

/-- For all options, from the program start on, with any frames, datagrams and answers of the
keyworker: no null pointer to a key is followed if and only if no frame comes before there is a key
at a device, or with option `-l` when the first key has to be asked for. -/
theorem readsKeys_iff (lib : Library) (cfg : Config) (nextkey : Option Bytes32) (s0 : Loop)
    (inputs : List Input) :
    (∀ before input s, before ++ [input] <+: inputs → (process lib cfg nextkey s0).Run before s →
        none ∉ keyReads lib cfg s.loop input) ↔
      ∀ before input s, before ++ [input] <+: inputs → (process lib cfg nextkey s0).Run before s →
        ¬ BeforeKey cfg s.loop input := by
  refine Machine.forall_steps_iff (I := fun s : Process ↦ 0 < s.loop.keys.q1.limit)
    (Q := fun s input ↦ none ∉ keyReads lib cfg s.loop input)
    (C := fun s input ↦ ¬ BeforeKey cfg s.loop input) ?_ ?_ ?_ inputs
  · change 0 < (getLastKey lib.sha256 nextkey Keys.init).q1.limit
    rw [limit_getLastKey]
    decide
  · intro s input hs
    cases input with
    | frame answers bytes => exact not_congr (none_mem_sendReads lib cfg answers hs bytes)
    | datagram answers source bytes =>
      exact iff_of_true (none_notMem_recvReads cfg answers s.loop source bytes) not_false
  · intro s input t hs _ hstep
    obtain ⟨⟨next, effects⟩, hreact, rfl⟩ := Option.map_eq_some_iff.mp hstep
    exact (react_limit hreact).symm ▸ hs

/-- A device with `-y 1` is a client and reads a frame. -/
def deviceConfig : Config :=
  { sampleConfig with haslimit := false, isserver := false, deviceid := 1 }

/-- The first frame of a device comes before there is a key. -/
theorem not_readsKeys_device :
    ¬ ∀ (lib : Library) (cfg : Config) (nextkey : Option Bytes32) (s0 : Loop)
      (inputs before : List Input) (input : Input) (s : Process),
      cfg.prog ≠ .ctapudp → before ++ [input] <+: inputs →
        (process lib cfg nextkey s0).Run before s → none ∉ keyReads lib cfg s.loop input := by
  intro hall
  have hfirst : none ∈ headerReads deviceConfig (Keys.init.load sampleKey) := by decide
  exact hall sampleLibrary deviceConfig (some fun _ ↦ 8) sampleLoop [.frame noAnswers []] []
    (.frame noAnswers []) _ (by decide) (List.prefix_refl _) (.start rfl)
    (List.mem_append_left _ hfirst)

end QNet.Tunnel
