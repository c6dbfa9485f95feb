import QNet.Tunnel.Runs

/-!
# The limit on the use of a key

With option `-l` no key should encrypt more than `ppk + 1` packets. The program counts the uses in
the key object and looks for another key when the count exceeds `ppk`, but there are gaps. When the
keyworker has no answer at that moment the loop goes on without setting `waslimit`, and the next
frame is encrypted under the exhausted key. And a key that was used before can come back: only the
current key is compared with a key that arrives, and a key that waits in `q1` is not compared at
all, although the receive branch puts keys there too.

`Careful` excludes these situations, step by step; `uses_le` says that the limit holds in every run
without them.
-/

namespace QNet.Tunnel

open Mem

/-- How many packets were sent under the key with this id. -/
def uses (packets : List (List UInt8)) (sha : Bytes32) : ℕ :=
  packets.countP fun packet ↦ decide (packet.take 32 = List.ofFn sha)

/-- The key object that `renewKey` takes from `q1`. -/
def offered (sha256 : Bytes32 → Bytes32) (nextkey : Option Bytes32) (k : Keys) : Option Key :=
  match k.q1.dequeue with
  | some (key, _) => some key
  | none => (getLastKey sha256 nextkey k).q1.dequeue.map Prod.fst

/-- A key that was used already is taken from `q1` only where it is compared with the current key
and refused. -/
def RenewsFresh (sha256 : Bytes32 → Bytes32) (nextkey : Option Bytes32) (used : Bytes32 → Prop)
    (k : Keys) : Prop :=
  ∀ key ∈ offered sha256 nextkey k, used key.sha →
    k.q1.items = [] ∧ ∃ cur ∈ k.curKey1, key.sha = cur.sha

/-- A frame may be read: the current key is not exhausted, unless the program knows, and the keys
taken for this packet and after it were not used before. -/
structure Careful (lib : Library) (cfg : Config) (packets : List (List UInt8)) (k : Keys)
    (answers : Answers) : Prop where
  not_exhausted : ∀ cur ∈ k.curKey1, cur.usage > cfg.ppk → k.waslimit = true
  choose_fresh : k.curKey1.isNone || k.waslimit →
    RenewsFresh lib.sha256 answers.choose (0 < uses packets ·) k
  rotate_fresh : ∀ keys cur,
    chooseKey lib.sha256 cfg.haslimit answers.choose k = some (keys, true) →
      keys.curKey1 = some cur → cur.used.usage > cfg.ppk →
        RenewsFresh lib.sha256 answers.rotate (fun sha ↦ 0 < uses packets sha ∨ sha = cur.sha)
          { keys with curKey1 := some cur.used }

def CarefulStep (lib : Library) (cfg : Config) (s : Process) : Input → Prop
  | .frame answers _ => Careful lib cfg s.packets s.loop.keys answers
  | .datagram .. => True

/-! ## Taking another key -/

/-- What `renewKey` does when reuse is restricted: the current key stays, or an offered key that
is not the current one takes its place. -/
theorem renewKey_cases {sha256 : Bytes32 → Bytes32} {nextkey : Option Bytes32} {k k' : Keys}
    {changed : Bool} (h : renewKey sha256 true nextkey k = some (k', changed)) :
    (∀ key ∈ k'.q1.items, key ∈ k.q1.items ∨ key.usage = 0) ∧
      (changed = false ∧ k'.curKey1 = k.curKey1 ∨
        changed = true ∧ ∃ key ∈ offered sha256 nextkey k, k'.curKey1 = some key ∧
          (key ∈ k.q1.items ∨ key.usage = 0) ∧
          (k.q1.items = [] → ∀ cur ∈ k.curKey1, key.sha ≠ cur.sha)) := by
  unfold renewKey at h
  unfold offered
  cases hq1 : k.q1.dequeue with
  | some next =>
    rw [hq1] at h
    obtain ⟨hitems, _⟩ := BoundedQueue.dequeue_eq_some_iff.mp hq1
    cases h
    refine ⟨fun key hkey ↦ .inl ?_, .inr ⟨rfl, next.1, rfl, rfl, .inl ?_, fun hnil ↦ ?_⟩⟩
    · rw [hitems]
      exact List.mem_cons_of_mem _ hkey
    · rw [hitems]
      exact List.mem_cons_self
    · rw [hitems] at hnil
      cases hnil
  | none =>
    rw [hq1] at h
    dsimp only at h ⊢
    have hasked := getLastKey_sender sha256 nextkey k
    cases hnext : (getLastKey sha256 nextkey k).q1.dequeue with
    | none =>
      rw [hnext] at h
      cases h
      exact ⟨hasked.q1, .inl ⟨rfl, hasked.curKey1⟩⟩
    | some next =>
      obtain ⟨hitems, _⟩ := BoundedQueue.dequeue_eq_some_iff.mp hnext
      have hrest : ∀ key ∈ next.2.items, key ∈ k.q1.items ∨ key.usage = 0 := by
        intro key hkey
        apply hasked.q1
        rw [hitems]
        exact List.mem_cons_of_mem _ hkey
      have hfirst : next.1 ∈ k.q1.items ∨ next.1.usage = 0 := by
        apply hasked.q1
        rw [hitems]
        exact List.mem_cons_self
      rw [hnext] at h
      simp only [adoptKey, if_true, hasked.curKey1] at h
      cases hcur : k.curKey1 with
      | none =>
        rw [hcur] at h
        cases h
      | some cur =>
        rw [hcur] at h
        dsimp only at h
        split_ifs at h with hsame
        · cases h
          exact ⟨hrest, .inl ⟨rfl, rfl⟩⟩
        · cases h
          refine ⟨hrest, .inr ⟨rfl, next.1, rfl, rfl, hfirst, fun _ other hother ↦ ?_⟩⟩
          cases hother
          exact hsame

/-! ## The invariant -/

/-- The limit holds, and the counter of the current key is not behind. -/
structure Within (ppk : UInt16) (packets : List (List UInt8)) (k : Keys) : Prop where
  uses_le : ∀ sha, uses packets sha ≤ ppk.toNat + 1
  current : ∀ cur ∈ k.curKey1, uses packets cur.sha ≤ cur.usage.toNat
  queued : ∀ key ∈ k.q1.items, key.usage = 0

section Within

variable {sha256 : Bytes32 → Bytes32} {nextkey : Option Bytes32} {ppk : UInt16}
  {packets : List (List UInt8)} {k k' : Keys}

theorem Within.of_sender (h : Within ppk packets k) (hkept : SenderKept k k') :
    Within ppk packets k' where
  uses_le := h.uses_le
  current cur hcur := h.current cur (hkept.curKey1 ▸ hcur)
  queued key hkey := (hkept.q1 key hkey).elim (h.queued key) id

/-- A fresh key may take the place of the current one. -/
theorem Within.renew {changed : Bool} (h : Within ppk packets k)
    (hfresh : RenewsFresh sha256 nextkey (0 < uses packets ·) k)
    (hrenew : renewKey sha256 true nextkey k = some (k', changed)) :
    Within ppk packets k' ∧ (changed = true → ∃ cur ∈ k'.curKey1, cur.usage = 0) := by
  obtain ⟨hq1, hcases⟩ := renewKey_cases hrenew
  have hqueued : ∀ key ∈ k'.q1.items, key.usage = 0 := fun key hkey ↦
    (hq1 key hkey).elim (h.queued key) id
  rcases hcases with ⟨rfl, hsame⟩ | ⟨rfl, key, hoffered, hcur, hkey, hother⟩
  · exact ⟨⟨h.uses_le, fun cur hmem ↦ h.current cur (hsame ▸ hmem), hqueued⟩, nofun⟩
  · have hzero : key.usage = 0 := hkey.elim (h.queued key) id
    have hunused : uses packets key.sha = 0 := by
      by_contra hused
      obtain ⟨hnil, cur, hmem, hsha⟩ := hfresh key hoffered (Nat.pos_of_ne_zero hused)
      exact hother hnil cur hmem hsha
    refine ⟨⟨h.uses_le, fun cur hmem ↦ ?_, hqueued⟩, fun _ ↦ ⟨key, hcur, hzero⟩⟩
    rw [hcur] at hmem
    cases hmem
    rw [hunused]
    exact Nat.zero_le _

theorem uses_append (packets : List (List UInt8)) {id : Bytes32} {packet : List UInt8}
    (hpacket : packet.take 32 = List.ofFn id) (sha : Bytes32) :
    uses (packets ++ [packet]) sha = uses packets sha + if sha = id then 1 else 0 := by
  rw [uses, List.countP_append, List.countP_singleton, hpacket, ← uses]
  congr 1
  exact if_congr (by rw [decide_eq_true_eq, List.ofFn_inj, eq_comm]) rfl rfl

/-- The packet is sent under a key with room for one more use. -/
theorem Within.send {cur : Key} {packet : List UInt8} (h : Within ppk packets k)
    (hcur : k.curKey1 = some cur) (hroom : cur.usage ≤ ppk) (hppk : ppk < 65535)
    (hpacket : packet.take 32 = List.ofFn cur.sha) :
    Within ppk (packets ++ [packet]) { k with curKey1 := some cur.used } := by
  have hcount := uses_append packets hpacket
  have hcurrent := h.current cur hcur
  have hle : cur.usage.toNat ≤ ppk.toNat := UInt16.le_iff_toNat_le.mp hroom
  have hlt : ppk.toNat < 65535 := UInt16.lt_iff_toNat_lt.mp hppk
  have husage : cur.used.usage.toNat = cur.usage.toNat + 1 := by
    rw [Key.used, UInt16.toNat_add]
    exact Nat.mod_eq_of_lt (by simpa using by omega)
  refine ⟨fun sha ↦ ?_, fun other hother ↦ ?_, h.queued⟩
  · rw [hcount]
    split_ifs with hsha
    · rw [hsha]
      omega
    · exact h.uses_le sha
  · cases hother
    have hsha : cur.used.sha = cur.sha := rfl
    rw [hcount, husage, hsha, if_pos rfl]
    omega

theorem Within.choose {tosend : Bool} (h : Within ppk packets k)
    (hroom : ∀ cur ∈ k.curKey1, cur.usage > ppk → k.waslimit = true)
    (hfresh : k.curKey1.isNone || k.waslimit →
      RenewsFresh sha256 nextkey (0 < uses packets ·) k)
    (hchoose : chooseKey sha256 true nextkey k = some (k', tosend)) :
    Within ppk packets k' ∧ (tosend = true → ∃ cur ∈ k'.curKey1, cur.usage ≤ ppk) := by
  unfold chooseKey at hchoose
  split_ifs at hchoose with hrenew
  · obtain ⟨hwithin, hcur⟩ := h.renew (hfresh hrenew) hchoose
    refine ⟨hwithin, fun htosend ↦ ?_⟩
    obtain ⟨cur, hmem, hzero⟩ := hcur htosend
    exact ⟨cur, hmem, hzero ▸ UInt16.zero_le⟩
  · cases hchoose
    simp only [Bool.or_eq_true, Option.isNone_iff_eq_none, not_or] at hrenew
    obtain ⟨cur, hcur⟩ := Option.ne_none_iff_exists'.mp hrenew.1
    refine ⟨h, fun _ ↦ ⟨cur, hcur, ?_⟩⟩
    exact UInt16.not_lt.mp fun hexhausted ↦ hrenew.2 (hroom cur hcur hexhausted)

theorem Within.rotate {cur : Key} (h : Within ppk packets k) (hcur : k.curKey1 = some cur)
    (hfresh : cur.usage > ppk → RenewsFresh sha256 nextkey (0 < uses packets ·) k)
    (hrotate : rotateKey sha256 true ppk nextkey k = some k') : Within ppk packets k' := by
  simp only [rotateKey, hcur] at hrotate
  split_ifs at hrotate with hexhausted
  · obtain ⟨⟨next, changed⟩, hrenew, rfl⟩ := Option.map_eq_some_iff.mp hrotate
    exact (h.renew (hfresh hexhausted) hrenew).1
  · cases hrotate
    exact h

end Within

/-! ## Runs -/

theorem sealPacket_take (lib : Library) (prog : Program) (key : Key) (buf : Mem) (cnt : ℕ) :
    ((sealPacket lib prog key buf cnt).1.slice 0 (sealPacket lib prog key buf cnt).2).take 32 =
      List.ofFn key.sha := by
  have hid (m : Mem) (bytes : List UInt8) (hm : m.Holds 0 (List.ofFn key.sha)) :
      ((m.store 32 bytes).slice 0 (bytes.length + 32)).take 32 = List.ofFn key.sha := by
    have hheld : (m.store 32 bytes).Holds 0 (List.ofFn key.sha) := hm.store (.inl (by simp))
    rw [Nat.add_comm, slice_add, List.take_left' (length_slice _ _ _)]
    rw [Holds, List.length_ofFn] at hheld
    exact hheld
  have hmarked : (buf.store 0 (List.ofFn key.sha)).Holds 0 (List.ofFn key.sha) :=
    holds_store buf 0 _
  unfold sealPacket
  split
  · exact hid _ _ (hmarked.store (.inl (by simp)))
  · exact hid _ _ hmarked

theorem RenewsFresh.toSend {sha256 : Bytes32 → Bytes32} {nextkey : Option Bytes32}
    {used : Bytes32 → Prop} {k : Keys} (h : RenewsFresh sha256 nextkey used k)
    (key : Option Bytes32) : RenewsFresh sha256 nextkey used { k with curKeyToSend := key } := by
  cases nextkey <;> exact h

theorem Careful.toSend {lib : Library} {cfg : Config} {packets : List (List UInt8)} {k : Keys}
    {answers : Answers} (h : Careful lib cfg packets k answers) (key : Option Bytes32) :
    Careful lib cfg packets { k with curKeyToSend := key } answers where
  not_exhausted := h.not_exhausted
  choose_fresh hrenew := (h.choose_fresh hrenew).toSend key
  rotate_fresh keys cur hchoose hcur hexhausted := by
    rw [chooseKey_toSend] at hchoose
    obtain ⟨⟨chosen, changed⟩, hchosen, heq⟩ := Option.map_eq_some_iff.mp hchoose
    cases heq
    exact (h.rotate_fresh chosen cur hchosen hcur hexhausted).toSend key

/-- A frame that is read with care keeps the invariant. -/
theorem Within.frame {lib : Library} {cfg : Config} {answers : Answers} {s s' : Loop}
    {packets : List (List UInt8)} {bytes : List UInt8} {effects : List Effect}
    (haes : cfg.aes = true) (hlimit : cfg.haslimit = true) (hppk : cfg.ppk < 65535)
    (hcareful : Careful lib cfg packets s.keys answers) (h : Within cfg.ppk packets s.keys)
    (hstep : tap2net lib cfg answers s bytes = some (s', effects)) :
    Within cfg.ppk (packets ++ sent effects) s'.keys := by
  obtain ⟨built, cnt, keys, tosend, hbuilt, hchoose, hcases⟩ := tap2net_cases haes hstep
  obtain ⟨key, hkeys⟩ := buildPacket_keys hbuilt
  have hbuiltWithin : Within cfg.ppk packets built.keys := hkeys ▸ ⟨h.uses_le, h.current, h.queued⟩
  have hbuiltCareful : Careful lib cfg packets built.keys answers := hkeys ▸ hcareful.toSend key
  rw [hlimit] at hchoose
  obtain ⟨hchosen, hroom⟩ := hbuiltWithin.choose hbuiltCareful.not_exhausted
    hbuiltCareful.choose_fresh hchoose
  rcases hcases with ⟨_, hs', rfl⟩ | ⟨htosend, cur, hcur, hrotate, rfl⟩
  · rw [hs', sent, List.filterMap_nil, List.append_nil]
    exact hchosen
  · obtain ⟨other, hother, hle⟩ := hroom htosend
    cases hcur.symm.trans hother
    have hpacket := sealPacket_take lib cfg.prog cur (shiftPacket cfg.prog built.buf cnt) cnt
    have hsent := hchosen.send hcur hle hppk hpacket
    rw [hlimit] at hrotate
    refine hsent.rotate rfl (fun hexhausted ↦ ?_) hrotate
    have hfresh := hbuiltCareful.rotate_fresh keys cur (by rw [hlimit, hchoose, htosend]) hcur
      hexhausted
    -- What is used after the packet was used before it or is the key of the packet.
    intro key hkey hused
    apply hfresh key hkey
    rw [uses_append packets hpacket] at hused
    split_ifs at hused with hsha
    · exact .inr hsha
    · exact .inl hused

/-- In every run all of whose frames are read with care, no key encrypts more than `ppk + 1`
packets. -/
theorem uses_le (lib : Library) (cfg : Config) (nextkey : Option Bytes32) (start : Loop)
    (haes : cfg.aes = true) (hlimit : cfg.haslimit = true) (hppk : cfg.ppk < 65535)
    {inputs : List Input} {s : Process}
    (hrun : ((process lib cfg nextkey start).guard (CarefulStep lib cfg)).Run inputs s)
    (sha : Bytes32) : uses s.packets sha ≤ cfg.ppk.toNat + 1 := by
  suffices hwithin : Within cfg.ppk s.packets s.loop.keys from hwithin.uses_le sha
  refine hrun.invariant (P := fun s ↦ Within cfg.ppk s.packets s.loop.keys) (fun s hs ↦ ?_)
    fun s input t h hstep ↦ ?_
  · obtain rfl : s = Process.start lib nextkey start := hs
    have hkept := getLastKey_sender lib.sha256 nextkey Keys.init
    have hinit : Within cfg.ppk [] Keys.init :=
      ⟨fun _ ↦ Nat.zero_le _, fun _ hcur ↦ (nomatch hcur), fun _ hkey ↦ (nomatch hkey)⟩
    exact hinit.of_sender hkept
  · obtain ⟨hnext, hcareful⟩ := hstep
    obtain ⟨⟨loop, effects⟩, hreact, rfl⟩ := Option.map_eq_some_iff.mp hnext
    cases input with
    | frame answers bytes => exact h.frame haes hlimit hppk hcareful hreact
    | datagram answers source bytes =>
      obtain ⟨hkept, hsent⟩ := net2tap_sender hreact
      rw [hsent, List.append_nil]
      exact h.of_sender hkept

instance (sha256 : Bytes32 → Bytes32) (nextkey : Option Bytes32) (used : Bytes32 → Prop)
    [DecidablePred used] (k : Keys) : Decidable (RenewsFresh sha256 nextkey used k) :=
  decidable_of_iff (∀ key ∈ offered sha256 nextkey k, used key.sha →
      k.q1.items.length = 0 ∧ ∃ cur ∈ k.curKey1, key.sha = cur.sha)
    (by simp only [RenewsFresh, List.length_eq_zero_iff])

/-- The keys and the current key after the choice, when the packet is to be sent. -/
def chosenKey (choice : Option (Keys × Bool)) : Option (Keys × Key) :=
  choice.bind fun next ↦ if next.2 then next.1.curKey1.map (next.1, ·) else none

theorem chosenKey_eq_some_iff {choice : Option (Keys × Bool)} {keys : Keys} {cur : Key} :
    chosenKey choice = some (keys, cur) ↔ choice = some (keys, true) ∧ keys.curKey1 = some cur := by
  rcases choice with _ | ⟨other, _ | _⟩
  · simp [chosenKey]
  · simp [chosenKey]
  · simp only [chosenKey, Option.bind_some, if_true, Option.map_eq_some_iff, Prod.mk.injEq,
      Option.some.injEq, and_true]
    constructor
    · rintro ⟨_, hcur, rfl, rfl⟩
      exact ⟨rfl, hcur⟩
    · rintro ⟨rfl, hcur⟩
      exact ⟨cur, hcur, rfl, rfl⟩

instance (lib : Library) (cfg : Config) (packets : List (List UInt8)) (k : Keys)
    (answers : Answers) : Decidable (Careful lib cfg packets k answers) :=
  decidable_of_iff
    ((∀ cur ∈ k.curKey1, cur.usage > cfg.ppk → k.waslimit = true) ∧
      (k.curKey1.isNone || k.waslimit →
        RenewsFresh lib.sha256 answers.choose (0 < uses packets ·) k) ∧
      ∀ next ∈ chosenKey (chooseKey lib.sha256 cfg.haslimit answers.choose k),
        next.2.used.usage > cfg.ppk →
          RenewsFresh lib.sha256 answers.rotate
            (fun sha ↦ 0 < uses packets sha ∨ sha = next.2.sha)
            { next.1 with curKey1 := some next.2.used })
    ⟨fun h ↦ ⟨h.1, h.2.1, fun keys cur hchoose hcur ↦
        h.2.2 (keys, cur) (chosenKey_eq_some_iff.mpr ⟨hchoose, hcur⟩)⟩,
      fun h ↦ ⟨h.1, h.2, fun next hnext ↦
        h.3 next.1 next.2 (chosenKey_eq_some_iff.mp hnext).1 (chosenKey_eq_some_iff.mp hnext).2⟩⟩

instance (lib : Library) (cfg : Config) (s : Process) :
    (input : Input) → Decidable (CarefulStep lib cfg s input)
  | .frame answers _ => inferInstanceAs (Decidable (Careful lib cfg s.packets s.loop.keys answers))
  | .datagram .. => inferInstanceAs (Decidable True)

/-- Every key for one packet. -/
def onceConfig : Config := { sampleConfig with ppk := 0 }

/-- Three frames, and a new key after each of them. -/
def rotations : List Input :=
  [.frame { noAnswers with rotate := some fun _ ↦ 9 } [1],
    .frame { noAnswers with rotate := some fun _ ↦ 11 } [2],
    .frame { noAnswers with rotate := some fun _ ↦ 13 } [3]]

theorem uses_le_rotations :
    ∃ s, ((process sampleLibrary onceConfig (some fun _ ↦ 5) sampleLoop).guard
        (CarefulStep sampleLibrary onceConfig)).Run rotations s ∧
      [5, 9, 11, 13].map (fun b ↦ uses s.packets fun _ ↦ b) = [1, 1, 1, 0] ∧
      ∀ sha, uses s.packets sha ≤ 1 := by
  obtain ⟨s, hrun, huses⟩ := Machine.exists_run_guard
    (Process.start sampleLibrary (some fun _ ↦ 5) sampleLoop)
    (Process.next sampleLibrary onceConfig) (CarefulStep sampleLibrary onceConfig) rotations
    (P := fun s : Process ↦ [5, 9, 11, 13].map (fun b ↦ uses s.packets fun _ ↦ b) = [1, 1, 1, 0])
    (by decide)
  exact ⟨s, hrun, huses, uses_le sampleLibrary onceConfig (some fun _ ↦ 5) sampleLoop rfl rfl
    (by decide) hrun⟩

/-- With `ppk = 0` a second packet is sent under the first key, because the keyworker has no other
one. -/
theorem not_uses_le_noAnswer :
    ¬∀ inputs s, (process sampleLibrary { sampleConfig with ppk := 0 } (some fun _ ↦ 5)
      sampleLoop).Run inputs s → ∀ sha, uses s.packets sha ≤ 0 + 1 := by
  intro h
  obtain ⟨s, hrun, huses⟩ := Machine.exists_run_ofNext
    (Process.start sampleLibrary (some fun _ ↦ 5) sampleLoop)
    (Process.next sampleLibrary { sampleConfig with ppk := 0 })
    [.frame noAnswers [1], .frame noAnswers [2]]
    (P := fun s : Process ↦ uses s.packets (fun _ ↦ 5) = 2) (by decide)
  have hle := h _ s hrun fun _ ↦ 5
  rw [huses] at hle
  exact absurd hle (by decide)

end QNet.Tunnel
