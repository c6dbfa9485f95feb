import QNet.Tunnel.Packet
import QNet.Tunnel.Runs

/-!
# The receiver's search for a key

A datagram names its key. The receiver looks at its current key, then through `q2`, and then asks
the keyworker; what it passes over is gone. The search always ends, and it finds the key whenever
the keyworker knows it (`findKey_spec`).

It is not always made, however: without a current key and with nothing in `q2` the datagram is
dropped before the keyworker is asked. And in a packet with flag 2 only as many bytes are moved
over the key as the payload has, so that four bytes of the header's place are missing behind it.
`delivers_iff` says that these are the only ways in which a datagram can be lost whose key the
keyworker knows.
-/

namespace QNet.Tunnel

open Mem

/-! ## The keys of the receiver -/

/-- The receiver's keys are those of the keyworker, under their ids. -/
structure Honest (keyOf : Bytes32 → Option Bytes32) (k : Keys) : Prop where
  limit : k.q2.limit = 10
  q2 : ∀ key ∈ k.q2.items, keyOf key.sha = some key.key
  curKey2 : ∀ cur ∈ k.curKey2, keyOf cur.sha = some cur.key

section Honest

variable {keyOf : Bytes32 → Option Bytes32} {k k' : Keys}

theorem Honest.init : Honest keyOf Keys.init := ⟨rfl, nofun, nofun⟩

theorem Honest.of_eq (h : Honest keyOf k) (hq2 : k'.q2 = k.q2) (hcur : k'.curKey2 = k.curKey2) :
    Honest keyOf k' where
  limit := hq2 ▸ h.limit
  q2 key hkey := h.q2 key (hq2 ▸ hkey)
  curKey2 cur hmem := h.curKey2 cur (hcur ▸ hmem)

theorem Honest.load {key : Key} (h : Honest keyOf k) (hkey : keyOf key.sha = some key.key) :
    Honest keyOf (k.load key) where
  limit := (BoundedQueue.limit_enqueue _ _).trans h.limit
  q2 other hother := by
    rcases BoundedQueue.mem_items_enqueue hother with hold | rfl
    · exact h.q2 other hold
    · exact hkey
  curKey2 := h.curKey2

theorem Honest.takeQ2 {key : Key} {q2 : BoundedQueue Key} (h : Honest keyOf k)
    (hq2 : k.q2.dequeue = some (key, q2)) :
    Honest keyOf { k with q2 := q2, curKey2 := some key } := by
  obtain ⟨hitems, hlimit⟩ := BoundedQueue.dequeue_eq_some_iff.mp hq2
  have hmem : ∀ other ∈ key :: q2.items, keyOf other.sha = some other.key := by
    rw [← hitems]
    exact h.q2
  refine ⟨hlimit.trans h.limit, fun other hother ↦ hmem other (List.mem_cons_of_mem _ hother), ?_⟩
  intro cur hcur
  cases hcur
  exact hmem key List.mem_cons_self

theorem Honest.getLastKey {sha256 : Bytes32 → Bytes32} {nextkey : Option Bytes32}
    (h : Honest keyOf k) (hnext : ∀ buff ∈ nextkey, keyOf (sha256 buff) = some buff) :
    Honest keyOf (getLastKey sha256 nextkey k) := by
  cases nextkey with
  | none => exact h
  | some buff => exact h.load (hnext buff rfl)

/-! ### Sending leaves them alone -/

theorem Honest.renewKey {sha256 : Bytes32 → Bytes32} {haslimit changed : Bool}
    {nextkey : Option Bytes32} (h : Honest keyOf k)
    (hnext : ∀ buff ∈ nextkey, keyOf (sha256 buff) = some buff)
    (hrenew : renewKey sha256 haslimit nextkey k = some (k', changed)) : Honest keyOf k' := by
  have hasked := h.getLastKey hnext
  unfold Tunnel.renewKey at hrenew
  split at hrenew
  · cases hrenew
    exact h.of_eq rfl rfl
  · dsimp only at hrenew
    split at hrenew
    · cases hrenew
      exact hasked
    · unfold adoptKey at hrenew
      dsimp only at hrenew
      split at hrenew
      · split at hrenew
        · cases hrenew
        · split_ifs at hrenew <;> cases hrenew <;> exact hasked.of_eq rfl rfl
      · cases hrenew
        exact hasked.of_eq rfl rfl

theorem Honest.chooseKey {sha256 : Bytes32 → Bytes32} {haslimit tosend : Bool}
    {nextkey : Option Bytes32} (h : Honest keyOf k)
    (hnext : ∀ buff ∈ nextkey, keyOf (sha256 buff) = some buff)
    (hchoose : chooseKey sha256 haslimit nextkey k = some (k', tosend)) : Honest keyOf k' := by
  unfold Tunnel.chooseKey at hchoose
  split at hchoose
  · exact h.renewKey hnext hchoose
  · cases hchoose
    exact h

theorem Honest.rotateKey {sha256 : Bytes32 → Bytes32} {haslimit : Bool} {ppk : UInt16}
    {nextkey : Option Bytes32} (h : Honest keyOf k)
    (hnext : ∀ buff ∈ nextkey, keyOf (sha256 buff) = some buff)
    (hrotate : rotateKey sha256 haslimit ppk nextkey k = some k') : Honest keyOf k' := by
  unfold Tunnel.rotateKey at hrotate
  split at hrotate
  · cases hrotate
  · split_ifs at hrotate
    · obtain ⟨⟨next, changed⟩, hrenew, rfl⟩ := Option.map_eq_some_iff.mp hrotate
      exact h.renewKey hnext hrenew
    · cases hrotate
      exact h

theorem Honest.tap2net {lib : Library} {cfg : Config} {answers : Answers} {s s' : Loop}
    {frame : List UInt8} {effects : List Effect} (haes : cfg.aes = true)
    (h : Honest keyOf s.keys)
    (hchoose : ∀ buff ∈ answers.choose, keyOf (lib.sha256 buff) = some buff)
    (hrotate : ∀ buff ∈ answers.rotate, keyOf (lib.sha256 buff) = some buff)
    (hstep : tap2net lib cfg answers s frame = some (s', effects)) : Honest keyOf s'.keys := by
  obtain ⟨built, cnt, keys, tosend, hbuilt, hchosen, hcases⟩ := tap2net_cases haes hstep
  obtain ⟨key, hkeys⟩ := buildPacket_keys hbuilt
  have hbuiltHonest : Honest keyOf built.keys := hkeys ▸ h.of_eq rfl rfl
  have hkeysHonest := hbuiltHonest.chooseKey hchoose hchosen
  rcases hcases with ⟨_, hs', _⟩ | ⟨_, cur, hcur, hrotated, _⟩
  · exact hs' ▸ hkeysHonest
  · have hused : Honest keyOf { keys with curKey1 := some cur.used } := hkeysHonest.of_eq rfl rfl
    exact hused.rotateKey hrotate hrotated

/-! ### Receiving -/

theorem Honest.firstKey (h : Honest keyOf k) (hfirst : firstKey k = some k') : Honest keyOf k' := by
  unfold Tunnel.firstKey at hfirst
  split at hfirst
  · cases hfirst
    exact h
  · obtain ⟨next, hnext, rfl⟩ := Option.map_eq_some_iff.mp hfirst
    exact h.takeQ2 hnext

/-- The search of the receiver ends, with a key of the id when the keyworker knows one. Each round
takes a key from `q2`; when it is empty, the keyworker's answer fills it again. -/
theorem findKey_spec {nextkey : Option Bytes32} {sha : Bytes32} (fuel : ℕ) (h : Honest keyOf k)
    (hcur : k.curKey2.isSome) (hnext : ∀ buff ∈ nextkey, keyOf sha = some buff)
    (hfuel : k.q2.items.length + 2 ≤ fuel) :
    ∃ k' found, findKey nextkey sha fuel k = some (k', found) ∧ Honest keyOf k' ∧
      (found = true → ∃ cur ∈ k'.curKey2, cur.sha = sha) ∧ (nextkey.isSome → found = true) := by
  induction fuel generalizing k with
  | zero => omega
  | succ fuel ih =>
    obtain ⟨cur, hcur⟩ := Option.isSome_iff_exists.mp hcur
    by_cases hsha : cur.sha = sha
    · refine ⟨k, true, ?_, h, fun _ ↦ ⟨cur, hcur, hsha⟩, fun _ ↦ rfl⟩
      simp only [findKey, hcur, if_pos hsha]
    · cases hq2 : k.q2.dequeue with
      | some next =>
        obtain ⟨hitems, _⟩ := BoundedQueue.dequeue_eq_some_iff.mp hq2
        have hlength : next.2.items.length + 2 ≤ fuel := by
          rw [hitems, List.length_cons] at hfuel
          omega
        have hnextKey := ih (h.takeQ2 hq2) rfl hlength
        simpa only [findKey, hcur, if_neg hsha, hq2] using hnextKey
      | none =>
        have hempty := BoundedQueue.dequeue_eq_none_iff.mp hq2
        cases nextkey with
        | none =>
          refine ⟨k, false, ?_, h, nofun, nofun⟩
          simp only [findKey, hcur, if_neg hsha, hq2, getKeyBySha, Option.map_none]
        | some buff =>
          -- The key that was asked for is the only one in `q2`.
          have hloaded :
              (k.load (constructKeySha buff sha)).q2.items = [constructKeySha buff sha] :=
            BoundedQueue.items_enqueue_of_isEmpty hempty (h.limit ▸ by decide)
          obtain ⟨q2, hdequeue⟩ : ∃ q2, (k.load (constructKeySha buff sha)).q2.dequeue =
              some (constructKeySha buff sha, q2) :=
            ⟨⟨_, [], Nat.zero_le _⟩, BoundedQueue.dequeue_eq_some_iff.mpr ⟨hloaded, rfl⟩⟩
          have hhonest : Honest keyOf (k.load (constructKeySha buff sha)) := h.load (hnext buff rfl)
          obtain ⟨fuel, rfl⟩ : ∃ n, fuel = n + 1 := ⟨fuel - 1, by omega⟩
          refine ⟨_, true, ?_, hhonest.takeQ2 hdequeue, fun _ ↦ ⟨_, rfl, rfl⟩, fun _ ↦ rfl⟩
          rw [findKey]
          simp only [hcur, if_neg hsha, hq2, getKeyBySha, Option.map_some, hdequeue]
          exact findKey_of_eq rfl rfl

/-- The key id at the start of a datagram. -/
def datagramId (datagram : List UInt8) : Bytes32 := fun i ↦ datagram.getD i 0

theorem readBytes32_received (buf : Mem) {datagram : List UInt8}
    (hlength : 32 ≤ (datagram.take 2000).length) :
    readBytes32 (buf.store 0 (datagram.take 2000)) 0 = datagramId datagram := by
  funext i
  have hi : i.val < (datagram.take 2000).length := by omega
  have hstored : buf.store 0 (datagram.take 2000) (0 + i) = (datagram.take 2000)[i.val] :=
    store_of_mem hi
  rw [readBytes32, hstored, List.getElem_take, datagramId, List.getD_eq_getElem]

theorem firstKey_isSome (hfirst : Tunnel.firstKey k = some k') : k'.curKey2.isSome := by
  unfold Tunnel.firstKey at hfirst
  split at hfirst
  · rename_i cur hcur
    cases hfirst
    rw [hcur]
    rfl
  · obtain ⟨next, _, rfl⟩ := Option.map_eq_some_iff.mp hfirst
    rfl

theorem firstKey_isSome_iff (k : Keys) :
    (Tunnel.firstKey k).isSome ↔ k.curKey2.isSome ∨ k.q2.items ≠ [] := by
  rw [← BoundedQueue.dequeue_eq_none_iff.ne, ← Option.isSome_iff_ne_none]
  unfold Tunnel.firstKey
  cases k.curKey2 with
  | some cur => simp
  | none => simp

theorem Honest.net2tap {lib : Library} {cfg : Config} {answers : Answers} {s s' : Loop}
    {source : Address} {datagram : List UInt8} {effects : List Effect} (h : Honest keyOf s.keys)
    (hanswer : ∀ buff ∈ answers.bySha, keyOf (datagramId datagram) = some buff)
    (hstep : net2tap lib cfg answers s source datagram = some (s', effects)) :
    Honest keyOf s'.keys := by
  obtain ⟨_, k, key, hsearch, hkeys⟩ := net2tap_keys hstep
  have hk : Honest keyOf k := by
    cases hsearch with
    | untouched => exact h
    | first hfirst => exact h.firstKey hfirst
    | @search keys _ _ hfirst hlength hfound =>
      rw [readBytes32_received _ hlength] at hfound
      obtain ⟨k', found, hspec, hhonest, _⟩ := findKey_spec (keys.q2.items.length + 3)
        (h.firstKey hfirst) (firstKey_isSome hfirst) hanswer (by omega)
      cases hfound.symm.trans hspec
      exact hhonest
  rw [hkeys]
  exact hk.of_eq rfl rfl

end Honest

/-! ## Runs with an honest keyworker -/

/-- The keyworker answers with the keys it has, under their ids. -/
def HonestStep (lib : Library) (keyOf : Bytes32 → Option Bytes32) (_ : Process) : Input → Prop
  | .frame answers _ => (∀ buff ∈ answers.choose, keyOf (lib.sha256 buff) = some buff) ∧
      ∀ buff ∈ answers.rotate, keyOf (lib.sha256 buff) = some buff
  | .datagram answers _ bytes => ∀ buff ∈ answers.bySha, keyOf (datagramId bytes) = some buff

theorem honest_of_reachable {lib : Library} {cfg : Config} {keyOf : Bytes32 → Option Bytes32}
    {nextkey : Option Bytes32} {start : Loop} {s : Process} (haes : cfg.aes = true)
    (hnext : ∀ buff ∈ nextkey, keyOf (lib.sha256 buff) = some buff)
    (hreach : ((process lib cfg nextkey start).guard (HonestStep lib keyOf)).Reachable s) :
    Honest keyOf s.loop.keys := by
  refine hreach.invariant (P := fun s ↦ Honest keyOf s.loop.keys) (fun s hs ↦ ?_)
    fun s input t h hstep ↦ ?_
  · obtain rfl : s = Process.start lib nextkey start := hs
    exact Honest.init.getLastKey hnext
  · obtain ⟨hnext, hhonest⟩ := hstep
    obtain ⟨⟨loop, effects⟩, hreact, rfl⟩ := Option.map_eq_some_iff.mp hnext
    cases input with
    | frame answers bytes => exact h.tap2net haes hhonest.1 hhonest.2 hreact
    | datagram answers source bytes => exact h.net2tap hhonest hreact

/-! ## Delivery -/

/-- A packet of the peer. With flag 2 it carries `newkey` between header and payload. -/
structure PeerPacket where
  flag : UInt8
  pnum : UInt8
  newkey : Bytes32
  payload : List UInt8

namespace PeerPacket

def behindHeader (p : PeerPacket) : List UInt8 :=
  if p.flag = 2 then List.ofFn p.newkey ++ p.payload else p.payload

def plain (p : PeerPacket) : List UInt8 := pheader p.flag p.pnum p.payload.length ++ p.behindHeader

/-- What is left of the payload when only so many bytes are moved to the front as it has: its last
four bytes are those that stand there before the move. -/
def misplaced (p : PeerPacket) : List UInt8 :=
  p.payload.take (p.payload.length - 4) ++
    (p.behindHeader.take p.payload.length).drop (p.payload.length - 4)

end PeerPacket

/-- The frame of a payload. -/
def unpacked (lib : Library) (cfg : Config) (payload : List UInt8) : List UInt8 :=
  if cfg.gzip then lib.unzip payload else payload

/-- The datagram is decrypted with the key of its id and its payload is written to the device. -/
def Delivers (lib : Library) (cfg : Config) (answers : Answers) (s : Loop) (source : Address)
    (key : Key) (p : PeerPacket) : Prop :=
  ∃ s' effects,
    net2tap lib cfg answers s source (wirePacket lib (some key) p.plain) = some (s', effects) ∧
      (∃ cur ∈ s'.keys.curKey2, cur.sha = key.sha ∧ cur.key = key.key) ∧
      .write (unpacked lib cfg p.payload) ∈ effects

theorem receivedPayload_of_plain {p : PeerPacket} {m : Mem} (hm : m.Holds 0 p.plain) :
    receivedPayload p.flag m p.payload.length = if p.flag = 2 then p.misplaced else p.payload := by
  rw [PeerPacket.plain, holds_append, length_pheader, Nat.zero_add] at hm
  have hbehind := hm.2
  unfold receivedPayload PeerPacket.misplaced
  unfold PeerPacket.behindHeader at hbehind ⊢
  split_ifs at hbehind ⊢ with hflag
  · -- The move fills all but the last four places.
    have hpayload := (holds_append.mp hbehind).2
    rw [List.length_ofFn] at hpayload
    rw [slice_eq_iff]
    have hlength : (List.ofFn p.newkey ++ p.payload).length = 32 + p.payload.length := by
      rw [List.length_append, List.length_ofFn]
    have htotal : (p.payload.take (p.payload.length - 4) ++
        ((List.ofFn p.newkey ++ p.payload).take p.payload.length).drop
          (p.payload.length - 4)).length = p.payload.length := by
      rw [List.length_append, List.length_take, List.length_drop, List.length_take, hlength]
      omega
    refine ⟨htotal, fun i hi ↦ ?_⟩
    have hi' : i < p.payload.length := htotal ▸ hi
    rw [List.getElem_append]
    split_ifs with hmoved
    · rw [List.length_take] at hmoved
      have hmove : m.memmove 0 32 p.payload.length (0 + (4 + i)) = m (32 + (4 + i)) :=
        memmove_of_mem (by omega)
      rw [Nat.zero_add] at hmove
      rw [hmove, List.getElem_take, ← hpayload.apply hi']
      congr 1
      omega
    · rw [List.length_take, Nat.not_lt] at hmoved
      rw [memmove_of_ge (by omega), hbehind.apply (by omega), List.getElem_drop, List.getElem_take]
      congr 1
      rw [List.length_take]
      omega
  · exact hbehind

theorem PeerPacket.plain_ne_nil (p : PeerPacket) : p.plain ≠ [] := by
  rw [PeerPacket.plain, pheader]
  exact List.append_ne_nil_of_left_ne_nil (List.cons_ne_nil _ _) _

theorem PeerPacket.length_payload_le (p : PeerPacket) : p.payload.length ≤ p.plain.length := by
  have hbehind : p.payload.length ≤ p.behindHeader.length := by
    unfold behindHeader
    split
    · rw [List.length_append]
      exact Nat.le_add_left _ _
    · exact le_rfl
  rw [plain, List.length_append]
  omega

theorem write_mem_headerEffects {flag : UInt8} {key : Bytes32} {frame frame' : List UInt8} :
    .write frame ∈ headerEffects flag key ++ [.write frame'] ↔ frame = frame' := by
  unfold headerEffects
  split_ifs <;> simp

theorem requestKey_mem_headerEffects {flag : UInt8} {key : Bytes32} {frame : List UInt8} :
    .requestKey ∈ headerEffects flag key ++ [.write frame] ↔ flag = 1 := by
  unfold headerEffects
  split_ifs with hone htwo <;> simp [hone]

/-- Without a key to start with, the datagram is dropped before its key is looked at. -/
theorem not_delivers_of_firstKey {lib : Library} {cfg : Config} {answers : Answers} {s : Loop}
    {source : Address} {key : Key} {p : PeerPacket} (haes : cfg.aes = true)
    (hfirst : firstKey s.keys = none) : ¬Delivers lib cfg answers s source key p := by
  rintro ⟨s', effects, hstep, _, hwrite⟩
  simp only [net2tap, haes, if_true, hfirst] at hstep
  cases hstep
  cases hwrite

/-- With a key to start with, the datagram is decrypted and delivered. -/
theorem delivers_iff_of_firstKey {lib : Library} {cfg : Config} {answers : Answers} {s : Loop}
    {source addr : Address} {key : Key} {keys : Keys} {keyOf : Bytes32 → Option Bytes32}
    {p : PeerPacket} (hprog : cfg.prog ≠ .ctapudp) (haes : cfg.aes = true)
    (hhonest : Honest keyOf s.keys) (hfirst : firstKey s.keys = some keys)
    (hsource : acceptAddress cfg s source = some addr) (hanswer : answers.bySha = some key.key)
    (hkey : keyOf key.sha = some key.key)
    (hlength : (wirePacket lib (some key) p.plain).length ≤ 2000) :
    Delivers lib cfg answers s source key p ↔
      (p.flag = 2 → unpacked lib cfg p.misplaced = unpacked lib cfg p.payload) := by
  have hanswers : ∀ buff ∈ answers.bySha, keyOf key.sha = some buff := by
    intro buff hbuff
    rw [hanswer] at hbuff
    rwa [← Option.some.inj hbuff]
  obtain ⟨found, ok, hfound, hfoundHonest, hid, hok⟩ := findKey_spec (keys.q2.items.length + 3)
    (hhonest.firstKey hfirst) (firstKey_isSome hfirst) hanswers (by omega)
  obtain rfl : ok = true := hok (by rw [hanswer]; rfl)
  obtain ⟨cur, hcur, hsha⟩ := hid rfl
  have hsame : cur.key = key.key := by
    have hhas := hfoundHonest.curKey2 cur hcur
    rw [hsha, hkey] at hhas
    exact (Option.some.inj hhas).symm
  have hstep := net2tap_of_wire hprog haes hsource hfirst hfound hcur hsame p.plain_ne_nil hlength
  have hbuf : (openedBuf s.buf (wirePacket lib (some key) p.plain) p.plain).Holds 0 p.plain := by
    apply openedBuf_holds
    rw [length_wirePacket_some]
    omega
  have hsmall : p.payload.length < 65536 := by
    have hle := p.length_payload_le
    rw [length_wirePacket_some] at hlength
    omega
  obtain ⟨hflag, hcnt⟩ := pheader_of_holds hbuf hsmall
  generalize hdelivered : deliver lib cfg answers _ _ = next at hstep
  obtain ⟨_, _, hkeys⟩ := deliver_keys hdelivered
  have heffects : next.2 = _ := hdelivered ▸ deliver_effects hprog
  dsimp only at heffects
  rw [hflag, hcnt, receivedPayload_of_plain hbuf, ← unpacked] at heffects
  have hwrite : .write (unpacked lib cfg p.payload) ∈ next.2 ↔
      (p.flag = 2 → unpacked lib cfg p.misplaced = unpacked lib cfg p.payload) := by
    rw [heffects, write_mem_headerEffects]
    by_cases htwo : p.flag = 2
    · simp only [htwo, if_true, true_imp_iff, eq_comm]
    · simp only [htwo, if_false, false_imp_iff]
  rw [← hwrite]
  constructor
  · rintro ⟨s', effects, hother, _, hmem⟩
    cases hstep.symm.trans hother
    exact hmem
  · intro hmem
    refine ⟨next.1, next.2, hstep, ⟨cur, ?_, hsha, hsame⟩, hmem⟩
    rw [hkeys]
    exact hcur

/-- For every run with an honest keyworker and every packet under a key that the keyworker knows:
it is delivered if and only if the receiver has a key to start its search with and, with flag 2,
the misplaced bytes stand for the same frame. -/
theorem delivers_iff (lib : Library) (cfg : Config) (hprog : cfg.prog ≠ .ctapudp)
    (haes : cfg.aes = true) {keyOf : Bytes32 → Option Bytes32} {nextkey : Option Bytes32}
    (hnext : ∀ buff ∈ nextkey, keyOf (lib.sha256 buff) = some buff) {start : Loop} {s : Process}
    (hreach : ((process lib cfg nextkey start).guard (HonestStep lib keyOf)).Reachable s)
    {answers : Answers} {source : Address} {key : Key} (p : PeerPacket)
    (hsource : (acceptAddress cfg s.loop source).isSome) (hanswer : answers.bySha = some key.key)
    (hkey : keyOf key.sha = some key.key)
    (hlength : (wirePacket lib (some key) p.plain).length ≤ 2000) :
    Delivers lib cfg answers s.loop source key p ↔
      (s.loop.keys.curKey2.isSome ∨ s.loop.keys.q2.items ≠ []) ∧
        (p.flag = 2 → unpacked lib cfg p.misplaced = unpacked lib cfg p.payload) := by
  have hhonest := honest_of_reachable haes hnext hreach
  obtain ⟨addr, hsource⟩ := Option.isSome_iff_exists.mp hsource
  rw [← firstKey_isSome_iff]
  cases hfirst : firstKey s.loop.keys with
  | none =>
    simp only [Option.isSome_none, Bool.false_eq_true, false_and, iff_false]
    exact not_delivers_of_firstKey haes hfirst
  | some keys =>
    simp only [Option.isSome_some, true_and]
    exact delivers_iff_of_firstKey hprog haes hhonest hfirst hsource hanswer hkey hlength

/-- The key of the first datagram in the examples. -/
def peerKey : Key := ⟨fun _ ↦ 9, fun _ ↦ 9, 0⟩

/-- The keyworker knows this key. -/
def peerAnswers : Answers := { noAnswers with bySha := some peerKey.key }

def firstPacket : PeerPacket := ⟨0, 0, fun _ ↦ 0, [1]⟩

/-- With another key in `q2` the keyworker is asked for the key of the first datagram. -/
theorem delivers_iff_query :
    Delivers sampleLibrary sampleConfig peerAnswers
      (Process.start sampleLibrary (some fun _ ↦ 5) sampleLoop).loop ⟨0, 0⟩ peerKey
      firstPacket := by
  have hreach : ((process sampleLibrary sampleConfig (some fun _ ↦ 5) sampleLoop).guard
      (HonestStep sampleLibrary some)).Reachable
        (Process.start sampleLibrary (some fun _ ↦ 5) sampleLoop) := ⟨[], .start rfl⟩
  exact (delivers_iff sampleLibrary sampleConfig (by decide) rfl (fun _ _ ↦ rfl) hreach firstPacket
    rfl rfl rfl (by decide)).mpr ⟨.inr (by decide), by decide⟩

/-- Without an answer to the first query the first datagram is lost, although the keyworker knows
its key. -/
theorem not_delivers_noKey :
    (process sampleLibrary sampleConfig none sampleLoop).Reachable
        (Process.start sampleLibrary none sampleLoop) ∧
      ¬Delivers sampleLibrary sampleConfig peerAnswers
        (Process.start sampleLibrary none sampleLoop).loop ⟨0, 0⟩ peerKey firstPacket :=
  ⟨⟨[], .start rfl⟩, not_delivers_of_firstKey rfl rfl⟩

end QNet.Tunnel
