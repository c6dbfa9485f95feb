import QNet.Lib.BoundedQueue
import QNet.Lib.Memory

/-!
# Keys of the tunnel programs

Both directions of a tunnel take their keys from the keyworker: a key that arrives goes to `q1`
for sending and, as a copy, to `q2` for receiving. The sender counts the packets in the key object
(`usage`) and takes another key from `q1` when the count exceeds `ppk`; with option `-l` it refuses
to go on under the key it already has. The receiver looks for the key id of a datagram in `q2`.

The answers of the keyworker are inputs here: `none` when it gives no key. `none` as a result
means that the program dereferences a null pointer.
-/

namespace QNet.Tunnel

/-- Read 32 bytes. -/
def readBytes32 (m : Mem) (off : ℕ) : Bytes32 := fun i ↦ m (off + i)

structure Key where
  sha : Bytes32
  key : Bytes32
  usage : UInt16
  deriving DecidableEq

/-- The key after another packet has been encrypted under it. -/
def Key.used (key : Key) : Key := { key with usage := key.usage + 1 }

def constructKey (sha256 : Bytes32 → Bytes32) (buf : Bytes32) : Key := ⟨sha256 buf, buf, 0⟩

def constructKeySha (buf sha : Bytes32) : Key := ⟨sha, buf, 0⟩

/-- The key variables of a tunnel process. -/
structure Keys where
  q1 : BoundedQueue Key
  q2 : BoundedQueue Key
  curKey1 : Option Key
  curKey2 : Option Key
  curKeyToSend : Option Bytes32
  waslimit : Bool

namespace Keys

/-- Before the first query of the keyworker. -/
def init : Keys := ⟨.empty 10, .empty 10, none, none, none, false⟩

/-- A key that arrives goes to both queues, where there is room. -/
def load (k : Keys) (key : Key) : Keys :=
  { k with q1 := k.q1.enqueue key, q2 := k.q2.enqueue key }

end Keys

def getLastKey (sha256 : Bytes32 → Bytes32) (nextkey : Option Bytes32) (k : Keys) : Keys :=
  match nextkey with
  | none => k
  | some buff => k.load (constructKey sha256 buff)

/-- `none` when the keyworker does not know the key. -/
def getKeyBySha (nextkey : Option Bytes32) (sha : Bytes32) (k : Keys) : Option Keys :=
  nextkey.map fun buff ↦ k.load (constructKeySha buff sha)

/-! ## The sending direction -/

/-- `lastKeyLoaded` becomes the current key, unless reuse is restricted and it is the current key
already. -/
def adoptKey (haslimit : Bool) (lastKeyLoaded : Key) (k : Keys) : Option (Keys × Bool) :=
  if haslimit then
    match k.curKey1 with
    | none => none
    | some cur =>
        if lastKeyLoaded.sha = cur.sha then some ({ k with waslimit := true }, false)
        else some ({ k with waslimit := false, curKey1 := some lastKeyLoaded }, true)
  else some ({ k with curKey1 := some lastKeyLoaded }, true)

/-- The branches that look for a new current key, before a packet is encrypted and after one was
sent. The second component says whether the key changed. -/
def renewKey (sha256 : Bytes32 → Bytes32) (haslimit : Bool) (nextkey : Option Bytes32) (k : Keys) :
    Option (Keys × Bool) :=
  match k.q1.dequeue with
  | some (key, q1) => some ({ k with q1 := q1, curKey1 := some key }, true)
  | none =>
      let asked := getLastKey sha256 nextkey k
      match asked.q1.dequeue with
      | none => some (asked, false)
      | some (lastKeyLoaded, q1) => adoptKey haslimit lastKeyLoaded { asked with q1 := q1 }

/-- The key for the next packet; the second component is `tosend`. -/
def chooseKey (sha256 : Bytes32 → Bytes32) (haslimit : Bool) (nextkey : Option Bytes32) (k : Keys) :
    Option (Keys × Bool) :=
  if k.curKey1.isNone || k.waslimit then renewKey sha256 haslimit nextkey k else some (k, true)

/-- After a packet: another key, when the current one has been used more than `ppk` times. -/
def rotateKey (sha256 : Bytes32 → Bytes32) (haslimit : Bool) (ppk : UInt16)
    (nextkey : Option Bytes32) (k : Keys) : Option Keys :=
  match k.curKey1 with
  | none => none
  | some cur =>
      if cur.usage > ppk then (renewKey sha256 haslimit nextkey k).map Prod.fst else some k

theorem renewKey_toSend (sha256 : Bytes32 → Bytes32) (haslimit : Bool) (nextkey : Option Bytes32)
    (k : Keys) (key : Option Bytes32) :
    renewKey sha256 haslimit nextkey { k with curKeyToSend := key } =
      (renewKey sha256 haslimit nextkey k).map fun next ↦
        ({ next.1 with curKeyToSend := key }, next.2) := by
  have hadopt (loaded : Key) (k : Keys) : adoptKey haslimit loaded { k with curKeyToSend := key } =
      (adoptKey haslimit loaded k).map fun next ↦
        ({ next.1 with curKeyToSend := key }, next.2) := by
    unfold adoptKey
    cases haslimit with
    | false => rfl
    | true =>
      dsimp only
      cases k.curKey1 with
      | none => rfl
      | some cur => simp only [if_true]; split_ifs <;> rfl
  unfold renewKey
  dsimp only
  cases k.q1.dequeue with
  | some next => rfl
  | none =>
    have hasked : getLastKey sha256 nextkey { k with curKeyToSend := key } =
        { getLastKey sha256 nextkey k with curKeyToSend := key } := by
      cases nextkey <;> rfl
    rw [hasked]
    dsimp only
    cases (getLastKey sha256 nextkey k).q1.dequeue with
    | none => rfl
    | some next => exact hadopt next.1 { getLastKey sha256 nextkey k with q1 := next.2 }

/-- The choice of a key does not look at the key to send. -/
theorem chooseKey_toSend (sha256 : Bytes32 → Bytes32) (haslimit : Bool) (nextkey : Option Bytes32)
    (k : Keys) (key : Option Bytes32) :
    chooseKey sha256 haslimit nextkey { k with curKeyToSend := key } =
      (chooseKey sha256 haslimit nextkey k).map fun next ↦
        ({ next.1 with curKeyToSend := key }, next.2) := by
  unfold chooseKey
  dsimp only
  split
  · exact renewKey_toSend sha256 haslimit nextkey k key
  · rfl

/-! ## The receiving direction -/

/-- Without a current key the receiver takes one from `q2`; `none` when there is none. -/
def firstKey (k : Keys) : Option Keys :=
  match k.curKey2 with
  | some _ => some k
  | none => k.q2.dequeue.map fun next ↦ { k with q2 := next.2, curKey2 := some next.1 }

/-- The loop `while (memcmp(buf, curKey2->sha, 32) != 0)`: keys are taken from `q2` and, once it is
empty, from the keyworker. The second component is false when the loop is left without a key. -/
def findKey (nextkey : Option Bytes32) (sha : Bytes32) : ℕ → Keys → Option (Keys × Bool)
  | 0, _ => none
  | fuel + 1, k =>
      match k.curKey2 with
      | none => none
      | some cur =>
          if cur.sha = sha then some (k, true)
          else
            match k.q2.dequeue with
            | some (key, q2) => findKey nextkey sha fuel { k with q2 := q2, curKey2 := some key }
            | none =>
                match getKeyBySha nextkey sha k with
                | none => some (k, false)
                | some asked =>
                    match asked.q2.dequeue with
                    | none => findKey nextkey sha fuel asked
                    | some (key, q2) =>
                        findKey nextkey sha fuel { asked with q2 := q2, curKey2 := some key }

/-- What is kept when a key is taken from `q2`, and when one is asked for and taken, is kept by the
whole search. -/
theorem findKey_invariant {nextkey : Option Bytes32} {sha : Bytes32} {P : Keys → Prop}
    (htake : ∀ k key q2, k.q2.dequeue = some (key, q2) → P k →
      P { k with q2 := q2, curKey2 := some key })
    (hrefused : ∀ k asked, k.q2.items = [] → getKeyBySha nextkey sha k = some asked →
      asked.q2.items = [] → P k → P asked)
    (hasked : ∀ k asked key q2, k.q2.items = [] → getKeyBySha nextkey sha k = some asked →
      asked.q2.dequeue = some (key, q2) → P k → P { asked with q2 := q2, curKey2 := some key })
    {fuel : ℕ} {k k' : Keys} {found : Bool} (hk : P k)
    (h : findKey nextkey sha fuel k = some (k', found)) : P k' := by
  induction fuel generalizing k with
  | zero => cases h
  | succ fuel ih =>
    rw [findKey] at h
    split at h
    · cases h
    · split_ifs at h
      · cases h
        exact hk
      · split at h
        · rename_i key q2 hq2
          exact ih (htake k key q2 hq2 hk) h
        · rename_i hq2
          have hempty := BoundedQueue.dequeue_eq_none_iff.mp hq2
          split at h
          · cases h
            exact hk
          · rename_i asked hloaded
            split at h
            · rename_i hnone
              exact ih (hrefused k asked hempty hloaded
                (BoundedQueue.dequeue_eq_none_iff.mp hnone) hk) h
            · rename_i key q2 hsome
              exact ih (hasked k asked key q2 hempty hloaded hsome hk) h

theorem firstKey_curKeyToSend {k k' : Keys} (h : firstKey k = some k') :
    k'.curKeyToSend = k.curKeyToSend := by
  unfold firstKey at h
  split at h
  · obtain rfl := Option.some.inj h
    rfl
  · obtain ⟨next, _, rfl⟩ := Option.map_eq_some_iff.mp h
    rfl

theorem findKey_curKeyToSend {nextkey : Option Bytes32} {sha : Bytes32} {fuel : ℕ} {k k' : Keys}
    {found : Bool} (h : findKey nextkey sha fuel k = some (k', found)) :
    k'.curKeyToSend = k.curKeyToSend := by
  have hasked {k asked : Keys} (h : getKeyBySha nextkey sha k = some asked) :
      asked.curKeyToSend = k.curKeyToSend := by
    obtain ⟨buff, _, rfl⟩ := Option.map_eq_some_iff.mp h
    rfl
  exact findKey_invariant (P := fun next ↦ next.curKeyToSend = k.curKeyToSend)
    (fun _ _ _ _ hk ↦ hk) (fun _ _ _ h _ hk ↦ (hasked h).trans hk)
    (fun _ _ _ _ _ h _ hk ↦ (hasked h).trans hk) rfl h

end QNet.Tunnel
