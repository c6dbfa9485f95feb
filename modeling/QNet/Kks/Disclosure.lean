import QNet.Kks.Hamming
import QNet.Kks.Sifting
import QNet.Lib.Machine

/-!
# What the key exchange discloses

Alice and Bob with everything they send each other. Bob sends his record and waits; Alice receives
it, sends hers without the keys, and a sample of her sifted key; Bob compares the sample with his
own, and sends an error code or the control bits of the rest of his key; Alice receives an error
code and the control bits. `Recv` takes what comes: Bob sends no error code when there is no error,
so Alice takes the size of his control bits for one, and his next record for the control bits.

`sent_eq_iff` compares two executions that differ in the bits of the keys only: they send the same
if and only if Bob's bits are the same, because his whole record is sent.
-/

namespace QNet.Kks

/-! ## The sample -/

section Sample

variable {α β : Type*}

/-- `erase` of one bit of a vector that ends at `finish`; the bits behind the end stay in the
storage, and nothing moves when the place is there. -/
def eraseBit (storage : List α) (finish pos : ℕ) : List α :=
  if pos + 1 < finish then
    storage.take pos ++ ((storage.take finish).drop (pos + 1) ++ storage.drop (finish - 1))
  else storage

/-- One round of the loop of `get_qber_key`: the answer and the storage of the key. The place is
taken modulo the size the key had at first. -/
def sampleBit (random : ℕ → ℕ) (size : ℕ) (s : List α × List α) (i : ℕ) : List α × List α :=
  let pos := random i % size
  (s.1 ++ s.2[pos]?.toList, eraseBit s.2 (size - i) pos)

/-- `get_qber_key`: the sample, a tenth of the key rounded up, and what is left. `random seed` are
the answers of `random()` after `srandom(seed)`. -/
def getQberKey (random : UInt32 → ℕ → ℕ) (seed : UInt32) (key : List α) : List α × List α :=
  let rounds := (key.length + 9) / 10
  let s := (List.range rounds).foldl (sampleBit (random seed) key.length) ([], key)
  (s.1, s.2.take (key.length - rounds))

/-- The places of the sample in a key. -/
def samplePositions (random : UInt32 → ℕ → ℕ) (seed : UInt32) (size : ℕ) : List ℕ :=
  (getQberKey random seed (List.range size)).1

theorem sampleBit_map (f : α → β) (random : ℕ → ℕ) (size : ℕ) (s : List α × List α) (i : ℕ) :
    sampleBit random size (s.1.map f, s.2.map f) i =
      ((sampleBit random size s i).1.map f, (sampleBit random size s i).2.map f) := by
  have htoList (o : Option α) : (o.map f).toList = o.toList.map f := by cases o <;> rfl
  unfold sampleBit eraseBit
  dsimp only
  rw [List.getElem?_map, htoList, List.map_append]
  split_ifs
  · rw [List.map_append, List.map_append, List.map_take, List.map_drop, List.map_drop,
      List.map_take]
  · rfl

/-- The sample and the rest depend on the places only. -/
theorem getQberKey_map (f : α → β) (random : UInt32 → ℕ → ℕ) (seed : UInt32) (key : List α) :
    getQberKey random seed (key.map f) =
      ((getQberKey random seed key).1.map f, (getQberKey random seed key).2.map f) := by
  have hloop (l : List ℕ) (s : List α × List α) :
      l.foldl (sampleBit (random seed) key.length) (s.1.map f, s.2.map f) =
        ((l.foldl (sampleBit (random seed) key.length) s).1.map f,
          (l.foldl (sampleBit (random seed) key.length) s).2.map f) := by
    induction l generalizing s with
    | nil => rfl
    | cons i l ih => rw [List.foldl_cons, sampleBit_map, ih, List.foldl_cons]
  have hall := hloop (List.range ((key.length + 9) / 10)) ([], key)
  rw [List.map_nil] at hall
  rw [getQberKey, getQberKey, List.length_map, hall, List.map_take]

theorem getQberKey_eq_map (random : UInt32 → ℕ → ℕ) (seed : UInt32) (key : List Bool) :
    getQberKey random seed key =
      ((getQberKey random seed (List.range key.length)).1.map fun i ↦ key[i]?.getD false,
        (getQberKey random seed (List.range key.length)).2.map fun i ↦ key[i]?.getD false) := by
  have hkey : key = (List.range key.length).map fun i ↦ key[i]?.getD false := by
    apply List.ext_getElem
    · rw [List.length_map, List.length_range]
    · intro i hi _
      rw [List.getElem_map, List.getElem_range, List.getElem?_eq_getElem hi, Option.getD_some]
  nth_rewrite 1 [hkey]
  exact getQberKey_map _ random seed _

theorem getQberKey_fst (random : UInt32 → ℕ → ℕ) (seed : UInt32) (key : List Bool) :
    (getQberKey random seed key).1 =
      (samplePositions random seed key.length).map fun i ↦ key[i]?.getD false :=
  congrArg Prod.fst (getQberKey_eq_map random seed key)

/-- Keys that agree on the places of the sample have the same sample. -/
theorem getQberKey_congr {random : UInt32 → ℕ → ℕ} {seed : UInt32} {key key' : List Bool}
    (hlength : key.length = key'.length)
    (h : ∀ i ∈ samplePositions random seed key.length, key[i]? = key'[i]?) :
    (getQberKey random seed key).1 = (getQberKey random seed key').1 := by
  rw [getQberKey_fst, getQberKey_fst, ← hlength]
  apply List.map_congr_left
  intro i hi
  rw [h i hi]

end Sample

/-! ## The two programs -/

/-- Where Bob stands in the loop of `generation_key`. -/
inductive Bob
  | collects
  | waits (myDetect : Detections)
  | thrown
  deriving DecidableEq

/-- Where Alice stands in the loop of `generation`. -/
inductive Alice
  | receives
  | waits
  | thrown
  deriving DecidableEq

/-- The two ends, the bytes that are sent and not received yet, and all messages so far. -/
structure System where
  bob : Bob
  alice : Alice
  toAlice : List UInt8
  toBob : List UInt8
  sentByBob : List (List UInt8)
  sentByAlice : List (List UInt8)
  deriving DecidableEq

/-- What an end does between two times it waits, with what it gets from its board and the time. -/
inductive Event
  | detects (myDetect : Detections)
  | generates (board : List UInt32 → Detections) (seed : UInt32)
  | checks (seed : UInt32) (behind : Bool)
  | corrects

/-- The number of messages Bob sends. -/
def Event.messages : Event → ℕ
  | .detects _ => 1
  | .generates _ _ => 0
  | .checks _ _ => 1
  | .corrects => 0

namespace System

def start : System := ⟨.collects, .receives, [], [], [], []⟩

/-- The first part of Alice's round: Bob's record is received, the board is asked, and the keys
are sifted; also what is left to receive. -/
def aliceSift (s : System) (board : List UInt32 → Detections) :
    Option (Detections × List Bool × List UInt8) := do
  let (bobDetect, rest) ← recvDetections s.toAlice
  let myDetect := board bobDetect.count
  let key ← siftKey myDetect bobDetect
  return (myDetect, key, rest)

/-- `errors::qber`. -/
def qber : ℕ := 1

/-- `mismatch / qber_key.size() > max_qber`, which is false for an empty sample (0 / 0). -/
def exceeds (mismatch size : ℕ) : Bool := 65 * size < 1000 * mismatch

/-- The first part of Bob's second half: Alice's record, the sifted key, the two samples and the
rest of the key, and what is left to receive. The received seed is overwritten. -/
def bobSift (random : UInt32 → ℕ → ℕ) (s : System) (myDetect : Detections) (seed : UInt32) :
    Option ((List Bool × List Bool) × List Bool × List UInt8) := do
  let (aliceDetect, rest) ← recvDetections s.toBob
  let key ← siftKey myDetect aliceDetect
  let (_, rest) ← recvInt rest
  let (aliceQberKey, rest) ← recvBits rest
  return (getQberKey random seed key, aliceQberKey, rest)

/-- A sample that is too short cannot be compared. -/
def mismatch (qberKey aliceQberKey : List Bool) : Option ℕ :=
  if qberKey.length ≤ aliceQberKey.length then
    some ((List.range qberKey.length).countP fun i ↦ qberKey[i]? ≠ aliceQberKey[i]?)
  else none

/-- The second part of Alice's round: her record without the keys, the seed and the sample. -/
def aliceAnswer (random : UInt32 → ℕ → ℕ) (s : System) (seed : UInt32)
    (sifted : Detections × List Bool × List UInt8) : System :=
  let messages := [sendDetections sifted.1.clearKey, sendInt seed.toNat,
    sendBits (getQberKey random seed sifted.2.1).1]
  { s with
    alice := .waits
    toAlice := sifted.2.2
    toBob := s.toBob ++ messages.flatten
    sentByAlice := s.sentByAlice ++ messages }

/-- A message of Bob, with what is left to receive. -/
def bobSends (s : System) (bob : Bob) (rest message : List UInt8) : System :=
  { s with
    bob := bob
    toBob := rest
    toAlice := s.toAlice ++ message
    sentByBob := s.sentByBob ++ [message] }

/-- The second part of Bob's second half: the error code, or the control bits. -/
def bobAnswer (s : System) (behind : Bool)
    (sifted : (List Bool × List Bool) × List Bool × List UInt8) : Option System := do
  let wrong ← mismatch sifted.1.1 sifted.2.1
  if exceeds wrong sifted.1.1.length then
    return s.bobSends .thrown sifted.2.2 (sendInt qber)
  else
    let cbits ← hammingCode behind sifted.1.2
    return s.bobSends .collects sifted.2.2 (sendBits cbits)

/-- Alice's second half. What she decodes goes to the consumer of the key, not to Bob. -/
def aliceCorrects (s : System) : Option System := do
  let (errcode, rest) ← recvInt s.toAlice
  if errcode = qber then return { s with alice := .thrown, toAlice := rest }
  else
    let (_, rest) ← recvBits rest
    return { s with alice := .receives, toAlice := rest }

def next (random : UInt32 → ℕ → ℕ) (s : System) : Event → Option System
  | .detects myDetect =>
      match s.bob with
      | .collects => some (s.bobSends (.waits myDetect) s.toBob (sendDetections myDetect))
      | _ => none
  | .generates board seed =>
      match s.alice with
      | .receives => (s.aliceSift board).map (s.aliceAnswer random seed)
      | _ => none
  | .checks seed behind =>
      match s.bob with
      | .waits myDetect => (s.bobSift random myDetect seed).bind (s.bobAnswer behind)
      | _ => none
  | .corrects =>
      match s.alice with
      | .waits => s.aliceCorrects
      | _ => none

/-- The control bits Bob makes, if he gets so far. -/
def bobCode (random : UInt32 → ℕ → ℕ) (s : System) (seed : UInt32) (behind : Bool) :
    Option (List Bool) :=
  match s.bob with
  | .waits myDetect =>
      (s.bobSift random myDetect seed).bind fun sifted ↦ hammingCode behind sifted.1.2
  | _ => none

end System

/-! ## Two executions -/

/-- Records of the same detections with the same bases. -/
structure SamePositions (d d' : Detections) : Prop where
  basis : d.basis = d'.basis
  special : d.special = d'.special
  count : d.count = d'.count
  key : d.key.length = d'.key.length

instance decidableSamePositions (d d' : Detections) : Decidable (SamePositions d d') :=
  decidable_of_iff (d.basis = d'.basis ∧ d.special = d'.special ∧ d.count = d'.count ∧
      d.key.length = d'.key.length)
    ⟨fun h ↦ ⟨h.1, h.2.1, h.2.2.1, h.2.2.2⟩, fun h ↦ ⟨h.basis, h.special, h.count, h.key⟩⟩

/-- The same step of two executions, with the same time. -/
inductive Step
  | detects (myDetect myDetect' : Detections)
  | generates (board board' : List UInt32 → Detections) (seed : UInt32)
  | checks (seed : UInt32) (behind behind' : Bool)
  | corrects

namespace Step

def first : Step → Event
  | .detects myDetect _ => .detects myDetect
  | .generates board _ seed => .generates board seed
  | .checks seed behind _ => .checks seed behind
  | .corrects => .corrects

def second : Step → Event
  | .detects _ myDetect' => .detects myDetect'
  | .generates _ board' seed => .generates board' seed
  | .checks seed _ behind' => .checks seed behind'
  | .corrects => .corrects

/-- The detections are at the same positions in the same bases; Alice's sifted keys agree at the
places of the sample; Bob's control bits are the same. -/
def Alike (random : UInt32 → ℕ → ℕ) (s : System × System) : Step → Prop
  | .detects myDetect myDetect' => SamePositions myDetect myDetect'
  | .generates board board' seed =>
      ∀ r ∈ s.1.aliceSift board, ∀ r' ∈ s.2.aliceSift board', SamePositions r.1 r'.1 ∧
        ∀ i ∈ samplePositions random seed r.2.1.length, r.2.1[i]? = r'.2.1[i]?
  | .checks seed behind behind' => s.1.bobCode random seed behind = s.2.bobCode random seed behind'
  | .corrects => True

instance decidableAlike (random : UInt32 → ℕ → ℕ) (s : System × System) (e : Step) :
    Decidable (e.Alike random s) :=
  match e with
  | .detects _ _ => inferInstanceAs (Decidable (SamePositions _ _))
  | .generates _ _ _ => inferInstanceAs (Decidable (∀ r ∈ s.1.aliceSift _, _))
  | .checks _ _ _ => inferInstanceAs (Decidable (_ = _))
  | .corrects => inferInstanceAs (Decidable True)

/-- Bob's bits are the same. -/
def SameKeys : Step → Prop
  | .detects myDetect myDetect' => myDetect.key = myDetect'.key
  | _ => True

instance decidableSameKeys (e : Step) : Decidable e.SameKeys :=
  match e with
  | .detects _ _ => inferInstanceAs (Decidable (_ = _))
  | .generates _ _ _ | .checks _ _ _ | .corrects => inferInstanceAs (Decidable True)

end Step

/-- Two executions side by side. -/
def nextTwo (random : UInt32 → ℕ → ℕ) (s : System × System) (e : Step) :
    Option (System × System) := do
  let t ← s.1.next random e.first
  let t' ← s.2.next random e.second
  return (t, t')

def twoRuns (random : UInt32 → ℕ → ℕ) : Machine (System × System) Step :=
  (Machine.ofNext (System.start, System.start) (nextTwo random)).guard (Step.Alike random)

/-! ## What keeps them the same -/

theorem SamePositions.eq_of_key {d d' : Detections} (h : SamePositions d d')
    (hkey : d.key = d'.key) : d = d' := by
  cases d
  cases d'
  obtain ⟨rfl, rfl, rfl, _⟩ := h
  cases hkey
  rfl

/-- Without the keys nothing tells the records apart. -/
theorem SamePositions.clearKey_eq {d d' : Detections} (h : SamePositions d d') :
    d.clearKey = d'.clearKey := by
  rw [Detections.clearKey, Detections.clearKey, h.basis, h.special, h.count]

theorem length_siftBit {my other : Detections} {answer next : List Bool} {i : ℕ}
    (h : siftBit my other answer i = some next) :
    next.length = answer.length + if other.basis[i]? = my.basis[i]? then 1 else 0 := by
  unfold siftBit at h
  simp only [Option.bind_eq_bind, Option.bind_eq_some_iff] at h
  obtain ⟨theirs, htheirs, mine, hmine, h⟩ := h
  simp only [htheirs, hmine, Option.some_inj]
  split_ifs at h ⊢ with heq
  · obtain ⟨bit, _, hnext⟩ := Option.bind_eq_some_iff.mp h
    rw [← Option.some.inj hnext, List.length_append, List.length_singleton]
  · rw [← Option.some.inj h, Nat.add_zero]

/-- The lengths of sifted keys depend on the bases only. -/
theorem SamePositions.length_siftKey {my my' other : Detections} (h : SamePositions my my')
    {key key' : List Bool} (hkey : siftKey my other = some key)
    (hkey' : siftKey my' other = some key') : key.length = key'.length := by
  have hloop (l : List ℕ) {answer answer' key key' : List Bool}
      (hanswer : answer.length = answer'.length)
      (hkey : l.foldlM (siftBit my other) answer = some key)
      (hkey' : l.foldlM (siftBit my' other) answer' = some key') : key.length = key'.length := by
    induction l generalizing answer answer' with
    | nil =>
      cases hkey
      cases hkey'
      exact hanswer
    | cons i l ih =>
      rw [List.foldlM_cons, Option.bind_eq_bind, Option.bind_eq_some_iff] at hkey hkey'
      obtain ⟨next, hnext, hrest⟩ := hkey
      obtain ⟨next', hnext', hrest'⟩ := hkey'
      apply ih _ hrest hrest'
      rw [length_siftBit hnext, length_siftBit hnext', hanswer, h.basis]
  exact hloop _ rfl hkey hkey'

section Runs

variable {random : UInt32 → ℕ → ℕ}

/-- Alice receives the same, and sifts as many bits. -/
theorem aliceSift_eq {s : System} {board board' : List UInt32 → Detections}
    {r r' : Detections × List Bool × List UInt8} (h : SamePositions r.1 r'.1)
    (hr : s.aliceSift board = some r) (hr' : s.aliceSift board' = some r') :
    r.2.2 = r'.2.2 ∧ r.2.1.length = r'.2.1.length := by
  unfold System.aliceSift at hr hr'
  simp only [Option.bind_eq_bind, Option.bind_eq_some_iff] at hr hr'
  obtain ⟨⟨bobDetect, rest⟩, hrecv, key, hkey, hr⟩ := hr
  obtain ⟨_, hrecv', key', hkey', hr'⟩ := hr'
  cases Option.some.inj (hrecv.symm.trans hrecv')
  cases hr
  cases hr'
  exact ⟨rfl, h.length_siftKey hkey hkey'⟩

/-! What each step does when it can be taken. -/

theorem next_detects {s t : System} {myDetect : Detections}
    (ht : s.next random (.detects myDetect) = some t) :
    t = s.bobSends (.waits myDetect) s.toBob (sendDetections myDetect) := by
  rw [System.next] at ht
  cases hbob : s.bob with
  | collects =>
    rw [hbob] at ht
    exact (Option.some.inj ht).symm
  | waits _ | thrown =>
    rw [hbob] at ht
    cases ht

theorem next_generates {s t : System} {board : List UInt32 → Detections} {seed : UInt32}
    (ht : s.next random (.generates board seed) = some t) :
    ∃ r, s.aliceSift board = some r ∧ t = s.aliceAnswer random seed r := by
  rw [System.next] at ht
  cases halice : s.alice with
  | receives =>
    rw [halice] at ht
    obtain ⟨r, hr, heq⟩ := Option.map_eq_some_iff.mp ht
    exact ⟨r, hr, heq.symm⟩
  | waits | thrown =>
    rw [halice] at ht
    cases ht

theorem next_checks {s t : System} {seed : UInt32} {behind : Bool}
    (ht : s.next random (.checks seed behind) = some t) :
    ∃ myDetect r, s.bob = .waits myDetect ∧ s.bobSift random myDetect seed = some r ∧
      s.bobAnswer behind r = some t := by
  rw [System.next] at ht
  cases hbob : s.bob with
  | waits myDetect =>
    rw [hbob] at ht
    obtain ⟨r, hr, hanswer⟩ := Option.bind_eq_some_iff.mp ht
    exact ⟨myDetect, r, rfl, hr, hanswer⟩
  | collects | thrown =>
    rw [hbob] at ht
    cases ht

theorem next_corrects {s t : System} (ht : s.next random .corrects = some t) :
    s.aliceCorrects = some t := by
  rw [System.next] at ht
  cases halice : s.alice with
  | waits =>
    rw [halice] at ht
    exact ht
  | receives | thrown =>
    rw [halice] at ht
    cases ht

theorem bobAnswer_cases {s t : System} {behind : Bool}
    {r : (List Bool × List Bool) × List Bool × List UInt8} (ht : s.bobAnswer behind r = some t) :
    ∃ bob message, t = s.bobSends bob r.2.2 message := by
  obtain ⟨wrong, _, hanswer⟩ := Option.bind_eq_some_iff.mp ht
  split_ifs at hanswer
  · exact ⟨_, _, (Option.some.inj hanswer).symm⟩
  · obtain ⟨cbits, _, hsend⟩ := Option.bind_eq_some_iff.mp hanswer
    exact ⟨_, _, (Option.some.inj hsend).symm⟩

theorem aliceCorrects_sentByBob {s t : System} (ht : s.aliceCorrects = some t) :
    t.sentByBob = s.sentByBob := by
  obtain ⟨⟨errcode, rest⟩, _, hrest⟩ := Option.bind_eq_some_iff.mp ht
  dsimp only at hrest
  split_ifs at hrest
  · rw [← Option.some.inj hrest]
  · obtain ⟨_, _, hdone⟩ := Option.bind_eq_some_iff.mp hrest
    rw [← Option.some.inj hdone]

/-- Executions that have sent the same still do after a step with the same bits at Bob. -/
theorem next_eq {s t t' : System} {e : Step} (halike : e.Alike random (s, s)) (hsame : e.SameKeys)
    (ht : s.next random e.first = some t) (ht' : s.next random e.second = some t') : t = t' := by
  cases e with
  | detects myDetect myDetect' =>
    rw [next_detects ht, next_detects ht', SamePositions.eq_of_key halike hsame]
  | generates board board' seed =>
    obtain ⟨r, hr, rfl⟩ := next_generates ht
    obtain ⟨r', hr', rfl⟩ := next_generates ht'
    obtain ⟨hpositions, hsample⟩ := halike r hr r' hr'
    obtain ⟨hrest, hlength⟩ := aliceSift_eq hpositions hr hr'
    rw [System.aliceAnswer, System.aliceAnswer, hpositions.clearKey_eq,
      getQberKey_congr hlength hsample, hrest]
  | checks seed behind behind' =>
    obtain ⟨myDetect, r, hbob, hr, hanswer⟩ := next_checks ht
    obtain ⟨_, _, hbob', hr', hanswer'⟩ := next_checks ht'
    cases hbob.symm.trans hbob'
    cases hr.symm.trans hr'
    have hcode : hammingCode behind r.1.2 = hammingCode behind' r.1.2 := by
      have hboth : s.bobCode random seed behind = s.bobCode random seed behind' := halike
      rw [System.bobCode, System.bobCode, hbob] at hboth
      dsimp only at hboth
      rwa [hr, Option.bind_some, Option.bind_some] at hboth
    have hanswers : s.bobAnswer behind r = s.bobAnswer behind' r := by
      rw [System.bobAnswer, System.bobAnswer, hcode]
    exact Option.some.inj (hanswer.symm.trans (hanswers.trans hanswer'))
  | corrects => exact Option.some.inj ((next_corrects ht).symm.trans (next_corrects ht'))

/-- Every step adds its messages to what Bob has sent. -/
theorem next_sentByBob {s t : System} {e : Event} (ht : s.next random e = some t) :
    ∃ messages, t.sentByBob = s.sentByBob ++ messages ∧ messages.length = e.messages := by
  cases e with
  | detects myDetect =>
    rw [next_detects ht]
    exact ⟨_, rfl, rfl⟩
  | generates board seed =>
    obtain ⟨r, _, rfl⟩ := next_generates ht
    exact ⟨[], (List.append_nil _).symm, rfl⟩
  | checks seed behind =>
    obtain ⟨_, r, _, _, hanswer⟩ := next_checks ht
    obtain ⟨bob, message, rfl⟩ := bobAnswer_cases hanswer
    exact ⟨_, rfl, rfl⟩
  | corrects =>
    rw [aliceCorrects_sentByBob (next_corrects ht)]
    exact ⟨[], (List.append_nil _).symm, rfl⟩

theorem sendBits_inj {v v' : List Bool} (hlength : v.length = v'.length)
    (h : sendBits v = sendBits v') : v = v' := by
  rw [sendBits, sendBits, hlength] at h
  rw [← unpackBits_packBits v, List.append_cancel_left h, hlength, unpackBits_packBits]

/-- Different bits of the keys are different messages. -/
theorem sendDetections_ne {d d' : Detections} (h : SamePositions d d') (hkey : d.key ≠ d'.key) :
    sendDetections d ≠ sendDetections d' := by
  intro heq
  rw [sendDetections, sendDetections, h.basis] at heq
  have hlength : (sendBits d.key).length = (sendBits d'.key).length := by
    rw [sendBits, sendBits, List.length_append, List.length_append, length_packBits,
      length_packBits, h.key]
  exact hkey (sendBits_inj h.key (List.append_inj_left (List.append_cancel_left heq) hlength))

/-- What an execution of both has come to: nothing tells them apart, or Bob's messages do. -/
theorem twoRuns_spec {events : List Step} {s : System × System}
    (hrun : (twoRuns random).Run events s) :
    ((∀ e ∈ events, e.SameKeys) ∧ s.1 = s.2) ∨
      (¬∀ e ∈ events, e.SameKeys) ∧ s.1.sentByBob.length = s.2.sentByBob.length ∧
        s.1.sentByBob ≠ s.2.sentByBob := by
  induction hrun with
  | start hinit =>
    rw [hinit]
    exact .inl ⟨nofun, rfl⟩
  | @snoc events s t e _ hlast ih =>
    obtain ⟨hnext, halike⟩ := hlast
    obtain ⟨t1, ht1, hnext⟩ := Option.bind_eq_some_iff.mp hnext
    obtain ⟨t2, ht2, hnext⟩ := Option.bind_eq_some_iff.mp hnext
    cases hnext
    obtain ⟨messages1, hsent1, hcount1⟩ := next_sentByBob ht1
    obtain ⟨messages2, hsent2, hcount2⟩ := next_sentByBob ht2
    have hcount : messages1.length = messages2.length := by
      rw [hcount1, hcount2]
      cases e <;> rfl
    rw [List.forall_mem_append, List.forall_mem_singleton]
    rcases ih with ⟨hbefore, heq⟩ | ⟨hbefore, hlength, hne⟩
    · obtain ⟨s1, s2⟩ := s
      cases heq
      by_cases hsame : e.SameKeys
      · exact .inl ⟨⟨hbefore, hsame⟩, next_eq halike hsame ht1 ht2⟩
      · refine .inr ⟨fun h ↦ hsame h.2, ?_, fun hsent ↦ ?_⟩
        · rw [hsent1, hsent2, List.length_append, List.length_append, hcount]
        · cases e with
          | detects myDetect myDetect' =>
            rw [next_detects ht1, next_detects ht2] at hsent
            have hmessage := List.append_cancel_left hsent
            exact sendDetections_ne halike hsame (List.singleton_inj.mp hmessage)
          | generates _ _ _ | checks _ _ _ | corrects => exact hsame trivial
    · refine .inr ⟨fun h ↦ hbefore h.1, ?_, fun hsent ↦ ?_⟩
      · rw [hsent1, hsent2, List.length_append, List.length_append, hlength, hcount]
      · rw [hsent1, hsent2] at hsent
        exact hne (List.append_inj_left hsent hlength)

/-- For every pair of executions with the same detections in the same bases and the same times,
whose sifted keys agree at the places of the sample and have the same control bits: all messages
in both directions are the same if and only if Bob's bits are. -/
theorem sent_eq_iff (random : UInt32 → ℕ → ℕ) (events : List Step) (s : System × System)
    (hrun : (twoRuns random).Run events s) :
    s.1.sentByBob = s.2.sentByBob ∧ s.1.sentByAlice = s.2.sentByAlice ↔
      ∀ e ∈ events, e.SameKeys := by
  rcases twoRuns_spec hrun with ⟨hsame, heq⟩ | ⟨hdifferent, _, hne⟩
  · exact iff_of_true ⟨congrArg System.sentByBob heq, congrArg System.sentByAlice heq⟩ hsame
  · exact iff_of_false (fun h ↦ hne h.1) hdifferent

end Runs

/-- One round with two detections, the first of them with equal bases. -/
def sampleRound (bobKey bobKey' aliceKey aliceKey' : Bool) : List Step :=
  [.detects ⟨[true, false], [true, bobKey], [], [5, 9, 0]⟩
      ⟨[true, false], [true, bobKey'], [], [5, 9, 0]⟩,
    .generates (fun count ↦ ⟨[true, true], [true, aliceKey], [], count.take 2⟩)
      (fun count ↦ ⟨[true, true], [true, aliceKey'], [], count.take 2⟩) 7,
    .checks 8 false true]

def sampleRandom (seed : UInt32) (i : ℕ) : ℕ := seed.toNat + i

/-- The executions differ in a bit of Alice that is not sifted. -/
theorem sent_eq_iff_oneRound :
    ∃ s, (twoRuns sampleRandom).Run (sampleRound true true true false) s ∧
      s.1.sentByBob = s.2.sentByBob ∧ s.1.sentByAlice = s.2.sentByAlice := by
  obtain ⟨s, hrun, _⟩ := Machine.exists_run_guard (System.start, System.start)
    (nextTwo sampleRandom) (Step.Alike sampleRandom) (sampleRound true true true false)
    (P := fun s ↦ s.1.bob = .collects) (by decide)
  exact ⟨s, hrun, (sent_eq_iff sampleRandom _ s hrun).mpr (by decide)⟩

/-- The executions differ in a bit of Bob that is not even sifted. -/
theorem not_sent_eq_bobBit :
    ∃ s, (twoRuns sampleRandom).Run (sampleRound true false true true) s ∧
      s.1.sentByBob ≠ s.2.sentByBob :=
  Machine.exists_run_guard _ _ _ _ (by decide)

end QNet.Kks
