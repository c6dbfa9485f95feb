import QNet.Ctap.Cipher
import QNet.Lib.Segments
import QNet.Tunnel.SearchEnds

/-!
# The TCP stream of `ctap`

A record has no mark where it begins: the receiver is in step with the sender as long as every pass
of its loop reads one record. The id of the key is read first. When the keyworker does not know it,
the pass ends with length and payload unread, after a frame was taken from the TAP device. Without
any key the pass ends before the id, and a frame of more than 1920 bytes is padded to more than the
buffer holds. `inStep_iff` says that nothing else gets the receiver out of step.

The keyworker gives the same answer to all the queries of one pass.
-/

namespace QNet.Ctap

open Tunnel

/-! ## Records -/

def Record.bytes (r : Record) : List UInt8 := List.ofFn r.sha ++ (r.plength ++ r.payload)

/-- The records that the sending branch can write. -/
structure SentRecord extends Record where
  nread : ℕ
  nread_le : nread ≤ BUFSIZE
  plength_eq : plength = htons nread
  length_payload : payload.length = diff nread

/-- The record for a frame. -/
def sentRecord (aes : Bytes32 → Equiv.Perm Block) (iv : Block) (curKey1 : Key) (buffer : Mem)
    (packet : List UInt8) (h : packet.length ≤ BUFSIZE) : SentRecord where
  toRecord := tap2net aes iv curKey1 buffer packet
  nread := packet.length
  nread_le := h
  plength_eq := rfl
  length_payload := Mem.length_slice _ _ _

/-! ## The receiving branch -/

structure Receiving where
  keys : Keys
  buffer : Mem
  net : Segments UInt8

/-- One pass, and what the rest of the world does about it: the keys that the sending branch and
the HTTP handler have put into the queues since the last one, the record that the peer sent, what
the keyworker answers, and what the next frame from the TAP device is. -/
structure Turn where
  arrived : List Key
  record : SentRecord
  answer : Option Bytes32
  frame : List UInt8

structure Pass where
  next : Receiving
  written : Option (List UInt8)
  lost : Bool

def Turn.load (t : Turn) (k : Keys) : Keys := t.arrived.foldl Keys.load k

def bytes32 (bytes : List UInt8) : Bytes32 := fun i ↦ bytes.getD i 0

/-- The loop that looks for the key. A search that is not over when `q2` is empty and two answers
were wrong goes on for ever. -/
def search (sha256 : Bytes32 → Bytes32) (answer : Option Bytes32) (sha : Bytes32) (k : Keys) :
    Option (Keys × Bool) :=
  searchKey (Receiver.ctap.construct sha256 sha) (fun _ ↦ answer) sha (k.q2.items.length + 2) 0 k

/-- NET2TAP. `none` when it does not come to an end, when the connection does, or when it writes
behind the buffer. -/
def pass (sha256 : Bytes32 → Bytes32) (aes : Bytes32 → Equiv.Perm Block) (iv : Block) (t : Turn)
    (s : Receiving) : Option Pass :=
  match firstKey (t.load s.keys) with
  | none => some ⟨{ s with keys := t.load s.keys }, none, false⟩
  | some k =>
      (s.net.readExactly 32).bind fun (buf, net) ↦
      (search sha256 t.answer (bytes32 buf) k).bind fun (k, found) ↦
        if found then
          k.curKey2.bind fun cur ↦
          (net.readExactly 2).bind fun (plength, net) ↦
            let n := ntohs plength
            if diff n ≤ BUFSIZE then
              (net.readExactly (diff n)).map fun (payload, net) ↦
                let buffer := aesDecryptCbc (aes cur.key) iv (s.buffer.store 0 payload) (diff n / 8)
                ⟨⟨k, buffer, net⟩, some (net2tap aes iv cur s.buffer plength payload), false⟩
            else none
        else some ⟨⟨k, s.buffer.store 0 t.frame, net⟩, none, true⟩

/-! ## In step -/

section Step

variable (sha256 : Bytes32 → Bytes32) (aes : Bytes32 → Equiv.Perm Block) (iv : Block)

/-- Every pass reads one record, decrypts it with a key of its id and leaves the TAP device
alone. -/
def InStep : Receiving → List Turn → Prop
  | _, [] => True
  | s, t :: rest => ∃ done key, pass sha256 aes iv t s = some done ∧ done.lost = false ∧
      done.next.net.stream = rest.flatMap (·.record.bytes) ∧ key.sha = t.record.sha ∧
      done.written = some (net2tap aes iv key s.buffer t.record.plength t.record.payload) ∧
      InStep done.next rest

/-- The keys the receiver has. -/
def held (k : Keys) : List Key := k.curKey2.toList ++ k.q2.items

/-- The receiver has the key of the record, or it has some key and the keyworker gives it that
one. -/
def Found (t : Turn) (k : Keys) : Prop :=
  (∃ key ∈ held k, key.sha = t.record.sha) ∨
    held k ≠ [] ∧ ∃ buff ∈ t.answer, sha256 buff = t.record.sha

/-- The keys after the search. -/
def keysAfter (t : Turn) (k : Keys) : Keys :=
  ((firstKey k).bind (search sha256 t.answer t.record.sha)).elim k Prod.fst

/-- All the keys are found in their turn, and the frames are not too long. -/
def AllFound : Keys → List Turn → Prop
  | _, [] => True
  | k, t :: rest => Found sha256 t (t.load k) ∧ t.record.nread ≤ 1920 ∧
      AllFound (keysAfter sha256 t (t.load k)) rest

end Step

/-! ## The search -/

section Search

variable {sha256 : Bytes32 → Bytes32} {answer : Option Bytes32} {sha : Bytes32} {k k' : Keys}

theorem limit_searchKey {construct : Bytes32 → Key} {answers : ℕ → Option Bytes32} {rounds n : ℕ}
    {found : Bool} (h : searchKey construct answers sha rounds n k = some (k', found)) :
    k'.q2.limit = k.q2.limit := by
  induction rounds generalizing n k with
  | zero =>
    obtain ⟨cur, _, h⟩ := Option.bind_eq_some_iff.mp h
    split_ifs at h
    cases h
    rfl
  | succ rounds ih =>
    rw [searchKey] at h
    split at h
    · cases h
    · split_ifs at h
      · cases h
        rfl
      · split at h
        · rename_i hq2
          rw [ih h]
          exact (BoundedQueue.dequeue_eq_some_iff.mp hq2).2
        · split at h
          · cases h
            rfl
          · dsimp only at h
            split at h
            · rw [ih h]
              exact BoundedQueue.limit_enqueue _ _
            · rename_i hq2
              rw [ih h]
              exact (BoundedQueue.dequeue_eq_some_iff.mp hq2).2.trans
                (BoundedQueue.limit_enqueue _ _)

/-- The search succeeds if and only if the key is there or the keyworker has it. -/
theorem search_eq_true_iff {cur : Key} (hcur : k.curKey2 = some cur) (hlimit : 0 < k.q2.limit) :
    (∃ k', search sha256 answer sha k = some (k', true)) ↔
      (∃ key ∈ cur :: k.q2.items, key.sha = sha) ∨ ∃ buff ∈ answer, sha256 buff = sha := by
  unfold search
  by_cases hmem : ∃ key ∈ cur :: k.q2.items, key.sha = sha
  · exact iff_of_true (searchKey_of_mem _ _ hcur hmem 2 0) (.inl hmem)
  · obtain ⟨drained, last, hlast, hsha, hempty, hdrained, hall⟩ :=
      searchKey_drain (Receiver.ctap.construct sha256 sha) (fun _ ↦ answer) hcur
        fun key hkey hkeySha ↦ hmem ⟨key, hkey, hkeySha⟩
    rw [hall, or_iff_right hmem]
    rcases searchKey_ask hlast hsha hempty (hdrained ▸ hlimit) 0 with
      ⟨hnone, hstep⟩ | ⟨buff, asked, hbuff, hasked, hrest, hkept, hstep⟩
    · rw [hstep, hnone]
      simp
    · obtain rfl : answer = some buff := hbuff
      rw [hstep]
      by_cases hright : sha256 buff = sha
      · rw [searchKey_of_eq hasked hright]
        exact iff_of_true ⟨asked, rfl⟩ ⟨buff, rfl, hright⟩
      · -- The next answer is the same wrong key.
        have hpos : 0 < asked.q2.limit := by
          rw [hkept, hdrained]
          exact hlimit
        rcases @searchKey_ask (Receiver.ctap.construct sha256 sha) (fun _ ↦ some buff) sha asked _
            hasked hright hrest hpos 1 with
          ⟨hnone, _⟩ | ⟨buff', asked', hbuff', hasked', _, _, hstep'⟩
        · cases hnone
        · obtain rfl := Option.some.inj hbuff'
          rw [hstep', searchKey_zero hasked' hright]
          simp [hright]

/-- The first key does not change what the receiver has. -/
theorem firstKey_held {k first : Keys} (h : firstKey k = some first) :
    ∃ cur, first.curKey2 = some cur ∧ held k = cur :: first.q2.items ∧
      first.q2.limit = k.q2.limit := by
  unfold firstKey at h
  split at h
  · rename_i cur hcur
    cases h
    exact ⟨cur, hcur, by rw [held, hcur]; rfl, rfl⟩
  · rename_i hnone
    obtain ⟨next, hnext, hfirst⟩ := Option.map_eq_some_iff.mp h
    have hq2 := BoundedQueue.dequeue_eq_some_iff.mp hnext
    cases hfirst
    refine ⟨next.1, rfl, ?_, hq2.2⟩
    rw [held, hnone]
    exact hq2.1

theorem firstKey_eq_none_iff {k : Keys} : firstKey k = none ↔ held k = [] := by
  unfold firstKey held
  cases k.curKey2 with
  | some cur => exact iff_of_false nofun nofun
  | none => exact Option.map_eq_none_iff.trans BoundedQueue.dequeue_eq_none_iff

theorem limit_load (t : Turn) (k : Keys) : (t.load k).q2.limit = k.q2.limit := by
  unfold Turn.load
  induction t.arrived generalizing k with
  | nil => rfl
  | cons key rest ih =>
    rw [List.foldl_cons, ih]
    exact BoundedQueue.limit_enqueue _ _

/-- With a first key, whether the search succeeds. -/
theorem found_iff {t : Turn} {first : Keys} (hfirst : firstKey k = some first)
    (hlimit : 0 < k.q2.limit) : Found sha256 t k ↔
      ∃ k', search sha256 t.answer t.record.sha first = some (k', true) := by
  obtain ⟨cur, hcur, hheld, hkept⟩ := firstKey_held hfirst
  rw [search_eq_true_iff hcur (hkept ▸ hlimit), Found, hheld]
  simp

end Search

/-! ## One pass -/

@[simp]
theorem bytes32_ofFn (sha : Bytes32) : bytes32 (List.ofFn sha) = sha := by
  funext i
  rw [bytes32, List.getD_eq_getElem _ _ (by rw [List.length_ofFn]; exact i.isLt),
    List.getElem_ofFn]

theorem ntohs_plength (r : SentRecord) : ntohs r.plength = r.nread := by
  rw [r.plength_eq]
  exact ntohs_htons (Nat.lt_of_le_of_lt r.nread_le (by decide))

section OnePass

variable {sha256 : Bytes32 → Bytes32} {aes : Bytes32 → Equiv.Perm Block} {iv : Block} {t : Turn}
  {s : Receiving} {tail : List UInt8}

/-- The id is the first that is read of a record. -/
theorem readExactly_sha (hstream : s.net.stream = t.record.bytes ++ tail) :
    ∃ net, s.net.readExactly 32 = some (List.ofFn t.record.sha, net) ∧
      net.stream = t.record.plength ++ (t.record.payload ++ tail) := by
  rw [Record.bytes, List.append_assoc, List.append_assoc] at hstream
  exact Segments.readExactly_append hstream List.length_ofFn

variable (aes iv) in
/-- With the key, a pass reads one record. -/
theorem pass_of_found (hstream : s.net.stream = t.record.bytes ++ tail)
    (hlimit : 0 < s.keys.q2.limit) (hfound : Found sha256 t (t.load s.keys))
    (hfits : t.record.nread ≤ 1920) :
    ∃ done key, pass sha256 aes iv t s = some done ∧ done.lost = false ∧
      done.next.net.stream = tail ∧ key.sha = t.record.sha ∧
      done.written = some (net2tap aes iv key s.buffer t.record.plength t.record.payload) ∧
      done.next.keys = keysAfter sha256 t (t.load s.keys) ∧ 0 < done.next.keys.q2.limit := by
  have hload : 0 < (t.load s.keys).q2.limit := by rwa [limit_load]
  obtain ⟨first, hfirst⟩ : ∃ first, firstKey (t.load s.keys) = some first := by
    rw [← Option.ne_none_iff_exists', Ne, firstKey_eq_none_iff]
    rcases hfound with ⟨key, hkey, _⟩ | ⟨hheld, _⟩
    · exact List.ne_nil_of_mem hkey
    · exact hheld
  obtain ⟨k', hk'⟩ := (found_iff hfirst hload).mp hfound
  obtain ⟨cur, hcur, hsha⟩ := searchKey_found hk'
  obtain ⟨net, hnet, hrest⟩ := readExactly_sha hstream
  obtain ⟨net', hnet', hrest'⟩ := Segments.readExactly_append hrest (n := 2)
    (by rw [t.record.plength_eq]; rfl)
  obtain ⟨net'', hnet'', htail⟩ := Segments.readExactly_append hrest' t.record.length_payload
  have hafter : keysAfter sha256 t (t.load s.keys) = k' := by
    rw [keysAfter, hfirst, Option.bind_some, hk', Option.elim_some]
  have hpos : 0 < k'.q2.limit := by
    obtain ⟨_, _, _, hfirstLimit⟩ := firstKey_held hfirst
    rwa [limit_searchKey hk', hfirstLimit]
  have hpass : pass sha256 aes iv t s = some ⟨⟨k', aesDecryptCbc (aes cur.key) iv
      (s.buffer.store 0 t.record.payload) (diff t.record.nread / 8), net''⟩,
      some (net2tap aes iv cur s.buffer t.record.plength t.record.payload), false⟩ := by
    simp only [pass, hfirst, hnet, Option.bind_some, bytes32_ofFn, hk', if_true,
      Option.mem_def.mp hcur, hnet', ntohs_plength,
      if_pos ((diff_le_bufsize_iff _).mpr hfits), hnet'', Option.map_some]
  exact ⟨_, cur, hpass, rfl, htail, hsha, rfl, hafter.symm, hpos⟩

/-- A pass that reads one record and no frame had the key. -/
theorem found_of_pass (hstream : s.net.stream = t.record.bytes ++ tail)
    (hlimit : 0 < s.keys.q2.limit) {done : Pass} (hdone : pass sha256 aes iv t s = some done)
    (hlost : done.lost = false) (htail : done.next.net.stream = tail) :
    Found sha256 t (t.load s.keys) ∧ t.record.nread ≤ 1920 := by
  have hload : 0 < (t.load s.keys).q2.limit := by rwa [limit_load]
  obtain ⟨net, hnet, hrest⟩ := readExactly_sha hstream
  unfold pass at hdone
  split at hdone
  · -- The record is still there.
    obtain rfl := Option.some.inj hdone
    have hlength := congrArg List.length (hstream.symm.trans htail)
    rw [Record.bytes, List.length_append, List.length_append, List.length_ofFn] at hlength
    omega
  · rename_i first hfirst
    rw [hnet, Option.bind_some] at hdone
    obtain ⟨⟨k', found⟩, hk', hdone⟩ := Option.bind_eq_some_iff.mp hdone
    rw [bytes32_ofFn] at hk'
    cases found with
    | false =>
      obtain rfl := Option.some.inj hdone
      cases hlost
    | true =>
      refine ⟨(found_iff hfirst hload).mpr ⟨k', hk'⟩, ?_⟩
      obtain ⟨cur, _, hdone⟩ := Option.bind_eq_some_iff.mp hdone
      obtain ⟨net', hnet', _⟩ := Segments.readExactly_append hrest (n := 2)
        (by rw [t.record.plength_eq]; rfl)
      simp only [hnet', Option.bind_some, ntohs_plength] at hdone
      split_ifs at hdone with hfits
      exact (diff_le_bufsize_iff _).mp hfits

end OnePass

/-! ## The stream -/

/-- The stream that has come in one segment a record. -/
def segmentEach (turns : List Turn) : Segments UInt8 :=
  ⟨turns.map (·.record.bytes), by
    intro piece hpiece
    obtain ⟨t, _, rfl⟩ := List.mem_map.mp hpiece
    refine List.append_ne_nil_of_left_ne_nil ?_ _
    exact List.ne_nil_of_length_eq_add_one (n := 31) List.length_ofFn⟩

/-- However the stream is cut, and whatever arrives meanwhile: the receiver stays in step with the
records if and only if every key is found in its turn and the frames have at most 1920 bytes. -/
theorem inStep_iff (sha256 : Bytes32 → Bytes32) (aes : Bytes32 → Equiv.Perm Block)
    (iv : Block) {s : Receiving} {turns : List Turn} (hlimit : 0 < s.keys.q2.limit)
    (hstream : s.net.stream = turns.flatMap (·.record.bytes)) :
    InStep sha256 aes iv s turns ↔ AllFound sha256 s.keys turns := by
  induction turns generalizing s with
  | nil => exact Iff.rfl
  | cons t rest ih =>
    rw [List.flatMap_cons] at hstream
    constructor
    · rintro ⟨done, key, hdone, hlost, htail, _, _, hrest⟩
      obtain ⟨hfound, hfits⟩ := found_of_pass hstream hlimit hdone hlost htail
      obtain ⟨done', _, hdone', _, _, _, _, hkeys, hpos⟩ :=
        pass_of_found aes iv hstream hlimit hfound hfits
      obtain rfl := Option.some.inj (hdone.symm.trans hdone')
      exact ⟨hfound, hfits, hkeys ▸ (ih hpos htail).mp hrest⟩
    · rintro ⟨hfound, hfits, hrest⟩
      obtain ⟨done, key, hdone, hlost, htail, hsha, hwritten, hkeys, hpos⟩ :=
        pass_of_found aes iv hstream hlimit hfound hfits
      exact ⟨done, key, hdone, hlost, htail, hsha, hwritten, (ih hpos htail).mpr (hkeys ▸ hrest)⟩

/-! ## Two records -/

/-- A record for a frame of one byte, with the same character everywhere in its id. -/
def sampleTurn (c : UInt8) : Turn where
  arrived := []
  record := ⟨⟨fun _ ↦ c, htons 1, List.replicate 128 0⟩, 1, by decide, rfl, rfl⟩
  answer := none
  frame := [7]

/-- A receiver with the key of id zero. -/
def sampleReceiving (turns : List Turn) : Receiving where
  keys := { Keys.init with q2 := .empty 100, curKey2 := some ⟨fun _ ↦ 0, fun _ ↦ 0, 0⟩ }
  buffer := fun _ ↦ 0
  net := segmentEach turns

/-- Two records with the current key. -/
theorem inStep_iff_current :
    InStep id (fun _ ↦ Equiv.refl Block) (fun _ ↦ 0)
      (sampleReceiving [sampleTurn 0, sampleTurn 0]) [sampleTurn 0, sampleTurn 0] := by
  have hfound : Found id (sampleTurn 0) (sampleReceiving []).keys :=
    .inl ⟨⟨fun _ ↦ 0, fun _ ↦ 0, 0⟩, List.mem_singleton_self _, rfl⟩
  exact (inStep_iff id (fun _ ↦ Equiv.refl Block) (fun _ ↦ 0) (by decide) rfl).mpr
    ⟨hfound, by decide, hfound, by decide, trivial⟩

/-- A record with an id that the keyworker does not know, and one with the current key. -/
theorem not_inStep_unknown : ¬ ∃ (sha256 : Bytes32 → Bytes32)
    (aes : Bytes32 → Equiv.Perm Block) (iv : Block),
    InStep sha256 aes iv (sampleReceiving [sampleTurn 1, sampleTurn 0])
      [sampleTurn 1, sampleTurn 0] := by
  rintro ⟨sha256, aes, iv, done, key, hdone, hlost, htail, _⟩
  obtain ⟨⟨key, hkey, hsha⟩ | ⟨_, buff, hbuff, _⟩, _⟩ :=
    found_of_pass rfl (by decide) hdone hlost htail
  · obtain rfl := List.mem_singleton.mp hkey
    exact absurd (congrFun hsha 0) (by decide)
  · cases hbuff

end QNet.Ctap
