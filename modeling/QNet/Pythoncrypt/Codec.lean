import Mathlib.Data.List.Nodup
import Mathlib.Logic.Function.Basic
import QNet.Lib.ByteStream
import QNet.Lib.Machine

/-!
# The stream codec of pythoncrypt

A packet is the number of a key, a position in it, a length, and so many bytes of data combined
with the key from the position on. `encode` cuts data into packets of at most `block_size` bytes
and goes to the next key when the current one does not hold the packet; `decode` takes the key
from the header of each packet. What is left of an incomplete packet at the end of the received
data is kept in a buffer and put before the next data.

However the plaintext is cut into calls of `encode` and the packets into received pieces, the
plaintext comes out: `relay_encode`.
-/

namespace QNet.Pythoncrypt

open ByteStream

/-- A `Key` without `curpos`. Its number is taken from its first bytes, and positions in it have
to fit in a header. -/
structure Key where
  key : List UInt8
  length_ge : 8 ≤ key.length
  length_lt : key.length < 2 ^ 32

def Key.num (key : Key) : List UInt8 := key.key.take 8

def Key.size (key : Key) : ℕ := key.key.length

/-- The bytes of a key from a position on. -/
def Key.from (key : Key) (curpos : ℕ) : ℕ → UInt8 := fun i ↦ key.key.getD (curpos + i) 0

variable {keys : List Key}

/-- The variables of a `KeyManager` which has keys. -/
structure KeyManager (keys : List Key) where
  curKey : Fin keys.length
  curpos : Fin keys.length → ℕ

structure Packet (keys : List Key) where
  key : Fin keys.length
  curpos : ℕ
  out : List UInt8

/-! ## Encoding -/

namespace KeyManager

def nextKey (m : KeyManager keys) : KeyManager keys :=
  let cur : Fin keys.length := if h : m.curKey.val + 1 < keys.length then ⟨m.curKey + 1, h⟩
    else ⟨0, Nat.zero_lt_of_lt m.curKey.isLt⟩
  ⟨cur, Function.update (Function.update m.curpos m.curKey 0) cur 0⟩

/-- The current key does not hold `count` more bytes. -/
def Full (m : KeyManager keys) (count : ℕ) : Prop :=
  count + m.curpos m.curKey > (keys.get m.curKey).size

instance decidableFull (m : KeyManager keys) (count : ℕ) : Decidable (m.Full count) :=
  inferInstanceAs (Decidable (_ > _))

/-- A key that does not hold the next packet is left. -/
def seek (m : KeyManager keys) (count : ℕ) : KeyManager keys :=
  if m.Full count then m.nextKey else m

/-- One round of the loop of `encode`. -/
def encodePacket (blockSize : ℕ) (m : KeyManager keys) (data : List UInt8) :
    KeyManager keys × Packet keys :=
  let wanted := if data.length > blockSize then blockSize else data.length
  let m := m.seek wanted
  let key := keys.get m.curKey
  let count := if wanted > key.size then key.size else wanted
  let curpos := m.curpos m.curKey
  ({ m with curpos := Function.update m.curpos m.curKey (curpos + count) },
    ⟨m.curKey, curpos, xorPad (key.from curpos) (data.take count)⟩)

/-- The loop of `encode`; `fuel` bounds its rounds. -/
def encodeFuel (blockSize : ℕ) : ℕ → KeyManager keys → List UInt8 →
    KeyManager keys × List (Packet keys)
  | 0, m, _ => (m, [])
  | fuel + 1, m, data =>
      if data.isEmpty then (m, [])
      else
        let (m, packet) := m.encodePacket blockSize data
        let (m, packets) := encodeFuel blockSize fuel m (data.drop packet.out.length)
        (m, packet :: packets)

/-- The packets of a call of `encode`. -/
def encode (blockSize : ℕ) (m : KeyManager keys) (data : List UInt8) :
    KeyManager keys × List (Packet keys) :=
  encodeFuel blockSize data.length m data

end KeyManager

namespace Packet

def header (p : Packet keys) : List UInt8 :=
  (keys.get p.key).num ++ (leBytes 4 p.curpos ++ leBytes 4 p.out.length)

def bytes (p : Packet keys) : List UInt8 := p.header ++ p.out

def data (p : Packet keys) : List UInt8 := xorPad ((keys.get p.key).from p.curpos) p.out

/-- A packet as `encode` makes it. -/
structure Valid (p : Packet keys) : Prop where
  pos : 0 < p.out.length
  fits : p.curpos + p.out.length ≤ (keys.get p.key).size

end Packet

/-! ## Decoding -/

def getKeyByNum (keys : List Key) (num : List UInt8) : Option Key :=
  keys.find? fun key ↦ key.num = num

/-- The loop of `decode`: the decoded bytes and what is left of the data, nothing if the key is
unknown. `none` is an IndexError, when the position lies behind the key. -/
def decodeFuel (keys : List Key) : ℕ → List UInt8 → Option (List UInt8 × List UInt8)
  | 0, data => some ([], data)
  | fuel + 1, data =>
      if data.length ≤ 16 then some ([], data)
      else
        let curpos := ofLe ((data.drop 8).take 4)
        let count := ofLe ((data.drop 12).take 4)
        match getKeyByNum keys (data.take 8) with
        | none => some ([], [])
        | some key =>
            if count > data.length - 16 then some ([], data)
            else if count = 0 ∨ curpos + count ≤ key.size then
              (decodeFuel keys fuel (data.drop (count + 16))).map fun (result, rest) ↦
                (xorPad (key.from curpos) ((data.drop 16).take count) ++ result, rest)
            else none

def decode (keys : List Key) (data : List UInt8) : Option (List UInt8 × List UInt8) :=
  decodeFuel keys data.length data

/-- The decoding half of `relay_data`: received data behind the buffer are decoded, what is left
is the new buffer. -/
def relayData (keys : List Key) (buffers : List UInt8 × List UInt8) (received : List UInt8) :
    Option (List UInt8 × List UInt8) :=
  (decode keys (buffers.1 ++ received)).map fun (result, rest) ↦ (rest, buffers.2 ++ result)

/-- What is left in the buffer and what was sent to the target after all received data. -/
def relay (keys : List Key) (received : List (List UInt8)) : Option (List UInt8 × List UInt8) :=
  received.foldlM (relayData keys) ([], [])

/-! ## What is encoded -/

namespace KeyManager

theorem nextKey_curpos (m : KeyManager keys) : m.nextKey.curpos m.nextKey.curKey = 0 :=
  Function.update_self _ _ _

/-- A packet takes a beginning of the data and lies in its key. -/
theorem encodePacket_spec {blockSize : ℕ} (hblock : 0 < blockSize) (m : KeyManager keys)
    {data : List UInt8} (hdata : data ≠ []) :
    (m.encodePacket blockSize data).2.Valid ∧
      (m.encodePacket blockSize data).2.data =
        data.take (m.encodePacket blockSize data).2.out.length := by
  have hpos := List.length_pos_iff.mpr hdata
  generalize hwanted : (if data.length > blockSize then blockSize else data.length) = wanted
  generalize hcur : m.seek wanted = cur
  generalize hcount : (if wanted > (keys.get cur.curKey).size then (keys.get cur.curKey).size
    else wanted) = count
  have hroom : cur.curpos cur.curKey = 0 ∨
      wanted + cur.curpos cur.curKey ≤ (keys.get cur.curKey).size := by
    rw [← hcur, seek]
    split_ifs with hfull
    · exact .inl m.nextKey_curpos
    · exact .inr (Nat.le_of_not_lt hfull)
  have hkey : 8 ≤ (keys.get cur.curKey).size := (keys.get cur.curKey).length_ge
  have hrange : 0 < wanted ∧ wanted ≤ data.length := by
    rw [← hwanted]
    split_ifs <;> omega
  have hcountRange : 0 < count ∧ count ≤ wanted ∧ count ≤ (keys.get cur.curKey).size := by
    rw [← hcount]
    split_ifs <;> omega
  have hpacket : (m.encodePacket blockSize data).2 =
      ⟨cur.curKey, cur.curpos cur.curKey,
        xorPad ((keys.get cur.curKey).from (cur.curpos cur.curKey)) (data.take count)⟩ := by
    unfold encodePacket
    simp only [hwanted, hcur, hcount]
  have hlength : (data.take count).length = count := by
    rw [List.length_take]
    omega
  rw [hpacket]
  refine ⟨⟨?_, ?_⟩, ?_⟩
  · rw [length_xorPad, hlength]
    exact hcountRange.1
  · dsimp only
    rw [length_xorPad, hlength]
    omega
  · rw [Packet.data, xorPad_xorPad, length_xorPad, hlength]

/-- The packets of a call of `encode` hold its data. -/
theorem encode_spec {blockSize : ℕ} (hblock : 0 < blockSize) (m : KeyManager keys)
    (data : List UInt8) :
    (∀ p ∈ (m.encode blockSize data).2, p.Valid) ∧
      (m.encode blockSize data).2.flatMap Packet.data = data := by
  have hfuel (fuel : ℕ) (m : KeyManager keys) (data : List UInt8) (hle : data.length ≤ fuel) :
      (∀ p ∈ (m.encodeFuel blockSize fuel data).2, p.Valid) ∧
        (m.encodeFuel blockSize fuel data).2.flatMap Packet.data = data := by
    induction fuel generalizing m data with
    | zero =>
      rw [List.length_eq_zero_iff.mp (Nat.le_zero.mp hle)]
      exact ⟨nofun, rfl⟩
    | succ fuel ih =>
      rw [encodeFuel]
      split_ifs with hempty
      · rw [List.isEmpty_iff.mp hempty]
        exact ⟨nofun, rfl⟩
      · have hdata : data ≠ [] := mt List.isEmpty_iff.mpr hempty
        obtain ⟨hvalid, hpacket⟩ := m.encodePacket_spec hblock hdata
        have hrest : (data.drop (m.encodePacket blockSize data).2.out.length).length ≤ fuel := by
          have hpos := hvalid.pos
          rw [List.length_drop]
          omega
        obtain ⟨hrestValid, hrestData⟩ := ih (m.encodePacket blockSize data).1 _ hrest
        constructor
        · exact List.forall_mem_cons.mpr ⟨hvalid, hrestValid⟩
        · dsimp only
          rw [List.flatMap_cons, hpacket, hrestData, List.take_append_drop]
  exact hfuel data.length m data le_rfl

/-- The packets of any number of calls hold the whole plaintext. -/
theorem feed_encode_spec {blockSize : ℕ} (hblock : 0 < blockSize) (m : KeyManager keys)
    (chunks : List (List UInt8)) :
    (∀ p ∈ (feed (encode blockSize) m chunks).2.flatten, p.Valid) ∧
      (feed (encode blockSize) m chunks).2.flatten.flatMap Packet.data = chunks.flatten := by
  induction chunks generalizing m with
  | nil => exact ⟨nofun, rfl⟩
  | cons data rest ih =>
    obtain ⟨hvalid, hdata⟩ := m.encode_spec hblock data
    obtain ⟨hrestValid, hrestData⟩ := ih (m.encode blockSize data).1
    rw [feed_cons, List.flatten_cons, List.flatten_cons, List.flatMap_append, hdata, hrestData]
    exact ⟨fun p hp ↦ (List.mem_append.mp hp).elim (hvalid p) (hrestValid p), rfl⟩

end KeyManager

/-! ## What is decoded -/

/-- The numbers of the keys are different. -/
def Distinct (keys : List Key) : Prop := (keys.map Key.num).Nodup

instance decidableDistinct (keys : List Key) : Decidable (Distinct keys) :=
  inferInstanceAs (Decidable (List.Nodup _))

theorem getKeyByNum_num (hkeys : Distinct keys) (i : Fin keys.length) :
    getKeyByNum keys (keys.get i).num = some (keys.get i) := by
  have hmem := List.get_mem keys i
  unfold getKeyByNum
  cases hfind : keys.find? fun key ↦ decide (key.num = (keys.get i).num) with
  | none => exact absurd (decide_eq_true rfl) (List.find?_eq_none.mp hfind _ hmem)
  | some key =>
    have hsame := List.find?_some hfind
    have hnum : key.num = (keys.get i).num := of_decide_eq_true hsame
    rw [List.inj_on_of_nodup_map hkeys (List.mem_of_find?_eq_some hfind) hmem hnum]

namespace Packet

theorem length_num (key : Key) : key.num.length = 8 := by
  rw [Key.num, List.length_take]
  exact Nat.min_eq_left key.length_ge

theorem length_header (p : Packet keys) : p.header.length = 16 := by
  rw [header, List.length_append, List.length_append, length_num, length_leBytes, length_leBytes]

theorem length_bytes (p : Packet keys) : p.bytes.length = 16 + p.out.length := by
  rw [bytes, List.length_append, length_header]

/-- The fields of the header, read from data that begin with it. -/
theorem header_fields (p : Packet keys) (rest : List UInt8) :
    (p.header ++ rest).take 8 = (keys.get p.key).num ∧
      ((p.header ++ rest).drop 8).take 4 = leBytes 4 p.curpos ∧
      ((p.header ++ rest).drop 12).take 4 = leBytes 4 p.out.length ∧
      (p.header ++ rest).drop 16 = rest := by
  have hnum := length_num (keys.get p.key)
  have hcurpos := length_leBytes 4 p.curpos
  have hlength := length_leBytes 4 p.out.length
  have hnumCurpos : ((keys.get p.key).num ++ leBytes 4 p.curpos).length = 12 := by
    rw [List.length_append, hnum, hcurpos]
  refine ⟨?_, ?_, ?_, List.drop_left' p.length_header⟩
  · rw [header, List.append_assoc, List.take_left' hnum]
  · rw [header, List.append_assoc, List.drop_left' hnum, List.append_assoc,
      List.take_left' hcurpos]
  · rw [header, ← List.append_assoc, List.append_assoc, List.drop_left' hnumCurpos,
      List.take_left' hlength]

/-- The fields of a packet of `encode` fit in their four bytes. -/
theorem Valid.fields_lt {p : Packet keys} (h : p.Valid) :
    p.curpos < 256 ^ 4 ∧ p.out.length < 256 ^ 4 := by
  have hfits : p.curpos + p.out.length ≤ (keys.get p.key).key.length := h.fits
  have hlt := (keys.get p.key).length_lt
  omega

end Packet

/-- A whole packet at the start of the data is decoded. -/
theorem decodeFuel_packet (hkeys : Distinct keys) {p : Packet keys} (hp : p.Valid) (fuel : ℕ)
    (rest : List UInt8) :
    decodeFuel keys (fuel + 1) (p.bytes ++ rest) =
      (decodeFuel keys fuel rest).map fun (result, left) ↦ (p.data ++ result, left) := by
  obtain ⟨hnum, hcurpos, hlength, hout⟩ := p.header_fields (p.out ++ rest)
  have hbytes : p.bytes ++ rest = p.header ++ (p.out ++ rest) := List.append_assoc _ _ _
  have htotal : (p.header ++ (p.out ++ rest)).length = 16 + p.out.length + rest.length := by
    rw [← hbytes, List.length_append, p.length_bytes]
  have hdrop : (p.header ++ (p.out ++ rest)).drop (p.out.length + 16) = rest := by
    rw [← hbytes]
    exact List.drop_left' (by rw [p.length_bytes, Nat.add_comm])
  have hpos := hp.pos
  rw [hbytes, decodeFuel, if_neg (by omega)]
  simp only [hnum, hcurpos, hlength, hout, ofLe_leBytes hp.fields_lt.1, ofLe_leBytes hp.fields_lt.2,
    getKeyByNum_num hkeys, hdrop]
  rw [if_neg (by omega), if_pos (.inr hp.fits), List.take_left]
  rfl

/-- A packet which has not been received whole is left. -/
theorem decodeFuel_part (hkeys : Distinct keys) {p : Packet keys} (hp : p.Valid) (fuel : ℕ)
    {data rest more : List UInt8} (hbytes : data ++ rest = p.bytes ++ more)
    (hshort : data.length < p.bytes.length) : decodeFuel keys fuel data = some ([], data) := by
  cases fuel with
  | zero => rfl
  | succ fuel =>
    rw [decodeFuel]
    split_ifs with hheader
    · rfl
    · -- The header is complete, the data are not.
      rw [p.length_bytes] at hshort
      obtain ⟨part, rfl⟩ : ∃ part, data = p.header ++ part := by
        have hprefix : p.header <+: data := by
          apply List.prefix_of_prefix_length_le _ (List.prefix_append data rest)
          · rw [p.length_header]
            omega
          · rw [hbytes, Packet.bytes, List.append_assoc]
            exact List.prefix_append _ _
        obtain ⟨part, hpart⟩ := hprefix
        exact ⟨part, hpart.symm⟩
      obtain ⟨hnum, hcurpos, hlength, hout⟩ := p.header_fields part
      simp only [hnum, hlength, ofLe_leBytes hp.fields_lt.2, getKeyByNum_num hkeys]
      rw [if_pos (by omega)]

/-- Of the first bytes of some packets the whole ones are decoded, and a beginning of the next one
is left. -/
theorem decodeFuel_spec (hkeys : Distinct keys) {fuel : ℕ} {packets : List (Packet keys)}
    {data rest : List UInt8} (hvalid : ∀ p ∈ packets, p.Valid) (hfuel : data.length ≤ fuel)
    (hbytes : data ++ rest = packets.flatMap Packet.bytes) :
    ∃ whole pending left, packets = whole ++ pending ∧
      decodeFuel keys fuel data = some (whole.flatMap Packet.data, left) ∧
      left ++ rest = pending.flatMap Packet.bytes ∧
      ∀ p ∈ pending.head?, left.length < p.bytes.length := by
  induction packets generalizing fuel data with
  | nil =>
    obtain ⟨rfl, rfl⟩ := List.append_eq_nil_iff.mp hbytes
    refine ⟨[], [], [], rfl, ?_, rfl, nofun⟩
    cases fuel <;> rfl
  | cons p packets ih =>
    have hp := hvalid p List.mem_cons_self
    rw [List.flatMap_cons] at hbytes
    rcases Nat.lt_or_ge data.length p.bytes.length with hshort | hlong
    · refine ⟨[], p :: packets, data, rfl, decodeFuel_part hkeys hp fuel hbytes hshort, hbytes, ?_⟩
      intro q hq
      cases hq
      exact hshort
    · obtain ⟨more, rfl⟩ : ∃ more, data = p.bytes ++ more := by
        have hprefix : p.bytes <+: data :=
          List.prefix_of_prefix_length_le (hbytes ▸ List.prefix_append _ _)
            (List.prefix_append data rest) hlong
        obtain ⟨more, hmore⟩ := hprefix
        exact ⟨more, hmore.symm⟩
      rw [List.append_assoc] at hbytes
      rw [List.length_append, p.length_bytes] at hfuel
      obtain ⟨fuel, rfl⟩ : ∃ n, fuel = n + 1 := ⟨fuel - 1, by omega⟩
      have hmore : more.length ≤ fuel := by omega
      obtain ⟨whole, pending, left, rfl, hdecode, hleft, hpending⟩ :=
        ih (fun q hq ↦ hvalid q (List.mem_cons_of_mem _ hq)) hmore
          (List.append_cancel_left hbytes)
      refine ⟨p :: whole, pending, left, rfl, ?_, hleft, hpending⟩
      rw [decodeFuel_packet hkeys hp, hdecode, List.flatMap_cons]
      rfl

/-! ## Through the relay -/

/-- The buffer is the beginning of a packet that is still to come. -/
theorem relay_spec (hkeys : Distinct keys) {received : List (List UInt8)}
    {packets : List (Packet keys)} {buffer sent : List UInt8} (hvalid : ∀ p ∈ packets, p.Valid)
    (hbytes : buffer ++ received.flatten = packets.flatMap Packet.bytes)
    (hbuffer : ∀ p ∈ packets.head?, buffer.length < p.bytes.length) :
    received.foldlM (relayData keys) (buffer, sent) =
      some ([], sent ++ packets.flatMap Packet.data) := by
  induction received generalizing packets buffer sent with
  | nil =>
    rw [List.flatten_nil, List.append_nil] at hbytes
    cases packets with
    | nil =>
      rw [hbytes]
      simp
    | cons p packets =>
      have hlt := hbuffer p rfl
      rw [hbytes, List.flatMap_cons, List.length_append] at hlt
      omega
  | cons data received ih =>
    rw [List.flatten_cons, ← List.append_assoc] at hbytes
    obtain ⟨whole, pending, left, rfl, hdecode, hleft, hpending⟩ :=
      decodeFuel_spec hkeys hvalid le_rfl hbytes
    have hstep : relayData keys (buffer, sent) data =
        some (left, sent ++ whole.flatMap Packet.data) := by
      rw [relayData, decode, hdecode]
      rfl
    rw [List.foldlM_cons, hstep, Option.bind_eq_bind, Option.bind_some,
      ih (fun p hp ↦ hvalid p (List.mem_append_right _ hp)) hleft hpending, List.flatMap_append,
      List.append_assoc]

/-- For every ring of keys with different numbers, every state of the encoding side, every
sequence of calls of `encode` and every way in which their bytes are received: exactly the
plaintext is sent on, and nothing is left. -/
theorem relay_encode (keys : List Key) (hkeys : Distinct keys) (blockSize : ℕ)
    (hblock : 0 < blockSize) (m : KeyManager keys) (chunks received : List (List UInt8))
    (hreceived : received.flatten =
      (feed (KeyManager.encode blockSize) m chunks).2.flatten.flatMap Packet.bytes) :
    relay keys received = some ([], chunks.flatten) := by
  obtain ⟨hvalid, hdata⟩ := KeyManager.feed_encode_spec hblock m chunks
  have hempty (p : Packet keys) : ([] : List UInt8).length < p.bytes.length := by
    rw [p.length_bytes, List.length_nil]
    omega
  rw [relay, relay_spec hkeys hvalid hreceived fun p _ ↦ hempty p, hdata, List.nil_append]

/-- Two keys of eight bytes. -/
def sampleKeys : List Key :=
  [⟨[1, 1, 1, 1, 1, 1, 1, 1], by decide, by decide⟩,
    ⟨[2, 2, 2, 2, 2, 2, 2, 2], by decide, by decide⟩]

/-- Twelve bytes in two calls, received in pieces of 20 bytes: the second packet goes to the next
key and arrives in two parts. -/
theorem relay_encode_twoCalls :
    relay sampleKeys (cut 20 ((feed (KeyManager.encode 6) (⟨⟨0, by decide⟩, fun _ ↦ 0⟩ :
      KeyManager sampleKeys) [[10, 11, 12, 13, 14, 15], [16, 17, 18, 19, 20, 21]]).2.flatten.flatMap
        Packet.bytes)) =
      some ([], [10, 11, 12, 13, 14, 15, 16, 17, 18, 19, 20, 21]) :=
  relay_encode sampleKeys (by decide) 6 (by decide) _ _ _ (flatten_cut (by decide) _)

end QNet.Pythoncrypt
