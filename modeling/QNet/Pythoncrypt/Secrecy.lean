import QNet.Pythoncrypt.Codec
import QNet.Qcrypt.Secrecy

/-!
# What a ring of posted keys hides

`read_keys` cuts a text into keys of `block_size` bytes. The number of a key is its first eight
bytes, which are sent in front of every packet and used as pad as well, since `curpos` starts at
zero. Keys are made by `bytearray(data, 'ascii')`, so their bytes have no eighth bit, and the
eighth bit of the plaintext goes out as it is.

`secret_iff` says what other plaintexts are possible, and `QNet.secrecy_iff` joins this with the
same result about qcrypt.
-/

namespace QNet.Pythoncrypt

open ByteStream Pad

def IsAscii (data : List UInt8) : Prop := ∀ byte ∈ data, byte &&& 128 = 0

instance decidableIsAscii (data : List UInt8) : Decidable (IsAscii data) :=
  List.decidableBAll _ data

/-- `Key(data)`; an error with other characters than ASCII. A key that is too short or too long
for a header cannot be used. -/
def Key.ofAscii (data : List UInt8) : Option Key :=
  if h : 8 ≤ data.length ∧ data.length < 2 ^ 32 ∧ IsAscii data then
    some ⟨data, h.1, h.2.1⟩
  else none

/-- The loop of `read_keys`, which ends at the first key that cannot be made. -/
def readKeysFuel (blockSize : ℕ) : ℕ → List UInt8 → List Key
  | 0, _ => []
  | fuel + 1, array =>
      if array.length > blockSize then
        match Key.ofAscii (array.take blockSize) with
        | none => []
        | some key => key :: readKeysFuel blockSize fuel (array.drop blockSize)
      else []

def readKeys (blockSize : ℕ) (array : List UInt8) : List Key :=
  readKeysFuel blockSize array.length array

/-- The packets a process with new keys sends for chunks of plaintext. -/
def packets (blockSize : ℕ) (keys : List Key) (chunks : List (List UInt8)) : List (Packet keys) :=
  if h : 0 < keys.length then
    (feed (KeyManager.encode blockSize) ⟨⟨0, h⟩, fun _ ↦ 0⟩ chunks).2.flatten
  else []

def stream (blockSize : ℕ) (keys : List Key) (chunks : List (List UInt8)) : List UInt8 :=
  (packets blockSize keys chunks).flatMap Packet.bytes

/-- Where the packets stand in keys of the given sizes. -/
def places (blockSize : ℕ) (sizes : List ℕ) (chunks : List (List UInt8)) : List Place :=
  layout (fun size stop ↦ size < stop) sizes 0 0 ((chunks.flatMap (cut blockSize)).map List.length)

/-- Some ring of the same key sizes gives the stream of `m1` for `m2`. -/
def Secret (blockSize : ℕ) (array : List UInt8) (m1 m2 : List (List UInt8)) : Prop :=
  ∃ array', (readKeys blockSize array').map Key.size = (readKeys blockSize array).map Key.size ∧
    stream blockSize (readKeys blockSize array') m2 = stream blockSize (readKeys blockSize array) m1

/-! ## Where packets stand -/

def Packet.place {keys : List Key} (p : Packet keys) : Place := ⟨p.key, p.curpos, p.out.length⟩

section Place

variable {keys : List Key} {blockSize : ℕ}

theorem encodePacket_take (m : KeyManager keys) (data : List UInt8) :
    m.encodePacket blockSize (data.take blockSize) = m.encodePacket blockSize data := by
  have hwanted : (if (data.take blockSize).length > blockSize then blockSize
      else (data.take blockSize).length) =
        if data.length > blockSize then blockSize else data.length := by
    rw [List.length_take]
    split_ifs <;> omega
  have hle : (if data.length > blockSize then blockSize else data.length) ≤ blockSize := by
    split_ifs <;> omega
  unfold KeyManager.encodePacket
  rw [hwanted]
  dsimp only
  rw [List.take_take, Nat.min_eq_left]
  split_ifs <;> omega

theorem nextKey_curKey (m : KeyManager keys) :
    m.nextKey.curKey.val = (m.curKey.val + 1) % keys.length := by
  have hlt := m.curKey.isLt
  unfold KeyManager.nextKey
  dsimp only
  split_ifs with hnext
  · exact (Nat.mod_eq_of_lt hnext).symm
  · have heq : m.curKey.val + 1 = keys.length := by omega
    rw [heq, Nat.mod_self]

variable (hsize : ∀ key ∈ keys, key.size = blockSize)
include hsize

theorem getD_map_size (i : Fin keys.length) : (keys.map Key.size).getD i 0 = blockSize := by
  rw [List.getD_eq_getElem _ _ (by rw [List.length_map]; exact i.isLt), List.getElem_map]
  exact hsize _ (List.getElem_mem i.isLt)

/-- A packet stands behind what is used of the current key or at the start of the next one, and
the process goes on behind it. -/
theorem encodePacket_place (m : KeyManager keys) {data : List UInt8}
    (hdata : data.length ≤ blockSize) :
    (m.encodePacket blockSize data).2.place = Pad.place (fun size stop ↦ size < stop)
        (keys.map Key.size) m.curKey (m.curpos m.curKey) data.length ∧
      (m.encodePacket blockSize data).1.curKey = (m.encodePacket blockSize data).2.key ∧
      (m.encodePacket blockSize data).1.curpos (m.encodePacket blockSize data).2.key =
        (m.encodePacket blockSize data).2.curpos + data.length := by
  have hcount : (if data.length > (keys.get (m.seek data.length).curKey).size then
      (keys.get (m.seek data.length).curKey).size else data.length) = data.length := by
    rw [hsize _ (List.get_mem _ _), if_neg (Nat.not_lt.mpr hdata)]
  unfold KeyManager.encodePacket
  rw [if_neg (Nat.not_lt.mpr hdata)]
  dsimp only
  rw [hcount]
  refine ⟨?_, rfl, Function.update_self _ _ _⟩
  rw [Packet.place, Pad.place, getD_map_size hsize, length_xorPad, List.take_length,
    KeyManager.seek]
  by_cases hfull : m.Full data.length
  · rw [if_pos hfull, m.nextKey_curpos, nextKey_curKey, List.length_map]
    rw [KeyManager.Full, hsize _ (List.get_mem _ _), Nat.add_comm] at hfull
    rw [if_pos hfull]
  · rw [if_neg hfull]
    rw [KeyManager.Full, hsize _ (List.get_mem _ _), Nat.add_comm] at hfull
    rw [if_neg hfull]

theorem encodeFuel_eq_feed (fuel : ℕ) (m : KeyManager keys) (data : List UInt8) :
    m.encodeFuel blockSize fuel data =
      feed (KeyManager.encodePacket blockSize) m (cutFuel blockSize fuel data) := by
  induction fuel generalizing m data with
  | zero => rfl
  | succ fuel ih =>
    rw [KeyManager.encodeFuel, cutFuel]
    split_ifs
    · rfl
    · have hle : (data.take blockSize).length ≤ blockSize := List.length_take_le _ _
      have hlength : (m.encodePacket blockSize data).2.out.length = min blockSize data.length := by
        rw [← encodePacket_take, ← List.length_take]
        have hplace := congrArg Place.length (encodePacket_place hsize m hle).1
        rwa [length_place] at hplace
      dsimp only
      rw [feed_cons, encodePacket_take, hlength, ← List.drop_eq_drop_min, ih]

/-- Where packets stand depends on the sizes of the keys and the lengths of the chunks only. -/
theorem feed_encodePacket_place (m : KeyManager keys) {pieces : List (List UInt8)}
    (hpieces : ∀ piece ∈ pieces, piece.length ≤ blockSize) :
    (feed (KeyManager.encodePacket blockSize) m pieces).2.map Packet.place =
      layout (fun size stop ↦ size < stop) (keys.map Key.size) m.curKey (m.curpos m.curKey)
        (pieces.map List.length) := by
  induction pieces generalizing m with
  | nil => rfl
  | cons piece rest ih =>
    obtain ⟨hpiece, hrest⟩ := List.forall_mem_cons.mp hpieces
    obtain ⟨hplace, hcurKey, hcurpos⟩ := encodePacket_place hsize m hpiece
    rw [feed_cons, List.map_cons, ih _ hrest, hcurKey, hcurpos, List.map_cons, layout, ← hplace]
    rfl

theorem map_place_packets (hblock : 0 < blockSize) (hkeys : 0 < keys.length)
    (chunks : List (List UInt8)) :
    (packets blockSize keys chunks).map Packet.place =
      places blockSize (keys.map Key.size) chunks := by
  have hfeed (m : KeyManager keys) : (feed (KeyManager.encode blockSize) m chunks).2.flatten =
      (feed (KeyManager.encodePacket blockSize) m (chunks.flatMap (cut blockSize))).2 := by
    induction chunks generalizing m with
    | nil => rfl
    | cons data rest ih =>
      rw [feed_cons, List.flatten_cons, ih, List.flatMap_cons, feed_append, KeyManager.encode,
        encodeFuel_eq_feed hsize]
      rfl
  have hpieces : ∀ piece ∈ chunks.flatMap (cut blockSize), piece.length ≤ blockSize := by
    intro piece hpiece
    obtain ⟨data, _, hcut⟩ := List.mem_flatMap.mp hpiece
    exact (length_of_mem_cut hblock hcut).2
  rw [packets, dif_pos hkeys, hfeed, feed_encodePacket_place hsize _ hpieces]
  rfl

end Place

/-- Chunks of the same lengths have their packets at the same places. -/
theorem places_eq (blockSize : ℕ) (sizes : List ℕ) {m1 m2 : List (List UInt8)}
    (hm : m1.map List.length = m2.map List.length) :
    places blockSize sizes m1 = places blockSize sizes m2 := by
  rw [places, places, map_length_flatMap_cut blockSize hm]

/-! ## A ring and its text -/

/-- The keys stand one behind the other in the text. -/
def IsText (blockSize : ℕ) (keys : List Key) (text : ℕ → UInt8) : Prop :=
  ∀ i : Fin keys.length, (keys.get i).key = (List.range blockSize).map fun j ↦
    text (i * blockSize + j)

/-- The text of keys of one size. -/
def textOf (blockSize : ℕ) (keys : List Key) (a : ℕ) : UInt8 :=
  (keys[a / blockSize]?.bind fun key ↦ key.key[a % blockSize]?).getD 0

/-- The first keys of a text. -/
def keysOf {blockSize : ℕ} (hge : 8 ≤ blockSize) (hlt : blockSize < 2 ^ 32) (n : ℕ)
    (text : ℕ → UInt8) : List Key :=
  (List.range n).map fun i ↦
    { key := (List.range blockSize).map fun j ↦ text (i * blockSize + j)
      length_ge := by rwa [List.length_map, List.length_range]
      length_lt := by rwa [List.length_map, List.length_range] }

theorem mem_readKeys {blockSize : ℕ} {array : List UInt8} {key : Key}
    (h : key ∈ readKeys blockSize array) :
    key.key.length = blockSize ∧ IsAscii key.key := by
  have hfuel (fuel : ℕ) (array : List UInt8) (hmem : key ∈ readKeysFuel blockSize fuel array) :
      key.key.length = blockSize ∧ IsAscii key.key := by
    induction fuel generalizing array with
    | zero => cases hmem
    | succ fuel ih =>
      rw [readKeysFuel] at hmem
      split_ifs at hmem with hlong
      · unfold Key.ofAscii at hmem
        split_ifs at hmem with hascii
        · cases List.mem_cons.mp hmem with
          | inl heq =>
            rw [heq]
            exact ⟨List.length_take_of_le (Nat.le_of_lt hlong), hascii.2.2⟩
          | inr hrest => exact ih _ hrest
        · cases hmem
      · cases hmem
  exact hfuel _ _ h

/-- Any keys of one size and of ASCII characters are read from some text. -/
theorem readKeys_flatMap {blockSize : ℕ} (hblock : 0 < blockSize) {keys : List Key}
    (h : ∀ key ∈ keys, key.key.length = blockSize ∧ IsAscii key.key) :
    readKeys blockSize (keys.flatMap Key.key ++ [0]) = keys := by
  have hfuel (fuel : ℕ) (hle : keys.length ≤ fuel) :
      readKeysFuel blockSize fuel (keys.flatMap Key.key ++ [0]) = keys := by
    induction keys generalizing fuel with
    | nil =>
      cases fuel with
      | zero => rfl
      | succ fuel =>
        rw [readKeysFuel, if_neg]
        exact Nat.not_lt.mpr hblock
    | cons key keys ih =>
      obtain ⟨⟨hsize, hascii⟩, hkeys⟩ := List.forall_mem_cons.mp h
      rw [List.length_cons] at hle
      obtain ⟨fuel, rfl⟩ : ∃ n, fuel = n + 1 := ⟨fuel - 1, by omega⟩
      have hkey : Key.ofAscii key.key = some key :=
        dif_pos ⟨key.length_ge, key.length_lt, hascii⟩
      rw [List.flatMap_cons, List.append_assoc, readKeysFuel, if_pos, List.take_left' hsize,
        List.drop_left' hsize, hkey, ih hkeys fuel (Nat.le_of_succ_le_succ hle)]
      rw [List.length_append, List.length_append, hsize, List.length_singleton]
      omega
  apply hfuel
  clear hfuel
  induction keys with
  | nil => exact Nat.zero_le _
  | cons key keys ih =>
    have hrest := ih (List.forall_mem_cons.mp h).2
    have hkey := key.length_ge
    rw [List.length_append] at hrest
    rw [List.flatMap_cons, List.length_append, List.length_append, List.length_cons]
    omega

theorem isText_textOf {blockSize : ℕ} {keys : List Key}
    (h : ∀ key ∈ keys, key.key.length = blockSize) :
    IsText blockSize keys (textOf blockSize keys) := by
  intro i
  have hsize := h _ (List.get_mem keys i)
  apply List.ext_getElem
  · rw [hsize, List.length_map, List.length_range]
  · intro j hj hj'
    have hlt : j < blockSize := hsize ▸ hj
    have hdiv : (i.val * blockSize + j) / blockSize = i.val := by
      rw [Nat.mul_comm, Nat.mul_add_div (Nat.zero_lt_of_lt hlt), Nat.div_eq_of_lt hlt,
        Nat.add_zero]
    have hmod : (i.val * blockSize + j) % blockSize = j := by
      rw [Nat.mul_comm, Nat.mul_add_mod, Nat.mod_eq_of_lt hlt]
    rw [List.getElem_map, List.getElem_range, textOf, hdiv, hmod,
      List.getElem?_eq_getElem i.isLt, Option.bind_some]
    exact (Option.getD_eq_iff.mpr (.inl (List.getElem?_eq_getElem hj))).symm

theorem textOf_and {blockSize : ℕ} {keys : List Key}
    (h : ∀ key ∈ keys, IsAscii key.key) (a : ℕ) :
    textOf blockSize keys a &&& 128 = 0 := by
  unfold textOf
  cases hkey : keys[a / blockSize]? with
  | none => exact UInt8.zero_and
  | some key =>
    rw [Option.bind_some]
    cases hbyte : key.key[a % blockSize]? with
    | none => exact UInt8.zero_and
    | some byte => exact h key (List.mem_of_getElem? hkey) byte (List.mem_of_getElem? hbyte)

/-- Some text has the keys of a ring and ASCII characters only. -/
theorem exists_text (blockSize : ℕ) (array : List UInt8) :
    ∃ text : ℕ → UInt8, (∀ a, text a &&& 128 = 0) ∧
      IsText blockSize (readKeys blockSize array) text :=
  ⟨_, textOf_and fun _ h ↦ (mem_readKeys h).2, isText_textOf fun _ h ↦ (mem_readKeys h).1⟩

/-- Every text of ASCII characters is the one of a ring with any number of keys. -/
theorem exists_array {blockSize : ℕ} (hge : 8 ≤ blockSize) (hlt : blockSize < 2 ^ 32) (n : ℕ)
    {text : ℕ → UInt8} (hmask : ∀ a, text a &&& 128 = 0) :
    ∃ array, (readKeys blockSize array).length = n ∧
      IsText blockSize (readKeys blockSize array) text := by
  have hkeys : ∀ key ∈ keysOf hge hlt n text,
      key.key.length = blockSize ∧ IsAscii key.key := by
    intro key hkey
    obtain ⟨i, _, rfl⟩ := List.mem_map.mp hkey
    refine ⟨by rw [List.length_map, List.length_range], fun byte hbyte ↦ ?_⟩
    obtain ⟨j, _, rfl⟩ := List.mem_map.mp hbyte
    exact hmask _
  refine ⟨(keysOf hge hlt n text).flatMap Key.key ++ [0], ?_⟩
  rw [readKeys_flatMap (Nat.zero_lt_of_lt hge) hkeys]
  refine ⟨by rw [keysOf, List.length_map, List.length_range], fun i ↦ ?_⟩
  have hkey : (keysOf hge hlt n text).get i = _ := List.getElem_map _
  rw [hkey, List.getElem_range]

section Stream

variable {blockSize : ℕ} {keys keys' : List Key} {text text' : ℕ → UInt8}

theorem packets_spec (hblock : 0 < blockSize) (hkeys : 0 < keys.length)
    (chunks : List (List UInt8)) :
    (∀ p ∈ packets blockSize keys chunks, p.Valid) ∧
      (packets blockSize keys chunks).flatMap Packet.data = chunks.flatten := by
  rw [packets, dif_pos hkeys]
  exact KeyManager.feed_encode_spec hblock _ chunks

theorem IsText.size_eq (h : IsText blockSize keys text) : ∀ key ∈ keys, key.size = blockSize := by
  intro key hkey
  obtain ⟨i, rfl⟩ := List.mem_iff_get.mp hkey
  rw [Key.size, h i, List.length_map, List.length_range]

theorem IsText.map_size (h : IsText blockSize keys text) :
    keys.map Key.size = List.replicate keys.length blockSize := by
  apply List.ext_getElem
  · rw [List.length_map, List.length_replicate]
  · intro i hi hi'
    have hkey := congrArg List.length (h ⟨i, List.length_map Key.size ▸ hi⟩)
    rw [List.getElem_map, List.getElem_replicate]
    simpa [Key.size] using hkey

theorem IsText.num (h : IsText blockSize keys text) (hge : 8 ≤ blockSize) (i : Fin keys.length) :
    (keys.get i).num = (List.range 8).map fun j ↦ text (i * blockSize + j) := by
  rw [Key.num, h i, ← List.map_take, List.take_range, Nat.min_eq_left hge]

/-- What a packet sends is its data under the text. -/
theorem IsText.out_eq (h : IsText blockSize keys text) {p : Packet keys} (hp : p.Valid) :
    p.out = cipher text ((List.range p.out.length).map (p.key * blockSize + p.curpos + ·))
      p.data := by
  have hdata : p.data = xorPad (fun i ↦ text (p.key * blockSize + p.curpos + i)) p.out := by
    apply xorPad_congr
    intro i hi
    have hfits : p.curpos + p.out.length ≤ (keys.get p.key).key.length := hp.fits
    have hkey := h p.key
    rw [Key.from, List.getD_eq_getElem _ _ (by omega)]
    simp only [hkey, List.getElem_map, List.getElem_range, Nat.add_assoc]
  have hrange := cipher_range text (p.key * blockSize + p.curpos) p.data
  rw [hdata, length_xorPad, xorPad_xorPad] at hrange
  rw [hdata, hrange]

theorem IsText.flatMap_out_eq (h : IsText blockSize keys text) {l : List (Packet keys)}
    (hvalid : ∀ p ∈ l, p.Valid) :
    l.flatMap Packet.out =
      cipher text (addresses blockSize (l.map Packet.place)) (l.flatMap Packet.data) := by
  have hlength (p : Packet keys) (_ : p ∈ l) : p.data.length =
      ((List.range p.out.length).map (p.key * blockSize + p.curpos + ·)).length := by
    rw [Packet.data, length_xorPad, List.length_map, List.length_range]
  rw [addresses, List.flatMap_map]
  exact (List.flatMap_congr fun p hp ↦ h.out_eq (hvalid p hp)).trans
    (cipher_flatMap hlength).symm

theorem length_addresses (l : List (Packet keys)) :
    (l.flatMap Packet.data).length = (addresses blockSize (l.map Packet.place)).length := by
  rw [addresses, List.flatMap_map, List.length_flatMap, List.length_flatMap]
  congr 2
  funext p
  rw [Packet.data, length_xorPad, List.length_map, List.length_range]
  rfl

/-- At the same place headers differ in the number of the key only. -/
theorem header_eq_iff (h : IsText blockSize keys text) (h' : IsText blockSize keys' text')
    (hge : 8 ≤ blockSize) {p : Packet keys} {p' : Packet keys'} (hplace : p.place = p'.place) :
    p.header = p'.header ↔
      ∀ a ∈ (List.range 8).map (p.place.key * blockSize + ·), text' a = text a := by
  obtain ⟨hkey, hcurpos, hlength⟩ := Place.mk.inj hplace
  rw [Packet.header, Packet.header, hcurpos, hlength, List.append_left_inj,
    h.num hge, h'.num hge, ← hkey, List.map_inj_left, List.forall_mem_map]
  exact forall₂_congr fun _ _ ↦ eq_comm

theorem headers_eq_iff (h : IsText blockSize keys text) (h' : IsText blockSize keys' text')
    (hge : 8 ≤ blockSize) {l : List (Packet keys)} {l' : List (Packet keys')}
    (hplaces : List.Forall₂ (fun p p' ↦ p.place = p'.place) l l') :
    List.Forall₂ (fun p p' ↦ p.header = p'.header) l l' ↔
      ∀ a ∈ numbers blockSize (l.map Packet.place), text' a = text a := by
  induction hplaces with
  | nil => exact iff_of_true .nil nofun
  | cons hplace _ ih =>
    rw [List.forall₂_cons, ih, header_eq_iff h h' hge hplace, numbers, numbers, List.map_cons,
      List.flatMap_cons, List.forall_mem_append]

/-- The stream under another ring, told by the numbers of the keys and the pad. -/
theorem stream_eq_iff (h : IsText blockSize keys text) (h' : IsText blockSize keys' text')
    (hge : 8 ≤ blockSize) (hlength : keys'.length = keys.length) (hkeys : 0 < keys.length)
    {m1 m2 : List (List UInt8)} (hm : m1.map List.length = m2.map List.length) :
    stream blockSize keys' m2 = stream blockSize keys m1 ↔
      (∀ a ∈ numbers blockSize (places blockSize (keys.map Key.size) m1), text' a = text a) ∧
        cipher text' (addresses blockSize (places blockSize (keys.map Key.size) m1)) m2.flatten =
          cipher text (addresses blockSize (places blockSize (keys.map Key.size) m1))
            m1.flatten := by
  have hblock := Nat.zero_lt_of_lt hge
  have hkeys' : 0 < keys'.length := hlength ▸ hkeys
  have h1 := map_place_packets h.size_eq hblock hkeys m1
  have h2 : (packets blockSize keys' m2).map Packet.place =
      places blockSize (keys.map Key.size) m1 := by
    rw [map_place_packets h'.size_eq hblock hkeys', h.map_size, h'.map_size, hlength,
      places_eq blockSize _ hm]
  obtain ⟨hvalid1, hdata1⟩ := packets_spec hblock hkeys m1
  obtain ⟨hvalid2, hdata2⟩ := packets_spec hblock hkeys' m2
  have hsame := map_eq_map_iff_forall₂.mp (h1.trans h2.symm)
  have hlengths : List.Forall₂ (fun (p : Packet keys) (p' : Packet keys') ↦
      p.header.length = p'.header.length ∧ p.out.length = p'.out.length)
      (packets blockSize keys m1) (packets blockSize keys' m2) := by
    apply hsame.imp
    intro p p' hplace
    exact ⟨by rw [p.length_header, p'.length_header], congrArg Place.length hplace⟩
  rw [eq_comm]
  unfold stream Packet.bytes
  rw [flatMap_append_eq_iff hlengths, headers_eq_iff h h' hge hsame, h.flatMap_out_eq hvalid1,
    h'.flatMap_out_eq hvalid2, hdata1, hdata2, h1, h2]
  exact and_congr_right' eq_comm

end Stream

/-- For every text, all chunks of plaintext `m1` that fit and all `m2` of the same lengths: a ring
of the same key sizes gives the stream of `m1` for `m2` if and only if the plaintexts agree in the
eighth bits and wherever the number of a key is the pad, and differ in the same way wherever the
same byte of a key is used again. -/
theorem secret_iff (blockSize : ℕ) (array : List UInt8) {m1 m2 : List (List UInt8)}
    (hm : m1.map List.length = m2.map List.length)
    (hfits : Fits ((readKeys blockSize array).map Key.size)
      (places blockSize ((readKeys blockSize array).map Key.size) m1)) :
    Secret blockSize array m1 m2 ↔
      Explained 128
        (numbers blockSize (places blockSize ((readKeys blockSize array).map Key.size) m1))
        (differences
          (addresses blockSize (places blockSize ((readKeys blockSize array).map Key.size) m1))
          m1.flatten m2.flatten) := by
  rcases Nat.eq_zero_or_pos (readKeys blockSize array).length with hnil | hkeys
  · -- Without keys nothing is written, and nothing fits.
    have hnone (chunks : List (List UInt8)) :
        stream blockSize (readKeys blockSize array) chunks = [] := by
      rw [stream, packets, dif_neg (Nat.not_lt.mpr (Nat.le_of_eq hnil))]
      rfl
    rw [List.length_eq_zero_iff.mp hnil, List.map_nil] at hfits ⊢
    rw [hfits.addresses_eq_nil]
    exact iff_of_true ⟨array, rfl, (hnone m2).trans (hnone m1).symm⟩ nofun
  · obtain ⟨text, hmask, htext⟩ := exists_text blockSize array
    obtain ⟨hge, hlt⟩ : 8 ≤ blockSize ∧ blockSize < 2 ^ 32 := by
      have hkey := List.get_mem (readKeys blockSize array) ⟨0, hkeys⟩
      rw [← htext.size_eq _ hkey]
      exact ⟨Key.length_ge _, Key.length_lt _⟩
    have h1 : m1.flatten.length = (addresses blockSize
        (places blockSize ((readKeys blockSize array).map Key.size) m1)).length := by
      have hblock := Nat.zero_lt_of_lt hge
      rw [← map_place_packets htext.size_eq hblock hkeys, ← length_addresses,
        (packets_spec hblock hkeys m1).2]
    have h2 : m2.flatten.length = (addresses blockSize
        (places blockSize ((readKeys blockSize array).map Key.size) m1)).length := by
      rw [← h1, List.length_flatten, List.length_flatten, hm]
    rw [← exists_text_iff text 128 _ hmask h1 h2]
    constructor
    · rintro ⟨array', hsizes, hstream⟩
      obtain ⟨text', hmask', htext'⟩ := exists_text blockSize array'
      have hlength : (readKeys blockSize array').length = (readKeys blockSize array).length := by
        simpa only [List.length_map] using congrArg List.length hsizes
      exact ⟨text', hmask', (stream_eq_iff htext htext' hge hlength hkeys hm).mp hstream⟩
    · rintro ⟨text', hmask', hboth⟩
      obtain ⟨array', hlength, htext'⟩ :=
        exists_array hge hlt (readKeys blockSize array).length hmask'
      refine ⟨array', ?_, (stream_eq_iff htext htext' hge hlength hkeys hm).mpr hboth⟩
      rw [htext.map_size, htext'.map_size, hlength]

end QNet.Pythoncrypt

namespace QNet

open Pad

/-- For all plaintexts cut into chunks of the same lengths: a ring of the same key sizes explains
the other plaintext exactly when it does not differ under the first eight bytes of a key, in both
programs, and in an eighth bit, in pythoncrypt, and the differences agree where the same byte of
the text is used. -/
theorem secrecy_iff (m1 m2 : List (List UInt8)) (hm : m1.map List.length = m2.map List.length) :
    (∀ (heap : ℕ → Mem) (f : Mem) (size : ℕ) (sizes : List ℕ),
      sizes = (Qcrypt.getKeysBuffer f size).map Qcrypt.Key.size →
      Fits sizes (Qcrypt.places sizes m1) →
        (Qcrypt.Secret heap f size m1 m2 ↔ Explained 0 (List.range 8)
          (differences (offsets (Qcrypt.places sizes m1)) m1.flatten m2.flatten))) ∧
      ∀ (blockSize : ℕ) (array : List UInt8) (sizes : List ℕ),
        sizes = (Pythoncrypt.readKeys blockSize array).map Pythoncrypt.Key.size →
        Fits sizes (Pythoncrypt.places blockSize sizes m1) →
          (Pythoncrypt.Secret blockSize array m1 m2 ↔
            Explained 128 (numbers blockSize (Pythoncrypt.places blockSize sizes m1))
              (differences (addresses blockSize (Pythoncrypt.places blockSize sizes m1))
                m1.flatten m2.flatten)) := by
  constructor
  · rintro heap f size _ rfl hfits
    exact Qcrypt.secret_iff heap f size hm hfits
  · rintro blockSize array _ rfl hfits
    exact Pythoncrypt.secret_iff blockSize array hm hfits

/-- Texts that differ in their ninth byte only, with keys of 24 and of 16 bytes. -/
theorem secrecy_iff_ninthByte :
    Qcrypt.Secret (fun _ _ ↦ 0) (fun _ ↦ 65) 24 [[1, 2, 3, 4, 5, 6, 7, 8, 9]]
        [[1, 2, 3, 4, 5, 6, 7, 8, 0]] ∧
      Pythoncrypt.Secret 16 (List.replicate 17 65) [[1, 2, 3, 4, 5, 6, 7, 8, 9]]
        [[1, 2, 3, 4, 5, 6, 7, 8, 0]] := by
  obtain ⟨hqcrypt, hpythoncrypt⟩ :=
    secrecy_iff [[1, 2, 3, 4, 5, 6, 7, 8, 9]] [[1, 2, 3, 4, 5, 6, 7, 8, 0]] (by decide)
  exact ⟨(hqcrypt (fun _ _ ↦ 0) (fun _ ↦ 65) 24 _ rfl (by decide)).mpr (by decide),
    (hpythoncrypt 16 (List.replicate 17 65) _ rfl (by decide)).mpr (by decide)⟩

/-- One byte under the first byte of a key, which is sent in front of it. -/
theorem not_secret_firstByte :
    (Fits ((Qcrypt.getKeysBuffer (fun _ ↦ 65) 24).map Qcrypt.Key.size)
        (Qcrypt.places ((Qcrypt.getKeysBuffer (fun _ ↦ 65) 24).map Qcrypt.Key.size) [[1]]) ∧
      ¬ Qcrypt.Secret (fun _ _ ↦ 0) (fun _ ↦ 65) 24 [[1]] [[2]]) ∧
    Fits ((Pythoncrypt.readKeys 16 (List.replicate 17 65)).map Pythoncrypt.Key.size)
        (Pythoncrypt.places 16
          ((Pythoncrypt.readKeys 16 (List.replicate 17 65)).map Pythoncrypt.Key.size) [[1]]) ∧
      ¬ Pythoncrypt.Secret 16 (List.replicate 17 65) [[1]] [[2]] := by
  refine ⟨⟨by decide, ?_⟩, by decide, ?_⟩
  · rw [Qcrypt.secret_iff _ _ _ (by decide) (by decide)]
    decide
  · rw [Pythoncrypt.secret_iff _ _ (by decide) (by decide)]
    decide

end QNet
