import QNet.Qcrypt.Codec

/-!
# A plaintext stream through two qcrypt processes

The encrypting process reads chunks of plaintext and writes blocks to a non-blocking socket; the
decrypting process reads them back field by field with `read_block` and writes the data to another
socket. The machine takes one step for a chunk and one for each `read` of the decrypting process.
How many bytes each `write` accepts and each `read` gets is part of the events, so every
segmentation is a run: a `read` of no bytes is EAGAIN, which may come at any time.

Three things can go wrong. The results of `write` are ignored, so bytes that were not accepted are
lost. A `read_block` for a key number returns on EAGAIN and forgets what it has got of the number.
Numbers are compared with `strncmp`, so two numbers may count as one that differ behind a NUL.
Otherwise everything arrives: `correct_of_run`.
-/

namespace QNet.Qcrypt

open ByteStream

variable {keys : List Key}

/-- Which field of a block `decrypt` reads. -/
inductive Field
  | num
  | curpos
  | size
  | data
  deriving DecidableEq

/-- A call of `decrypt`, or the wait for the next one: the field that is read, what `read_block`
has got of it, and the variable `size`. -/
structure Decryptor (keys : List Key) where
  codec : Codec keys
  field : Field
  arr : List UInt8
  size : ℕ

namespace Decryptor

/-- The size `read_block` is called with. -/
def fieldSize (d : Decryptor keys) : ℕ :=
  match d.field with
  | .num => 8
  | .curpos => 4
  | .size => 4
  | .data => d.size

/-- How many bytes the next `read` asks for. -/
def wanted (d : Decryptor keys) : ℕ := d.fieldSize - d.arr.length

/-- What follows a complete field, and what is written. The process hangs when there is no key of
the number; a size of zero closes the connection, and one above 32 overruns a buffer. -/
def complete (behind : Fin keys.length → Mem) (d : Decryptor keys) (arr : List UInt8) :
    Option (Decryptor keys × List UInt8) :=
  match d.field with
  | .num => (d.codec.findKey arr).map fun i ↦
      (⟨{ d.codec with curkey := some i }, .curpos, [], d.size⟩, [])
  | .curpos => d.codec.curkey.map fun i ↦
      (⟨{ d.codec with curpos := Function.update d.codec.curpos i (ofLe arr) }, .size, [], d.size⟩,
        [])
  | .size =>
      if ofLe arr = 0 ∨ 32 < ofLe arr then none else some (⟨d.codec, .data, [], ofLe arr⟩, [])
  | .data => d.codec.curkey.map fun i ↦
      (⟨d.codec, .num, [], d.size⟩, xorPad (fun n ↦ pad behind i (d.codec.curpos i + n)) arr)

/-- One `read` of `read_block`; no bytes stand for EAGAIN. -/
def read (behind : Fin keys.length → Mem) (d : Decryptor keys) (bytes : List UInt8) :
    Option (Decryptor keys × List UInt8) :=
  if bytes.isEmpty then
    -- `toret` is set for the number only; the other fields are tried again.
    some (if d.field = .num then { d with arr := [] } else d, [])
  else if (d.arr ++ bytes).length < d.fieldSize then
    some ({ d with arr := d.arr ++ bytes }, [])
  else d.complete behind (d.arr ++ bytes)

end Decryptor

/-- Both processes; `wire` is what the one has sent and the other has not read. -/
structure System (keys : List Key) where
  coder : Codec keys
  decoder : Decryptor keys
  wire : List UInt8
  plaintext : List UInt8
  delivered : List UInt8

inductive Event
  /-- A chunk of plaintext, with the numbers of bytes the single calls of `write` accept. -/
  | chunk (data : List UInt8) (accepts : List ℕ)
  /-- A `read` of `n` bytes; if data are written then, so many bytes of them are accepted. -/
  | read (n accepted : ℕ)

/-- What the calls of `write` put on the wire. -/
def transmit (writes : List (List UInt8)) (accepts : List ℕ) : List UInt8 :=
  (List.zipWith (fun bytes n ↦ bytes.take n) writes accepts).flatten

/-- The memory behind the keys is another one in each process. -/
def System.next (behind behind' : Fin keys.length → Mem) (s : System keys) :
    Event → Option (System keys)
  | .chunk data accepts =>
      if 0 < data.length ∧ data.length ≤ 1024 then
        let (coder, blocks) := s.coder.crypt behind data
        some { s with
          coder := coder
          wire := s.wire ++ transmit (blocks.flatMap Block.writes) accepts
          plaintext := s.plaintext ++ data }
      else none
  | .read n accepted =>
      if n ≤ s.wire.length ∧ n ≤ s.decoder.wanted then
        (s.decoder.read behind' (s.wire.take n)).map fun (decoder, out) ↦
          { s with
            decoder := decoder
            wire := s.wire.drop n
            delivered := s.delivered ++ out.take accepted }
      else none

/-- Both processes may have worked before, on whatever traffic. -/
def System.start (coder decoder : Codec keys) : System keys :=
  ⟨coder, ⟨decoder, .num, [], 0⟩, [], [], []⟩

def system (behind behind' : Fin keys.length → Mem) (coder decoder : Codec keys) :
    Machine (System keys) Event :=
  .ofNext (System.start coder decoder) (System.next behind behind')

/-- The stream arrives: what was delivered is a part of it from its start on, and all of it once
nothing is on the wire; as long as something is, the decoder can read it. -/
structure System.Correct (behind behind' : Fin keys.length → Mem) (s : System keys) : Prop where
  order : s.delivered <+: s.plaintext
  complete : s.wire = [] → s.delivered = s.plaintext
  wanted : 0 < s.decoder.wanted
  progress : ∀ n accepted, n ≤ s.wire.length → n ≤ s.decoder.wanted →
    (s.next behind behind' (.read n accepted)).isSome

/-- No two keys count as one for `strncmp`. -/
def Unambiguous (keys : List Key) : Prop :=
  ∀ i j : Fin keys.length, CString.strncmpEq (List.ofFn (keys.get i).num)
    (List.ofFn (keys.get j).num) = true → i = j

/-- The lengths of the calls of `write` for a chunk. -/
def writeSizes (data : List UInt8) : List ℕ :=
  ((cut 32 data).map List.length).flatMap fun readsize ↦ [8, 4, 4, readsize]

/-- Every `write` accepts all its bytes, and no EAGAIN comes within a key number. -/
def Smooth (s : System keys) : Event → Prop
  | .chunk data accepts => List.Forall₂ (· ≤ ·) (writeSizes data) accepts
  | .read n accepted =>
      (n = 0 → s.decoder.field = .num → s.decoder.arr = []) ∧
        (s.decoder.field = .data → s.decoder.wanted ≤ n → s.decoder.size ≤ accepted)

instance decidableSmooth (s : System keys) : (e : Event) → Decidable (Smooth s e)
  | .chunk data accepts => inferInstanceAs (Decidable (List.Forall₂ _ (writeSizes data) accepts))
  | .read _ _ => inferInstanceAs (Decidable (_ ∧ _))

/-! ## Blocks on the wire -/

namespace Block

def whole (b : Block keys) : List UInt8 := b.writes.flatten

/-- The bytes of a field. -/
def get (b : Block keys) : Field → List UInt8
  | .num => List.ofFn (keys.get b.key).num
  | .curpos => leBytes 4 b.curpos
  | .size => leBytes 4 b.out.length
  | .data => b.out

/-- What follows a field in the block. -/
def rest (b : Block keys) : Field → List UInt8
  | .num => b.get .curpos ++ (b.get .size ++ b.get .data)
  | .curpos => b.get .size ++ b.get .data
  | .size => b.get .data
  | .data => []

theorem whole_eq (b : Block keys) : b.whole = b.get .num ++ b.rest .num := by
  simp only [whole, writes, get, rest, List.flatten_cons, List.flatten_nil, List.append_nil]

end Block

/-- The bytes of `blocks`, the first of which has been read as far as a field. -/
def remaining (field : Field) : List (Block keys) → List UInt8
  | [] => []
  | b :: blocks => b.get field ++ (b.rest field ++ blocks.flatMap Block.whole)

theorem remaining_num (blocks : List (Block keys)) :
    remaining .num blocks = blocks.flatMap Block.whole := by
  cases blocks with
  | nil => rfl
  | cons b blocks =>
    rw [remaining, List.flatMap_cons, Block.whole_eq, List.append_assoc]

theorem remaining_append {field : Field} {blocks : List (Block keys)} (more : List (Block keys))
    (h : blocks = [] → field = .num) :
    remaining field (blocks ++ more) = remaining field blocks ++ more.flatMap Block.whole := by
  cases blocks with
  | nil => rw [h rfl, List.nil_append, remaining_num, remaining, List.nil_append]
  | cons b blocks =>
    simp only [List.cons_append, remaining, List.flatMap_append, List.append_assoc]

/-- No field of a block is empty. -/
theorem Block.Valid.length_get {b : Block keys} (h : b.Valid) (field : Field) :
    0 < (b.get field).length := by
  cases field with
  | num => exact List.length_ofFn.symm ▸ Nat.zero_lt_succ 7
  | curpos => exact (length_leBytes 4 _).symm ▸ Nat.zero_lt_succ 3
  | size => exact (length_leBytes 4 _).symm ▸ Nat.zero_lt_succ 3
  | data => exact h.pos

namespace Decryptor

variable {d : Decryptor keys} {b : Block keys}

/-- The variables have the values of the fields that have been read. -/
def Loaded (d : Decryptor keys) (b : Block keys) : Prop :=
  match d.field with
  | .num => True
  | .curpos => d.codec.curkey = some b.key
  | .size => d.codec.curkey = some b.key ∧ d.codec.curpos b.key = b.curpos
  | .data =>
      d.codec.curkey = some b.key ∧ d.codec.curpos b.key = b.curpos ∧ d.size = b.out.length

theorem Loaded.length_get (h : d.Loaded b) : (b.get d.field).length = d.fieldSize := by
  unfold Loaded at h
  unfold fieldSize
  cases hfield : d.field with
  | num => exact List.length_ofFn
  | curpos => exact length_leBytes 4 _
  | size => exact length_leBytes 4 _
  | data =>
    simp only [hfield] at h
    exact h.2.2.symm

/-- The key of a number is found. -/
theorem findKey_num (hkeys : Unambiguous keys) (s : Codec keys) (i : Fin keys.length) :
    s.findKey (List.ofFn (keys.get i).num) = some i := by
  have hsame : CString.strncmpEq (List.ofFn (keys.get i).num) (List.ofFn (keys.get i).num) :=
    decide_eq_true rfl
  unfold Codec.findKey
  dsimp only
  split
  · rename_i j hj
    rw [hkeys i j (Option.filter_eq_some_iff.mp hj).2]
  · cases hfind : (List.finRange keys.length).find? fun j ↦
        CString.strncmpEq (List.ofFn (keys.get i).num) (List.ofFn (keys.get j).num) with
    | none => exact absurd hsame (List.find?_eq_none.mp hfind i (List.mem_finRange i))
    | some j =>
      have hj := List.find?_some hfind
      rw [hkeys i j hj]

/-- What follows the last field of a block. -/
theorem complete_data (behind behind' : Fin keys.length → Mem) (hvalid : b.Valid)
    (hloaded : d.Loaded b) (hfield : d.field = .data) :
    d.complete behind' (b.get .data) =
      some (⟨d.codec, .num, [], d.size⟩, b.data behind) := by
  simp only [Loaded, hfield] at hloaded
  simp only [complete, hfield, hloaded.1, hloaded.2.1, Option.map_some]
  rw [hvalid.fits.data_eq behind behind', Block.data, Block.get]

/-- What follows another field: the next one is read. -/
theorem complete_field (behind : Fin keys.length → Mem) (hkeys : Unambiguous keys)
    (hvalid : b.Valid) (hloaded : d.Loaded b) (hfield : d.field ≠ .data) :
    ∃ d', d.complete behind (b.get d.field) = some (d', []) ∧ d'.arr = [] ∧ d'.Loaded b ∧
      b.rest d.field = b.get d'.field ++ b.rest d'.field := by
  have hcurpos : b.curpos < 256 ^ 4 := by
    have hfits : b.curpos + b.out.length ≤ (keys.get b.key).key.length := hvalid.fits
    have hlength := (keys.get b.key).length_le
    omega
  have hsize : b.out.length < 256 ^ 4 := lt_of_le_of_lt hvalid.le (by decide)
  unfold Loaded at hloaded
  unfold complete
  cases hd : d.field with
  | num =>
    rw [show b.get .num = List.ofFn (keys.get b.key).num from rfl, findKey_num hkeys]
    exact ⟨_, rfl, rfl, rfl, rfl⟩
  | curpos =>
    simp only [hd] at hloaded
    rw [hloaded, show b.get .curpos = leBytes 4 b.curpos from rfl, ofLe_leBytes hcurpos]
    exact ⟨_, rfl, rfl, ⟨hloaded, Function.update_self _ _ _⟩, rfl⟩
  | size =>
    simp only [hd] at hloaded
    have hpos := hvalid.pos
    have hle := hvalid.le
    rw [show b.get .size = leBytes 4 b.out.length from rfl, ofLe_leBytes hsize,
      if_neg (by omega)]
    exact ⟨_, rfl, rfl, ⟨hloaded.1, hloaded.2, rfl⟩, (List.append_nil _).symm⟩
  | data => exact absurd hd hfield

end Decryptor

/-! ## What is in flight -/

/-- The decoder's part of a field, with the wire, is the rest of `blocks`, and these hold what is
missing of the plaintext. -/
structure InFlight (behind : Fin keys.length → Mem) (s : System keys)
    (blocks : List (Block keys)) : Prop where
  valid : ∀ b ∈ blocks, b.Valid
  incomplete : s.decoder.arr.length < s.decoder.fieldSize
  bytes : s.decoder.arr ++ s.wire = remaining s.decoder.field blocks
  idle : blocks = [] → s.decoder.field = .num
  loaded : ∀ b ∈ blocks.head?, s.decoder.Loaded b
  plaintext : s.delivered ++ blocks.flatMap (Block.data behind) = s.plaintext

theorem transmit_of_whole {writes : List (List UInt8)} {accepts : List ℕ}
    (h : List.Forall₂ (fun bytes n ↦ bytes.length ≤ n) writes accepts) :
    transmit writes accepts = writes.flatten := by
  unfold transmit
  induction h with
  | nil => rfl
  | cons hle _ ih =>
    rw [List.zipWith_cons_cons, List.flatten_cons, ih, List.take_of_length_le hle,
      List.flatten_cons]

theorem writes_sizes (blocks : List (Block keys)) :
    (blocks.flatMap Block.writes).map List.length =
      (blocks.map fun b ↦ b.out.length).flatMap fun readsize ↦ [8, 4, 4, readsize] := by
  induction blocks with
  | nil => rfl
  | cons b blocks ih =>
    rw [List.flatMap_cons, List.map_append, ih, List.map_cons, List.flatMap_cons]
    simp only [Block.writes, List.map_cons, List.map_nil, List.length_ofFn, length_leBytes]

theorem isEmpty_take {bytes : List UInt8} {n : ℕ} (hpos : 0 < n) (hn : n ≤ bytes.length) :
    (bytes.take n).isEmpty = false := by
  rw [List.isEmpty_eq_false_iff, ← List.length_pos_iff, List.length_take]
  omega

namespace InFlight

variable {behind : Fin keys.length → Mem} {s : System keys} {blocks : List (Block keys)}
  (behind' : Fin keys.length → Mem)

/-- A chunk that is sent whole adds its blocks. -/
theorem chunk (hkeys : keys ≠ []) (hsize : ∀ key ∈ keys, 33 ≤ key.size)
    (h : InFlight behind s blocks) {data : List UInt8} {accepts : List ℕ}
    (haccepts : List.Forall₂ (· ≤ ·) (writeSizes data) accepts) :
    InFlight behind
      { s with
        coder := (s.coder.crypt behind data).1
        wire := s.wire ++ transmit ((s.coder.crypt behind data).2.flatMap Block.writes) accepts
        plaintext := s.plaintext ++ data }
      (blocks ++ (s.coder.crypt behind data).2) := by
  obtain ⟨hvalid, hdata, hlength⟩ := Codec.crypt_spec behind hkeys hsize s.coder data
  have hwhole : transmit ((s.coder.crypt behind data).2.flatMap Block.writes) accepts =
      (s.coder.crypt behind data).2.flatMap Block.whole := by
    have hsizes : List.Forall₂ (· ≤ ·)
        (((s.coder.crypt behind data).2.flatMap Block.writes).map List.length) accepts := by
      rw [writes_sizes, hlength]
      exact haccepts
    rw [transmit_of_whole (List.forall₂_map_left_iff.mp hsizes), List.flatten_eq_flatMap,
      List.flatMap_assoc]
    simp only [← List.flatten_eq_flatMap]
    rfl
  constructor
  · intro b hb
    rcases List.mem_append.mp hb with hold | hnew
    · exact h.valid b hold
    · exact hvalid b hnew
  · exact h.incomplete
  · rw [hwhole, remaining_append _ h.idle, ← h.bytes, List.append_assoc]
  · intro hnil
    exact h.idle (List.append_eq_nil_iff.mp hnil).1
  · intro b hb
    cases hblocks : blocks with
    | nil =>
      have hnum := h.idle hblocks
      simp only [Decryptor.Loaded, hnum]
    | cons first rest =>
      rw [hblocks] at hb
      exact h.loaded b (by rw [hblocks]; exact hb)
  · rw [List.flatMap_append, hdata, ← List.append_assoc, h.plaintext]

/-- Whatever is read belongs to a block. -/
theorem exists_block (h : InFlight behind s blocks) (hwire : s.wire ≠ []) :
    ∃ b rest, blocks = b :: rest := by
  cases hblocks : blocks with
  | nil =>
    have hbytes := h.bytes
    rw [hblocks, remaining] at hbytes
    exact absurd (List.append_eq_nil_iff.mp hbytes).2 hwire
  | cons b rest => exact ⟨b, rest, rfl⟩

/-- A read that completes a field gets exactly the field. -/
theorem field_complete {b : Block keys} {rest : List (Block keys)}
    (h : InFlight behind s (b :: rest)) {n : ℕ} (hwire : n ≤ s.wire.length)
    (hwanted : n = s.decoder.wanted) :
    s.decoder.arr ++ s.wire.take n = b.get s.decoder.field ∧
      s.wire.drop n = b.rest s.decoder.field ++ rest.flatMap Block.whole := by
  have hloaded := h.loaded b rfl
  have hincomplete := h.incomplete
  have hbytes := h.bytes
  rw [remaining, ← List.take_append_drop n s.wire, ← List.append_assoc] at hbytes
  apply List.append_inj hbytes
  rw [hloaded.length_get, List.length_append, List.length_take]
  unfold Decryptor.wanted at hwanted
  omega

/-- EAGAIN changes nothing, unless it comes within a number. -/
theorem again (h : InFlight behind s blocks) (accepted : ℕ) :
    ∃ t, s.next behind behind' (.read 0 accepted) = some t ∧
      ((s.decoder.field = .num → s.decoder.arr = []) → InFlight behind t blocks) := by
  refine ⟨{ s with
    decoder := if s.decoder.field = .num then { s.decoder with arr := [] } else s.decoder },
    ?_, fun hwithin ↦ ?_⟩
  · rw [System.next, if_pos ⟨Nat.zero_le _, Nat.zero_le _⟩, List.take_zero, Decryptor.read,
      if_pos (by rfl), Option.map_some]
    simp only [List.take_nil, List.append_nil, List.drop_zero]
  · have hdecoder : (if s.decoder.field = .num then { s.decoder with arr := [] } else s.decoder) =
        s.decoder := by
      split_ifs with hnum
      · rw [← hwithin hnum]
      · rfl
    rw [hdecoder]
    exact h

/-- Bytes that do not complete a field are kept. -/
theorem readPart (h : InFlight behind s blocks) {n : ℕ} (hpos : 0 < n)
    (hwire : n ≤ s.wire.length) (hwanted : n < s.decoder.wanted) (accepted : ℕ) :
    ∃ t, s.next behind behind' (.read n accepted) = some t ∧ InFlight behind t blocks := by
  have hpart : (s.decoder.arr ++ s.wire.take n).length < s.decoder.fieldSize := by
    rw [List.length_append, List.length_take]
    unfold Decryptor.wanted at hwanted
    omega
  refine ⟨{ s with
    decoder := { s.decoder with arr := s.decoder.arr ++ s.wire.take n }
    wire := s.wire.drop n }, ?_, h.valid, hpart, ?_, h.idle, h.loaded, h.plaintext⟩
  · rw [System.next, if_pos ⟨hwire, hwanted.le⟩, Decryptor.read,
      isEmpty_take hpos hwire, if_neg Bool.false_ne_true, if_pos hpart, Option.map_some]
    simp only [List.take_nil, List.append_nil]
  · rw [← h.bytes, List.append_assoc, List.take_append_drop]

/-- With the last bytes of a field the decoder goes to the next one, and behind the data, which
are written, to the next block. -/
theorem readField (hkeys : Unambiguous keys) (h : InFlight behind s blocks) {n : ℕ} (hpos : 0 < n)
    (hwire : n ≤ s.wire.length) (hwanted : n = s.decoder.wanted) (accepted : ℕ) :
    ∃ t, s.next behind behind' (.read n accepted) = some t ∧
      ((s.decoder.field = .data → s.decoder.size ≤ accepted) →
        ∃ blocks', InFlight behind t blocks') := by
  have hne : s.wire ≠ [] := List.ne_nil_of_length_pos (hpos.trans_le hwire)
  obtain ⟨b, rest, rfl⟩ := h.exists_block hne
  obtain ⟨harr, hdrop⟩ := h.field_complete hwire hwanted
  have hloaded := h.loaded b rfl
  have hvalid := h.valid b List.mem_cons_self
  have hfull : ¬ (s.decoder.arr ++ s.wire.take n).length < s.decoder.fieldSize := by
    rw [harr, hloaded.length_get]
    exact lt_irrefl _
  have hnext : s.next behind behind' (.read n accepted) =
      (s.decoder.complete behind' (b.get s.decoder.field)).map fun (decoder, out) ↦
        { s with
          decoder := decoder
          wire := s.wire.drop n
          delivered := s.delivered ++ out.take accepted } := by
    rw [System.next, if_pos ⟨hwire, hwanted.le⟩, Decryptor.read,
      isEmpty_take hpos hwire, if_neg Bool.false_ne_true, if_neg hfull, harr]
  rw [hnext]
  by_cases hfield : s.decoder.field = .data
  · rw [hfield, Decryptor.complete_data behind behind' hvalid hloaded hfield, Option.map_some]
    refine ⟨_, rfl, fun haccepted ↦ ⟨rest, ?_⟩⟩
    have hout : (b.data behind).length ≤ accepted := by
      simp only [Decryptor.Loaded, hfield] at hloaded
      rw [Block.data, length_xorPad, ← hloaded.2.2]
      exact haccepted rfl
    constructor
    · exact fun other hother ↦ h.valid other (List.mem_cons_of_mem _ hother)
    · exact Nat.zero_lt_succ 7
    · rw [hfield] at hdrop
      rw [hdrop, remaining_num]
      rfl
    · exact fun _ ↦ rfl
    · exact fun _ _ ↦ trivial
    · dsimp only
      rw [List.take_of_length_le hout, List.append_assoc, ← List.flatMap_cons]
      exact h.plaintext
  · obtain ⟨d, hcomplete, harrNil, hloadedNext, hrest⟩ :=
      Decryptor.complete_field behind' hkeys hvalid hloaded hfield
    rw [hcomplete, Option.map_some]
    refine ⟨_, rfl, fun _ ↦ ⟨b :: rest, h.valid, ?_, ?_, nofun, ?_, ?_⟩⟩
    · rw [harrNil, ← hloadedNext.length_get]
      exact hvalid.length_get d.field
    · rw [harrNil, hdrop, hrest, remaining, List.append_assoc]
      rfl
    · intro other hother
      cases hother
      exact hloadedNext
    · dsimp only
      rw [List.take_nil, List.append_nil]
      exact h.plaintext

/-- A read that gets something never leads to an end of the process. -/
theorem read (hkeys : Unambiguous keys) (h : InFlight behind s blocks) {n : ℕ}
    (hwire : n ≤ s.wire.length) (hwanted : n ≤ s.decoder.wanted) (accepted : ℕ) :
    ∃ t, s.next behind behind' (.read n accepted) = some t ∧
      (Smooth s (.read n accepted) → ∃ blocks', InFlight behind t blocks') := by
  rcases Nat.eq_zero_or_pos n with rfl | hpos
  · obtain ⟨t, hnext, ht⟩ := h.again behind' accepted
    exact ⟨t, hnext, fun hsmooth ↦ ⟨blocks, ht (hsmooth.1 rfl)⟩⟩
  · rcases hwanted.lt_or_eq with hlt | heq
    · obtain ⟨t, hnext, ht⟩ := h.readPart behind' hpos hwire hlt accepted
      exact ⟨t, hnext, fun _ ↦ ⟨blocks, ht⟩⟩
    · obtain ⟨t, hnext, ht⟩ := h.readField behind' hkeys hpos hwire heq accepted
      exact ⟨t, hnext, fun hsmooth ↦ ht fun hdata ↦ hsmooth.2 hdata heq.ge⟩

/-- What is in flight is all that is missing, and can be read. -/
theorem correct (hkeys : Unambiguous keys) (h : InFlight behind s blocks) :
    s.Correct behind behind' where
  order := ⟨_, h.plaintext⟩
  complete hwire := by
    have hplaintext := h.plaintext
    cases blocks with
    | nil => rwa [List.flatMap_nil, List.append_nil] at hplaintext
    | cons b rest =>
      have hlength := congrArg List.length h.bytes
      have hincomplete := h.incomplete
      rw [hwire, List.append_nil, remaining, List.length_append,
        (h.loaded b rfl).length_get] at hlength
      omega
  wanted := Nat.sub_pos_of_lt h.incomplete
  progress n accepted hwire hwanted := by
    obtain ⟨t, hnext, _⟩ := h.read behind' hkeys hwire hwanted accepted
    exact hnext ▸ rfl

end InFlight

/-- For every ring of keys of at least 33 bytes whose numbers differ before any NUL, whatever the
processes did before, and in every run in which each `write` accepts all its bytes and no EAGAIN
comes within a key number: the stream arrives. -/
theorem correct_of_run (behind behind' : Fin keys.length → Mem) (coder decoder : Codec keys)
    (hkeys : keys ≠ []) (hsize : ∀ key ∈ keys, 33 ≤ key.size) (hnums : Unambiguous keys)
    (s : System keys)
    (hreach : ((system behind behind' coder decoder).guard Smooth).Reachable s) :
    s.Correct behind behind' := by
  have hinvariant : ∃ blocks, InFlight behind s blocks := by
    apply hreach.invariant
    · rintro s rfl
      exact ⟨[], nofun, Nat.zero_lt_succ 7, rfl, fun _ ↦ rfl, nofun, rfl⟩
    · rintro s event t ⟨blocks, h⟩ ⟨hstep, hsmooth⟩
      have hstep : s.next behind behind' event = some t := hstep
      cases event with
      | chunk data accepts =>
        rw [System.next] at hstep
        split_ifs at hstep
        cases hstep
        exact ⟨_, h.chunk hkeys hsize hsmooth⟩
      | read n accepted =>
        have hrange : n ≤ s.wire.length ∧ n ≤ s.decoder.wanted := by
          by_contra hnot
          rw [System.next, if_neg hnot] at hstep
          cases hstep
        obtain ⟨t', hnext, ht⟩ := h.read behind' hnums hrange.1 hrange.2 accepted
        obtain rfl : t' = t := Option.some.inj (hnext.symm.trans hstep)
        exact ht hsmooth
  obtain ⟨blocks, h⟩ := hinvariant
  exact h.correct behind' hnums

/-! ## What goes wrong otherwise -/

/-- Two blocks under two keys. The number, the position and the data of the first one come in parts,
with EAGAIN before the number and within the position. -/
def sampleEvents : List Event :=
  [.chunk (List.replicate 33 5) [8, 4, 4, 32, 8, 4, 4, 1], .read 0 0, .read 3 0, .read 5 0,
    .read 1 0, .read 0 0, .read 3 0, .read 4 0, .read 20 0, .read 12 32, .read 8 0, .read 4 0,
    .read 4 0, .read 1 1]

theorem correct_of_run_twoKeys : ∃ s : System sampleKeys,
    s.Correct (fun _ _ ↦ 0) (fun _ _ ↦ 0) ∧ s.delivered = List.replicate 33 5 ∧
      s.decoder.codec.curkey.map Fin.val = some 1 := by
  have hnums : Unambiguous sampleKeys := by
    unfold Unambiguous
    decide
  obtain ⟨s, hrun, hdelivered⟩ := Machine.exists_run_guard (System.start .init .init)
    (System.next (fun _ _ ↦ 0) (fun _ _ ↦ 0)) Smooth sampleEvents
    (P := fun s : System sampleKeys ↦ s.delivered = List.replicate 33 5 ∧
      s.decoder.codec.curkey.map Fin.val = some 1) (by decide)
  exact ⟨s, correct_of_run _ _ _ _ (List.cons_ne_nil _ _) (by decide) hnums s ⟨_, hrun⟩,
    hdelivered⟩

/-- The last `write` accepts nothing: one byte is lost. -/
theorem not_correct_shortWrite :
    ¬ ∀ (keys : List Key) (behind behind' : Fin keys.length → Mem) (coder decoder : Codec keys)
        (s : System keys), keys ≠ [] → (∀ key ∈ keys, 33 ≤ key.size) →
        (keys.map Key.num).Nodup → (system behind behind' coder decoder).Reachable s →
        s.Correct behind behind' := by
  intro hall
  obtain ⟨s, hrun, hwire, hdelivered⟩ := Machine.exists_run_ofNext (System.start .init .init)
    (System.next (fun _ _ ↦ 0) (fun _ _ ↦ 0))
    [.chunk [5] [8, 4, 4, 0], .read 8 0, .read 4 0, .read 4 0]
    (P := fun s : System sampleKeys ↦ s.wire = [] ∧ s.delivered ≠ s.plaintext) (by decide)
  have hcorrect := hall sampleKeys _ _ _ _ s (List.cons_ne_nil _ _) (by decide) (by decide)
    ⟨_, hrun⟩
  exact hdelivered (hcorrect.complete hwire)

/-- EAGAIN behind the first byte of the number: the decoder takes the other seven bytes and one of
the position for a number, and hangs. -/
theorem not_correct_again : ∃ s : System sampleKeys,
    (system (fun _ _ ↦ 0) (fun _ _ ↦ 0) .init .init).Reachable s ∧
      ¬ s.Correct (fun _ _ ↦ 0) (fun _ _ ↦ 0) := by
  obtain ⟨s, hrun, hrange, hhangs⟩ := Machine.exists_run_ofNext (System.start .init .init)
    (System.next (fun _ _ ↦ 0) (fun _ _ ↦ 0))
    [.chunk [5] [8, 4, 4, 1], .read 1 0, .read 0 0]
    (P := fun s : System sampleKeys ↦ (8 ≤ s.wire.length ∧ 8 ≤ s.decoder.wanted) ∧
      (s.next (fun _ _ ↦ 0) (fun _ _ ↦ 0) (.read 8 0)).isNone) (by decide)
  refine ⟨s, ⟨_, hrun⟩, fun hcorrect ↦ ?_⟩
  have hgoes := hcorrect.progress 8 0 hrange.1 hrange.2
  rw [Option.isNone_iff_eq_none.mp hhangs] at hgoes
  cases hgoes

end QNet.Qcrypt
