import QNet.Tunnel.RoundTrip

/-!
# The thread pool

With option `-w` frames and datagrams are handed to worker threads which run `zipandsend`. It has
its own packet format: an encrypted packet begins with two bytes for the length, as in `ctapudp`,
and a packet that is not encrypted has no header at all. The loop without worker threads sends and
expects a header of four bytes. `interoperates_iff` says when packets nevertheless get through in
both directions: with compression never, if that is to hold for every library whose decompression
undoes its compression. With one library the misplaced bytes would have to be a zlib stream by
coincidence (`coincidence_of_zipped`).
-/

namespace QNet.Tunnel

open Mem

/-- `zipandsend_args`. -/
structure ZipAndSendArgs where
  buf : List UInt8
  addrDest : Address
  dir : ℕ
  curKey : Key

/-- What `malloc` returned: the buffers of 2000 bytes hold anything. -/
structure Heap where
  buf : Mem
  bufaes : Mem

/-- Direction 0: a frame becomes a datagram. -/
def poolPacket (lib : Library) (cfg : Config) (heap : Heap) (key : Key) (frame : List UInt8) :
    List UInt8 :=
  let sent := if cfg.gzip then lib.zip cfg.gziplevel frame else frame
  if cfg.aes then
    let bufaes := ((heap.bufaes.store 34 sent).store 0 (List.ofFn key.sha)).store 32
      (le16 sent.length)
    let ciphertext := lib.encrypt key.key (bufaes.slice 32 (sent.length + 2))
    (bufaes.store 32 ciphertext).slice 0 (ciphertext.length + 32)
  else (heap.buf.store 0 sent).slice 0 sent.length

/-- Decryption in direction 1: the buffer and the length of the frame. A length beyond the two
buffers is undefined behaviour. -/
def poolOpen (lib : Library) (cfg : Config) (heap : Heap) (key : Key) (datagram : List UInt8) :
    Option (Mem × ℕ) :=
  let buf := heap.buf.store 0 datagram
  if cfg.aes then
    let opened := lib.decrypt key.key (buf.slice 32 (datagram.length - 32))
    let bufaes := heap.bufaes.store 32 opened.plaintext
    let cnt := bufaes.readLe16 32
    if cfg.prog ≠ .rsctapudp ∧ opened.ok = false then none
    else if 34 + cnt ≤ 2000 then some (buf.store 0 (bufaes.slice 34 cnt), cnt)
    else none
  else some (buf, datagram.length)

/-- Direction 1: a datagram becomes a frame. With compression the length handed to `unzip` is that
of the datagram. -/
def poolFrame (lib : Library) (cfg : Config) (heap : Heap) (key : Key) (datagram : List UInt8) :
    Option (List UInt8) :=
  (poolOpen lib cfg heap key datagram).bind fun opened ↦
    if cfg.gzip then
      let unzipped := lib.unzip (opened.1.slice 0 datagram.length)
      if unzipped.length ≤ 2000 then some unzipped else none
    else some (opened.1.slice 0 opened.2)

def zipandsend (lib : Library) (cfg : Config) (heap : Heap) (args : ZipAndSendArgs) :
    Option (List Effect) :=
  if args.dir = 0 then
    some [.sendto args.addrDest (poolPacket lib cfg heap args.curKey args.buf)]
  else (poolFrame lib cfg heap args.curKey args.buf).map fun frame ↦ [.write frame]

/-! ## The packets of the pool -/

/-- The key of a packet, when packets are encrypted. -/
def keyOf (cfg : Config) (key : Key) : Option Key := if cfg.aes then some key else none

/-- The bytes sent of a frame. -/
def poolPayload (lib : Library) (cfg : Config) (frame : List UInt8) : List UInt8 :=
  if cfg.gzip then lib.zip cfg.gziplevel frame else frame

/-- A packet of the pool before encryption. -/
def poolPlain (lib : Library) (cfg : Config) (frame : List UInt8) : List UInt8 :=
  if cfg.aes then le16 (poolPayload lib cfg frame).length ++ poolPayload lib cfg frame
  else poolPayload lib cfg frame

theorem poolPacket_eq (lib : Library) (cfg : Config) (heap : Heap) (key : Key)
    (frame : List UInt8) :
    poolPacket lib cfg heap key frame =
      wirePacket lib (keyOf cfg key) (poolPlain lib cfg frame) := by
  unfold poolPacket keyOf poolPlain
  rw [← poolPayload]
  generalize poolPayload lib cfg frame = sent
  cases cfg.aes with
  | false => exact holds_store heap.buf 0 sent
  | true =>
    simp only [if_true]
    set bufaes := ((heap.bufaes.store 34 sent).store 0 (List.ofFn key.sha)).store 32
      (le16 sent.length) with hbufaes
    have hsha : bufaes.Holds 0 (List.ofFn key.sha) := by
      rw [hbufaes]
      exact (holds_store _ 0 (List.ofFn key.sha)).store (.inl (by simp))
    have hplain : bufaes.Holds 32 (le16 sent.length ++ sent) := by
      rw [hbufaes, holds_append]
      refine ⟨holds_store _ 32 _, ?_⟩
      exact ((holds_store heap.bufaes 34 sent).store (.inr (by simp))).store (.inr (by simp))
    rw [slice_of_holds hplain (by simp [Nat.add_comm])]
    apply slice_of_holds
    · rw [wirePacket, holds_append, List.length_ofFn]
      exact ⟨hsha.store (.inl (by simp)), holds_store bufaes 32 _⟩
    · rw [wirePacket, List.length_append, List.length_ofFn, Nat.add_comm]

/-- Direction 1 of the pool on a packet that was encrypted under the pool's key. -/
theorem poolOpen_wirePacket (lib : Library) (cfg : Config) (heap : Heap) {key sender : Key}
    (plain : List UInt8) (haes : cfg.aes = true) (hkey : key.key = sender.key) :
    poolOpen lib cfg heap key (wirePacket lib (some sender) plain) =
      let bufaes := heap.bufaes.store 32 plain
      if 34 + bufaes.readLe16 32 ≤ 2000 then
        some ((heap.buf.store 0 (wirePacket lib (some sender) plain)).store 0
          (bufaes.slice 34 (bufaes.readLe16 32)), bufaes.readLe16 32)
      else none := by
  have hciphertext : (heap.buf.store 0 (wirePacket lib (some sender) plain)).slice 32
      ((wirePacket lib (some sender) plain).length - 32) = lib.encrypt key.key plain := by
    have hall := holds_store heap.buf 0 (wirePacket lib (some sender) plain)
    rw [wirePacket, holds_append, List.length_ofFn] at hall
    rw [hkey]
    apply slice_of_holds hall.2
    rw [wirePacket, List.length_append, List.length_ofFn, Nat.add_sub_cancel_left]
  unfold poolOpen
  simp only [haes, if_true, hciphertext, lib.decrypt_encrypt, Bool.true_eq_false, and_false,
    if_false]

/-! ## The pool and the loop -/

/-- The frames written to the TAP device. -/
def writes (effects : List Effect) : List (List UInt8) :=
  effects.filterMap fun effect ↦
    match effect with
    | .write frame => some frame
    | _ => none

theorem writes_headerEffects (flag : UInt8) (key : Bytes32) (frame : List UInt8) :
    writes (headerEffects flag key ++ [.write frame]) = [frame] := by
  unfold headerEffects
  split_ifs <;> rfl

/-- A frame sent by the pool is written by the loop at the other end. -/
def PoolToLoop (lib : Library) (pool cfg : Config) (heap : Heap) (answers : Answers) (r : Loop)
    (source : Address) (key : Key) (frame : List UInt8) : Prop :=
  ∃ packet, zipandsend lib pool heap ⟨frame, source, 0, key⟩ = some [.sendto source packet] ∧
    (net2tap lib cfg answers r source packet).map (fun next ↦ writes next.2) = some [frame]

/-- A datagram of the loop is turned back into the frame by the pool at the other end. -/
def LoopToPool (lib : Library) (pool : Config) (heap : Heap) (key : Key) (source : Address)
    (packet frame : List UInt8) : Prop :=
  zipandsend lib pool heap ⟨packet, source, 1, key⟩ = some [.write frame]

/-- What the loop takes for the payload of a packet of the pool. -/
def loopReads (lib : Library) (pool : Config) (r : Loop) (key : Key) (frame : List UInt8) :
    List UInt8 :=
  let buf := arrivedBuf lib r.buf (keyOf pool key) (poolPlain lib pool frame)
  receivedPayload (buf 0) buf (buf.readLe16 2)

/-- What the pool hands to `unzip` of a packet of the loop with number `pnum`. -/
def poolReads (lib : Library) (pool : Config) (heap : Heap) (pnum : UInt8)
    (packet frame : List UInt8) : List UInt8 :=
  let bufaes := heap.bufaes.store 32 (pheader 0 pnum (poolPayload lib pool frame).length ++
    poolPayload lib pool frame)
  let buf := heap.buf.store 0 packet
  if pool.aes then (buf.store 0 (bufaes.slice 34 (256 * pnum.toNat))).slice 0 packet.length
  else packet

theorem poolToLoop_iff {lib : Library} {pool cfg : Config} {heap : Heap} {answers : Answers}
    {r : Loop} {source addr : Address} {key : Key} {frame : List UInt8}
    (hprog : cfg.prog ≠ .ctapudp) (haes : pool.aes = cfg.aes) (hgzip : pool.gzip = cfg.gzip)
    (hframe : frame.length ≤ 1518) (hshared : SharedKey (keyOf pool key) r)
    (hsource : acceptAddress cfg r source = some addr) :
    PoolToLoop lib pool cfg heap answers r source key frame ↔
      (if pool.gzip then lib.unzip (loopReads lib pool r key frame)
        else loopReads lib pool r key frame) = frame := by
  have hlength : (poolPlain lib pool frame).length ≤ 1900 := by
    have hzip := lib.length_zip pool.gziplevel frame
    unfold poolPlain poolPayload
    cases pool.aes <;> cases pool.gzip <;> simp <;> omega
  have hkey : (keyOf pool key).isSome = cfg.aes := by
    rw [← haes, keyOf]
    cases pool.aes <;> rfl
  have hplain : cfg.aes = true → poolPlain lib pool frame ≠ [] := by
    intro h
    rw [← haes] at h
    rw [poolPlain, if_pos h]
    exact List.append_ne_nil_of_left_ne_nil (List.cons_ne_nil _ _) _
  obtain ⟨cnt, hreceived⟩ :=
    net2tap_wirePacket lib answers hprog hkey hshared hsource hplain hlength
  have hsent (packet : List UInt8) :
      zipandsend lib pool heap ⟨frame, source, 0, key⟩ = some [.sendto source packet] ↔
        packet = wirePacket lib (keyOf pool key) (poolPlain lib pool frame) := by
    rw [zipandsend, if_pos rfl, ← poolPacket_eq lib pool heap]
    simp [eq_comm]
  unfold PoolToLoop
  simp only [hsent, exists_eq_left, hreceived, Option.map_some, deliver_effects hprog,
    writes_headerEffects]
  rw [Option.some_inj, List.singleton_inj, hgzip]
  rfl

/-- The bytes the pool finds when it has decrypted a packet of the loop. -/
theorem bufaes_of_plain (heap : Heap) (pnum : UInt8) (sent : List UInt8) :
    (heap.bufaes.store 32 (pheader 0 pnum sent.length ++ sent)).readLe16 32 = 256 * pnum.toNat ∧
      (heap.bufaes.store 32 (pheader 0 pnum sent.length ++ sent)).Holds 34
        (le16 sent.length ++ sent) := by
  have hall := holds_store heap.bufaes 32 (pheader 0 pnum sent.length ++ sent)
  rw [pheader, List.append_assoc, holds_append] at hall
  obtain ⟨hstart, hrest⟩ := hall
  rw [pheader, List.append_assoc]
  refine ⟨?_, hrest⟩
  have hflag := hstart.apply (i := 0) (by simp)
  have hpnum := hstart.apply (i := 1) (by simp)
  simp only [Nat.add_zero, List.getElem_cons_zero, List.getElem_cons_succ] at hflag hpnum
  rw [readLe16, hflag, hpnum]
  simp

/-- What direction 1 makes of the opened datagram, in terms of the frame it should become. -/
theorem poolFrame_eq_some_iff {lib : Library} {pool : Config} {heap : Heap} {key : Key}
    {datagram frame : List UInt8} (hframe : frame.length ≤ 1518) :
    poolFrame lib pool heap key datagram = some frame ↔
      ∃ opened, poolOpen lib pool heap key datagram = some opened ∧
        (if pool.gzip then lib.unzip (opened.1.slice 0 datagram.length)
          else opened.1.slice 0 opened.2) = frame := by
  rw [poolFrame, Option.bind_eq_some_iff]
  refine exists_congr fun opened ↦ and_congr Iff.rfl ?_
  cases pool.gzip with
  | false => simp
  | true =>
    simp only [if_true]
    constructor
    · intro h
      split_ifs at h
      exact Option.some.inj h
    · rintro rfl
      rw [if_pos (by omega)]

theorem loopToPool_iff {lib : Library} {pool : Config} {heap : Heap} {source : Address}
    {key : Key} {sender : Option Key} {pnum : UInt8} {frame packet : List UInt8}
    (hsome : sender.isSome = pool.aes) (hkey : ∀ k ∈ sender, key.key = k.key)
    (hframe : frame.length ≤ 1518)
    (hpacket : packet = wirePacket lib sender (pheader 0 pnum (poolPayload lib pool frame).length ++
      poolPayload lib pool frame)) :
    LoopToPool lib pool heap key source packet frame ↔
      (pool.aes = true → 34 + 256 * pnum.toNat ≤ 2000) ∧
        if pool.gzip then lib.unzip (poolReads lib pool heap pnum packet frame) = frame
        else pool.aes = true ∧
          (heap.bufaes.store 32 (pheader 0 pnum frame.length ++ frame)).slice 34
            (256 * pnum.toNat) = frame := by
  have hread : (heap.buf.store 0 packet).slice 0 packet.length = packet := holds_store _ 0 packet
  have hsent : LoopToPool lib pool heap key source packet frame ↔
      poolFrame lib pool heap key packet = some frame := by
    rw [LoopToPool, zipandsend, if_neg one_ne_zero]
    simp
  rw [hsent, poolFrame_eq_some_iff hframe]
  cases sender with
  | none =>
    have haes : pool.aes = false := hsome.symm
    simp only [poolOpen, poolReads, haes, Bool.false_eq_true, if_false, Option.some.injEq,
      exists_eq_left', hread, false_imp_iff, true_and, false_and]
    cases hgzip : pool.gzip with
    | true => simp
    | false =>
      -- Without encryption the pool writes the header too.
      simp only [Bool.false_eq_true, if_false, iff_false]
      rintro rfl
      have hlength := congrArg List.length hpacket
      rw [poolPayload, hgzip, if_neg Bool.false_ne_true, wirePacket, List.length_append,
        length_pheader] at hlength
      omega
  | some sender =>
    have haes : pool.aes = true := hsome.symm
    have hlength := (bufaes_of_plain heap pnum (poolPayload lib pool frame)).1
    rw [hpacket, poolOpen_wirePacket lib pool heap _ haes (hkey sender rfl), ← hpacket]
    simp only [hlength, haes, true_imp_iff, true_and]
    by_cases hroom : 34 + 256 * pnum.toNat ≤ 2000
    · simp only [hroom, if_true, Option.some.injEq, exists_eq_left', true_and]
      cases hgzip : pool.gzip with
      | true => simp [poolReads, haes]
      | false =>
        simp only [Bool.false_eq_true, if_false, poolPayload, hgzip]
        rw [slice_of_holds (holds_store _ 0 _) (by simp)]
    · simp [hroom]

/-- A frame of this form is repetitions of its own length field. -/
def RepeatsLength (pnum : UInt8) (frame : List UInt8) : Prop :=
  frame.length = 256 * pnum.toNat ∧
    ∀ i (h : i < frame.length), frame[i] = if i % 2 = 0 then 0 else pnum

/-- The bytes from the length field on, as far as the frame repeats its length. -/
theorem lengthField_apply {m : Mem} {off : ℕ} {pnum : UInt8} {frame : List UInt8}
    (hm : m.Holds off (le16 frame.length ++ frame)) (hlength : frame.length = 256 * pnum.toNat)
    {i : ℕ} (hi : i < frame.length + 2)
    (hbefore : ∀ j (h : j < frame.length), j < i → frame[j] = if j % 2 = 0 then 0 else pnum) :
    m (off + i) = if i % 2 = 0 then 0 else pnum := by
  have hpnum := pnum.toNat_lt
  have hbyte := hm.apply (i := i) (by rw [List.length_append, length_le16]; omega)
  have hfield : le16 frame.length = [0, pnum] := by
    have hhigh : UInt8.ofNat (256 * pnum.toNat / 256) = pnum := by
      rw [Nat.mul_div_cancel_left _ (by decide), UInt8.ofNat_toNat]
    have hlow : UInt8.ofNat (256 * pnum.toNat) = 0 := by
      apply UInt8.toNat_inj.mp
      rw [UInt8.toNat_ofNat']
      simp
    rw [le16, hlength, hhigh, hlow]
  rw [hbyte]
  simp only [hfield]
  rcases i with _ | _ | i
  · rfl
  · rfl
  · simp only [List.cons_append, List.nil_append, List.getElem_cons_succ]
    rw [hbefore i (by omega) (by omega)]
    congr 1
    rw [Nat.add_assoc, Nat.add_mod_right]

/-- What follows the number of the packet is the frame itself only when it repeats its length. -/
theorem slice_length_iff {m : Mem} {off : ℕ} {pnum : UInt8} {frame : List UInt8}
    (hm : m.Holds off (le16 frame.length ++ frame)) :
    m.slice off (256 * pnum.toNat) = frame ↔ RepeatsLength pnum frame := by
  rw [slice_eq_iff]
  refine and_congr_right fun hlength ↦ ⟨fun hslice ↦ ?_, fun hrepeats ↦ ?_⟩
  · intro i
    induction i using Nat.strong_induction_on with
    | h i ih =>
      intro hi
      rw [← hslice i hi]
      exact lengthField_apply hm hlength (by omega) fun j hj hlt ↦ ih j hlt hj
  · intro i hi
    rw [hrepeats i hi]
    exact lengthField_apply hm hlength (by omega) fun j hj _ ↦ hrepeats j hj

/-- A frame that repeats its length is what the loop reads from a packet of the pool when the two
bytes behind the packet, the ends of the ciphertext, go on with the repetition. -/
theorem loopReads_of_repeats {lib : Library} {pool : Config} {r : Loop} {key : Key}
    {pnum : UInt8} {frame : List UInt8} (haes : pool.aes = true) (hgzip : pool.gzip = false)
    (hpos : 0 < frame.length) (hrepeats : RepeatsLength pnum frame) :
    loopReads lib pool r key frame = frame ↔
      (wirePacket lib (some key) (poolPlain lib pool frame))[frame.length + 34]? = some 0 ∧
        (wirePacket lib (some key) (poolPlain lib pool frame))[frame.length + 35]? = some pnum := by
  have hplain : poolPlain lib pool frame = le16 frame.length ++ frame := by
    simp [poolPlain, poolPayload, haes, hgzip]
  have hlength := hrepeats.1
  have hpacket := length_wirePacket_some lib key (poolPlain lib pool frame)
  have hsize : (poolPlain lib pool frame).length = frame.length + 2 := by
    rw [hplain, List.length_append, length_le16, Nat.add_comm]
  have hholds := arrivedBuf_holds lib r.buf (some key) (poolPlain lib pool frame)
  have hbehind {i : ℕ} (hi : i = frame.length + 2 ∨ i = frame.length + 3) :
      some (arrivedBuf lib r.buf (some key) (poolPlain lib pool frame) i) =
        (wirePacket lib (some key) (poolPlain lib pool frame))[i + 32]? := by
    rw [List.getElem?_eq_getElem (by omega)]
    exact congrArg some (openedBuf_of_lt r.buf (by omega) (by omega))
  have hfirst := hbehind (.inl rfl)
  have hsecond := hbehind (.inr rfl)
  have hreads : loopReads lib pool r key frame =
      receivedPayload (arrivedBuf lib r.buf (some key) (poolPlain lib pool frame) 0)
        (arrivedBuf lib r.buf (some key) (poolPlain lib pool frame))
        ((arrivedBuf lib r.buf (some key) (poolPlain lib pool frame)).readLe16 2) := by
    simp only [loopReads, keyOf, haes, if_true]
  rw [hreads, ← hfirst, ← hsecond]
  generalize arrivedBuf lib r.buf (some key) (poolPlain lib pool frame) = m at hholds ⊢
  rw [hplain] at hholds
  have hbyte {i : ℕ} (hi : i < frame.length + 2) : m i = if i % 2 = 0 then 0 else pnum := by
    have happly := lengthField_apply hholds hlength hi fun j hj _ ↦ hrepeats.2 j hj
    rwa [Nat.zero_add] at happly
  have hflag : m 0 = 0 := hbyte (by omega)
  have hread : m.readLe16 2 = frame.length := by
    rw [readLe16, hbyte (by omega), hbyte (by omega), hlength]
    simp
  rw [hflag, hread, receivedPayload, if_neg (by decide), slice_eq_iff, Option.some_inj,
    Option.some_inj]
  simp only [true_and]
  constructor
  · intro hslice
    have hn2 := hslice (frame.length - 2) (by omega)
    have hn1 := hslice (frame.length - 1) (by omega)
    rw [hrepeats.2 _ (by omega), if_pos (by omega)] at hn2
    rw [hrepeats.2 _ (by omega), if_neg (by omega)] at hn1
    rw [show 4 + (frame.length - 2) = frame.length + 2 by omega] at hn2
    rw [show 4 + (frame.length - 1) = frame.length + 3 by omega] at hn1
    exact ⟨hn2, hn1⟩
  · rintro ⟨hn2, hn1⟩ i hi
    rw [hrepeats.2 i hi]
    rcases Nat.lt_or_ge (4 + i) (frame.length + 2) with hlt | hge
    · rw [hbyte hlt, show (4 + i) % 2 = i % 2 by omega]
    · rcases Nat.lt_or_eq_of_le hge with hgt | heq
      · rw [show 4 + i = frame.length + 3 by omega, hn1, if_neg (by omega)]
      · rw [← heq, hn2, if_pos (by omega)]

/-! ## Compressed packets -/

/-- The first byte of a zlib stream names the compression method, which is 8. -/
def BeginsZlib (bytes : List UInt8) : Prop := ∃ cmf ∈ bytes.head?, cmf % 16 = 8

/-- What the programs rely on of `compress2` and `uncompress`. -/
structure Library.Zlib (lib : Library) : Prop where
  unzip_zip : ∀ level bytes, bytes.length ≤ 1518 → lib.unzip (lib.zip level bytes) = bytes
  /-- Bytes that do not begin like a stream are refused, and nothing is written. -/
  refuses : ∀ bytes, ¬ BeginsZlib bytes → lib.unzip bytes = []
  /-- A frame is compressed in one block, which says in the third byte that it is the last. -/
  lastBlock : ∀ level bytes, bytes.length ≤ 1518 →
    ∃ block ∈ (lib.zip level bytes)[2]?, block % 2 = 1

/-- A frame is not empty, so its bytes begin like a stream. -/
theorem Library.Zlib.begins {lib : Library} (hlib : lib.Zlib) {bytes frame : List UInt8}
    (hpos : 0 < frame.length) (hunzip : lib.unzip bytes = frame) : BeginsZlib bytes := by
  by_contra hbegins
  rw [hlib.refuses bytes hbegins] at hunzip
  rw [← hunzip] at hpos
  exact absurd hpos (lt_irrefl 0)

theorem beginsZlib_slice {m : Mem} {off n : ℕ} (h : BeginsZlib (m.slice off n)) :
    m off % 16 = 8 := by
  obtain ⟨cmf, hcmf, hmethod⟩ := h
  cases n with
  | zero => cases hcmf
  | succ n =>
    have hfirst : (m.slice off (n + 1)).head? = some (m off) := by
      simp [Mem.slice, List.ofFn_succ]
    rw [hfirst] at hcmf
    rwa [Option.some.inj hcmf]

/-- The loop takes the first byte of the first block for the beginning of the stream, unless the
length of the compressed frame has the low byte 2, which it takes for flag 2. -/
theorem length_mod_of_loopReads {lib : Library} (hlib : lib.Zlib) {pool : Config} {r : Loop}
    {key : Key} {frame : List UInt8} (haes : pool.aes = true) (hgzip : pool.gzip = true)
    (hpos : 0 < frame.length) (hmax : frame.length ≤ 1518)
    (hunzip : lib.unzip (loopReads lib pool r key frame) = frame) :
    (poolPayload lib pool frame).length % 256 = 2 := by
  have hplain : poolPlain lib pool frame =
      le16 (poolPayload lib pool frame).length ++ poolPayload lib pool frame := by
    rw [poolPlain, if_pos haes]
  have hholds := arrivedBuf_holds lib r.buf (keyOf pool key) (poolPlain lib pool frame)
  have hbegins := hlib.begins hpos hunzip
  simp only [loopReads] at hbegins
  generalize arrivedBuf lib r.buf (keyOf pool key) (poolPlain lib pool frame) = m at hholds hbegins
  rw [hplain] at hholds
  have hflag : m 0 = UInt8.ofNat (poolPayload lib pool frame).length :=
    hholds.apply (i := 0) (by rw [List.length_append, length_le16]; omega)
  by_cases htwo : m 0 = 2
  · have hlow := congrArg UInt8.toNat (hflag.symm.trans htwo)
    rwa [UInt8.toNat_ofNat'] at hlow
  · -- The third byte of the compressed frame is odd and does not name the method.
    obtain ⟨block, hblock, hodd⟩ := hlib.lastBlock pool.gziplevel frame hmax
    rw [receivedPayload, if_neg htwo] at hbegins
    have hmethod := beginsZlib_slice hbegins
    obtain ⟨hlt, hget⟩ := List.getElem?_eq_some_iff.mp hblock
    have hpayload : poolPayload lib pool frame = lib.zip pool.gziplevel frame := by
      rw [poolPayload, if_pos hgzip]
    have hfourth : m 4 = block := by
      rw [← hget]
      rw [hpayload] at hholds
      exact hholds.apply (i := 4) (by rw [List.length_append, length_le16]; omega)
    rw [hfourth] at hmethod
    have hodd' := congrArg UInt8.toNat hodd
    have hmethod' := congrArg UInt8.toNat hmethod
    simp only [UInt8.toNat_mod, UInt8.reduceToNat] at hodd' hmethod'
    omega

/-- The pool reads the header of a packet that is not encrypted, whose first byte is the flag. -/
theorem aes_of_poolReads {lib : Library} (hlib : lib.Zlib) {pool : Config} {heap : Heap}
    {sender : Option Key} {pnum : UInt8} {packet frame : List UInt8}
    (hsome : sender.isSome = pool.aes) (hpos : 0 < frame.length)
    (hpacket : packet = wirePacket lib sender (pheader 0 pnum (poolPayload lib pool frame).length ++
      poolPayload lib pool frame))
    (hunzip : lib.unzip (poolReads lib pool heap pnum packet frame) = frame) :
    pool.aes = true := by
  by_contra haes
  rw [Bool.not_eq_true] at haes
  have hnone : sender = none := by
    rw [haes] at hsome
    simpa using hsome
  obtain ⟨cmf, hcmf, hmethod⟩ := hlib.begins hpos hunzip
  simp only [poolReads, haes, Bool.false_eq_true, if_false, hpacket, hnone] at hcmf
  obtain rfl : 0 = cmf := Option.some.inj hcmf
  exact absurd hmethod (by decide)

/-- Behind a packet number that is not zero the pool reads the length of the compressed frame; with
the packet number zero it reads the datagram. -/
theorem pnum_of_poolReads {lib : Library} (hlib : lib.Zlib) {pool : Config} {heap : Heap}
    {pnum : UInt8} {packet frame : List UInt8} (haes : pool.aes = true) (hpos : 0 < frame.length)
    (hlow : (poolPayload lib pool frame).length % 256 = 2)
    (hunzip : lib.unzip (poolReads lib pool heap pnum packet frame) = frame) : pnum = 0 := by
  by_contra hpnum
  have hmany : 0 < 256 * pnum.toNat := by
    have hne : pnum.toNat ≠ 0 := fun hzero ↦ hpnum (UInt8.toNat_inj.mp hzero)
    omega
  have hbegins := hlib.begins hpos hunzip
  simp only [poolReads, haes, if_true] at hbegins
  have hfirst := beginsZlib_slice hbegins
  have hlength := (bufaes_of_plain heap pnum (poolPayload lib pool frame)).2.apply (i := 0)
    (by rw [List.length_append, length_le16]; omega)
  generalize heap.bufaes.store 32 _ = bufaes at hfirst hlength
  have hcopied : (heap.buf.store 0 packet).store 0 (bufaes.slice 34 (256 * pnum.toNat)) 0 =
      bufaes 34 := by
    rw [store_slice_apply, if_pos ⟨le_rfl, by omega⟩]
  rw [hcopied, hlength] at hfirst
  -- The low byte of the length is 2.
  have hlow' := congrArg UInt8.toNat hfirst
  simp only [le16, List.cons_append, List.getElem_cons_zero, UInt8.toNat_mod, UInt8.toNat_ofNat',
    UInt8.reduceToNat] at hlow'
  omega

theorem poolReads_zero (lib : Library) {pool : Config} (heap : Heap) (packet frame : List UInt8) :
    poolReads lib pool heap 0 packet frame = packet := by
  unfold poolReads
  cases pool.aes with
  | false => rfl
  | true =>
    have hnothing (m : Mem) (bufaes : Mem) : m.store 0 (bufaes.slice 34 0) = m := by
      funext p
      exact store_of_ge (by simp)
    simp only [if_true, UInt8.toNat_zero, Nat.mul_zero, hnothing]
    exact holds_store heap.buf 0 packet

/-! ## A library for which no compressed packet gets through -/

/-- The checksum at the end of a zlib stream. -/
def adler32 (bytes : List UInt8) : ℕ × ℕ :=
  bytes.foldl (fun sums byte ↦
    ((sums.1 + byte.toNat) % 65521, (sums.2 + sums.1 + byte.toNat) % 65521)) (1, 0)

/-- What `compress2` writes with level 0: one stored block. -/
def storedStream (bytes : List UInt8) : List UInt8 :=
  [120, 1, 1] ++ le16 bytes.length ++ le16 (65535 - bytes.length) ++ bytes ++
    (le16 (adler32 bytes).2).reverse ++ (le16 (adler32 bytes).1).reverse

/-- `uncompress` on streams of this kind. -/
def readStored (bytes : List UInt8) : List UInt8 :=
  let stored := (bytes.drop 7).take ((bytes.getD 3 0).toNat + 256 * (bytes.getD 4 0).toNat)
  if storedStream stored <+: bytes then stored else []

theorem length_storedStream (bytes : List UInt8) :
    (storedStream bytes).length = bytes.length + 11 := by
  simp only [storedStream, List.length_append, List.length_reverse, length_le16,
    List.length_cons, List.length_nil]
  omega

/-- The library with the same cipher that stores. Where the length would have the low byte 2, a
byte follows that is not read. -/
def Library.stored (lib : Library) : Library where
  toCipher := lib.toCipher
  sha256 := lib.sha256
  zip _ bytes := storedStream bytes ++ if bytes.length % 256 = 247 then [0] else []
  unzip := readStored
  length_zip _ bytes := by
    rw [List.length_append, length_storedStream]
    split_ifs <;> simp only [List.length_cons, List.length_nil] <;> omega

@[simp]
theorem Library.zip_stored (lib : Library) (level : ℤ) (bytes : List UInt8) :
    lib.stored.zip level bytes =
      storedStream bytes ++ if bytes.length % 256 = 247 then [0] else [] := rfl

@[simp]
theorem Library.unzip_stored (lib : Library) (bytes : List UInt8) :
    lib.stored.unzip bytes = readStored bytes := rfl

theorem readStored_append {bytes : List UInt8} (hlength : bytes.length < 65536)
    (rest : List UInt8) : readStored (storedStream bytes ++ rest) = bytes := by
  have hfield : ((storedStream bytes ++ rest).getD 3 0).toNat +
      256 * ((storedStream bytes ++ rest).getD 4 0).toNat = bytes.length := by
    simp only [storedStream, le16, List.cons_append, List.nil_append, List.getD_cons_succ,
      List.getD_cons_zero, UInt8.toNat_ofNat']
    omega
  have hstored : ((storedStream bytes ++ rest).drop 7).take bytes.length = bytes := by
    simp [storedStream, le16]
  rw [readStored, hfield, hstored, if_pos (List.prefix_append _ _)]

theorem zlib_stored (lib : Library) : lib.stored.Zlib where
  unzip_zip level bytes hlength := by
    rw [lib.unzip_stored, lib.zip_stored, readStored_append (by omega)]
  refuses bytes hbegins := by
    rw [lib.unzip_stored]
    refine if_neg fun hstream ↦ hbegins ?_
    obtain ⟨rest, hrest⟩ := hstream
    exact ⟨120, by rw [← hrest]; rfl, by decide⟩
  lastBlock _ bytes _ := ⟨1, rfl, by decide⟩

theorem length_zip_stored (lib : Library) (level : ℤ) (bytes : List UInt8) :
    (lib.stored.zip level bytes).length % 256 ≠ 2 := by
  rw [lib.zip_stored, List.length_append, length_storedStream]
  split_ifs <;> simp only [List.length_cons, List.length_nil] <;> omega

/-- Without encryption the loop looks for a stream from the high byte of the block's length on. -/
theorem aes_of_stored {lib : Library} {pool : Config} {r : Loop} {key : Key}
    {frame : List UInt8} (hgzip : pool.gzip = true) (hpos : 0 < frame.length)
    (hmax : frame.length ≤ 1518)
    (hunzip : lib.stored.unzip (loopReads lib.stored pool r key frame) = frame) :
    pool.aes = true := by
  by_contra haes
  rw [Bool.not_eq_true] at haes
  have hplain : poolPlain lib.stored pool frame =
      storedStream frame ++ if frame.length % 256 = 247 then [0] else [] := by
    simp only [poolPlain, poolPayload, haes, hgzip, Bool.false_eq_true, if_false, if_true,
      lib.zip_stored]
  have hbegins := (zlib_stored lib).begins hpos hunzip
  have hholds := arrivedBuf_holds lib.stored r.buf (keyOf pool key)
    (poolPlain lib.stored pool frame)
  simp only [loopReads] at hbegins
  generalize arrivedBuf lib.stored r.buf (keyOf pool key) (poolPlain lib.stored pool frame) = m
    at hholds hbegins
  rw [hplain, holds_append] at hholds
  have hsize := length_storedStream frame
  have hfirst : m 0 = 120 := hholds.1.apply (i := 0) (by omega)
  have hhigh : m 4 = UInt8.ofNat (frame.length / 256) := hholds.1.apply (i := 4) (by omega)
  rw [receivedPayload, hfirst, if_neg (by decide)] at hbegins
  have hmethod := congrArg UInt8.toNat (beginsZlib_slice hbegins)
  rw [hhigh] at hmethod
  simp only [UInt8.toNat_mod, UInt8.toNat_ofNat', UInt8.reduceToNat] at hmethod
  omega

/-! ## When packets get through -/

/-- The datagrams that pool and loop send of a frame are both turned back into it. -/
def GetsThrough (lib : Library) (pool cfg : Config) (heap : Heap) (answers answers' : Answers)
    (s r : Loop) (source : Address) (key : Key) (frame : List UInt8) : Prop :=
  PoolToLoop lib pool cfg heap answers' r source key frame ∧
    ∀ s' dest packet, tap2net lib cfg answers s frame = some (s', [.sendto dest packet]) →
      LoopToPool lib pool heap key source packet frame

/-- They are with every library that compresses and decompresses as assumed. -/
def Interoperates (lib : Library) (pool cfg : Config) (heap : Heap) (answers answers' : Answers)
    (s r : Loop) (source : Address) (key : Key) (frame : List UInt8) : Prop :=
  ∀ zlib : Library, zlib.Zlib → zlib.toCipher = lib.toCipher → zlib.sha256 = lib.sha256 →
    GetsThrough zlib pool cfg heap answers answers' s r source key frame

/-- Pool and loop understand each other about a frame only in encrypted packets without
compression, when the frame repeats its length and the packet of the pool ends accordingly. -/
def Interoperable (lib : Library) (pool : Config) (key : Key) (pnum : UInt8)
    (frame : List UInt8) : Prop :=
  let packet := wirePacket lib (some key) (poolPlain lib pool frame)
  pool.aes = true ∧ pool.gzip = false ∧ RepeatsLength pnum frame ∧
    packet[frame.length + 34]? = some 0 ∧ packet[frame.length + 35]? = some pnum

/-- The condition depends on the cipher alone. -/
theorem interoperable_congr {lib zlib : Library} {pool : Config} {key : Key} {pnum : UInt8}
    {frame : List UInt8} (hplain : pool.gzip = false) (hcipher : zlib.toCipher = lib.toCipher) :
    Interoperable zlib pool key pnum frame ↔ Interoperable lib pool key pnum frame := by
  simp only [Interoperable, wirePacket, poolPlain, poolPayload, hplain, Bool.false_eq_true,
    if_false, hcipher]

/-- What the loop sends with flag 0, in the terms of the pool. -/
theorem sentPlain {lib : Library} {pool cfg : Config} {answers : Answers} {s s' : Loop}
    {frame : TapFrame} {packet : List UInt8} {dest : Address} (hprog : cfg.prog ≠ .ctapudp)
    (hgzip : pool.gzip = cfg.gzip) (hlevel : pool.gzip = true → pool.gziplevel = cfg.gziplevel)
    (hsend : tap2net lib cfg answers s frame.bytes = some (s', [.sendto dest packet]))
    (hflag : headerFlag cfg s.keys = some 0) :
    (packetKey lib cfg answers s).isSome = cfg.aes ∧
      packet = wirePacket lib (packetKey lib cfg answers s)
        (pheader 0 s.curpakagenum (poolPayload lib pool frame.bytes).length ++
          poolPayload lib pool frame.bytes) := by
  obtain ⟨hsome, flag, hflag', hpacket⟩ := tap2net_sent hprog hsend
  obtain rfl : 0 = flag := Option.some.inj (hflag.symm.trans hflag')
  have hpayload : payload lib cfg frame.bytes = poolPayload lib pool frame.bytes := by
    rw [payload, poolPayload, ← hgzip, List.take_of_length_le frame.length_le]
    cases hzip : pool.gzip with
    | true => rw [hlevel hzip]
    | false => rfl
  rw [framePlain, plainPacket, if_neg (by decide), hpayload] at hpacket
  exact ⟨hsome, hpacket⟩

theorem loopToPool_plain_iff {lib : Library} {pool cfg : Config} {heap : Heap}
    {answers : Answers} {s s' : Loop} (frame : TapFrame) {packet : List UInt8}
    {dest source : Address} {key : Key} (hprog : cfg.prog ≠ .ctapudp)
    (haes : pool.aes = cfg.aes) (hgzip : pool.gzip = cfg.gzip) (hplain : pool.gzip = false)
    (hsend : tap2net lib cfg answers s frame.bytes = some (s', [.sendto dest packet]))
    (hflag : headerFlag cfg s.keys = some 0)
    (hkey : ∀ sender ∈ packetKey lib cfg answers s, key.key = sender.key) :
    LoopToPool lib pool heap key source packet frame.bytes ↔
      pool.aes = true ∧ RepeatsLength s.curpakagenum frame.bytes := by
  obtain ⟨hsome, hpacket⟩ := sentPlain hprog hgzip
    (fun hzip ↦ absurd (hzip.symm.trans hplain) (by decide)) hsend hflag
  rw [loopToPool_iff (hsome.trans haes.symm) hkey frame.length_le hpacket]
  have hholds := (bufaes_of_plain heap s.curpakagenum frame.bytes).2
  simp only [hplain, Bool.false_eq_true, if_false, slice_length_iff hholds]
  constructor
  · rintro ⟨-, hreads⟩
    exact hreads
  · rintro ⟨hon, hrepeats⟩
    have hlength := hrepeats.1
    have hmax := frame.length_le
    exact ⟨fun _ ↦ by omega, hon, hrepeats⟩

/-- For every frame, key and content of the buffers: the packets get through in both directions,
with every library, exactly when pool and loop understand each other about the frame. -/
theorem interoperates_iff {lib : Library} {pool cfg : Config} {heap : Heap}
    {answers answers' : Answers} {s s' r : Loop} (frame : TapFrame) {packet : List UInt8}
    {dest source addr : Address} {key : Key} (hprog : cfg.prog ≠ .ctapudp)
    (haes : pool.aes = cfg.aes) (hgzip : pool.gzip = cfg.gzip) (hlib : lib.Zlib)
    (hsend : tap2net lib cfg answers s frame.bytes = some (s', [.sendto dest packet]))
    (hflag : headerFlag cfg s.keys = some 0)
    (hkey : ∀ sender ∈ packetKey lib cfg answers s, key.key = sender.key)
    (hshared : SharedKey (keyOf pool key) r) (hsource : acceptAddress cfg r source = some addr) :
    Interoperates lib pool cfg heap answers answers' s r source key frame.bytes ↔
      Interoperable lib pool key s.curpakagenum frame.bytes := by
  cases hzip : pool.gzip with
  | true =>
    have hnever : ¬ Interoperable lib pool key s.curpakagenum frame.bytes := by
      rintro ⟨-, hplain, -⟩
      rw [hzip] at hplain
      cases hplain
    rw [iff_false_right hnever]
    intro hall
    have hpool := (hall lib.stored (zlib_stored lib) rfl rfl).1
    rw [poolToLoop_iff hprog haes hgzip frame.length_le hshared hsource, hzip, if_pos rfl] at hpool
    have hon := aes_of_stored hzip frame.length_pos frame.length_le hpool
    have hlow := length_mod_of_loopReads (zlib_stored lib) hon hzip frame.length_pos
      frame.length_le hpool
    rw [poolPayload, hzip, if_pos rfl] at hlow
    exact length_zip_stored lib pool.gziplevel frame.bytes hlow
  | false =>
    have hpools (zlib : Library) :
        PoolToLoop zlib pool cfg heap answers' r source key frame.bytes ↔
          loopReads zlib pool r key frame.bytes = frame.bytes := by
      rw [poolToLoop_iff hprog haes hgzip frame.length_le hshared hsource, hzip,
        if_neg Bool.false_ne_true]
    constructor
    · intro hall
      obtain ⟨hpool, hloop⟩ := hall lib hlib rfl rfl
      obtain ⟨hon, hrepeats⟩ := (loopToPool_plain_iff frame hprog haes hgzip hzip hsend hflag
        hkey).mp (hloop s' dest packet hsend)
      exact ⟨hon, hzip, hrepeats, (loopReads_of_repeats hon hzip frame.length_pos hrepeats).mp
        ((hpools lib).mp hpool)⟩
    · intro hinter zlib _ hcipher hsha
      have hkey' : ∀ sender ∈ packetKey zlib cfg answers s, key.key = sender.key := by
        rwa [packetKey, hsha]
      obtain ⟨hon, -, hrepeats, hends⟩ := (interoperable_congr hzip hcipher).mpr hinter
      refine ⟨(hpools zlib).mpr
        ((loopReads_of_repeats hon hzip frame.length_pos hrepeats).mpr hends), ?_⟩
      intro s'' dest' packet' hsent
      exact (loopToPool_plain_iff frame hprog haes hgzip hzip hsent hflag hkey').mpr
        ⟨hon, hrepeats⟩

/-- Whatever the library, at most the encrypted packets with number 0 and a compressed frame whose
length has the low byte 2 get through, and of these only those that begin like a stream. -/
theorem coincidence_of_zipped {lib : Library} {pool cfg : Config} {heap : Heap}
    {answers answers' : Answers} {s s' r : Loop} (frame : TapFrame) {packet : List UInt8}
    {dest source addr : Address} {key : Key} (hprog : cfg.prog ≠ .ctapudp)
    (haes : pool.aes = cfg.aes) (hgzip : pool.gzip = cfg.gzip)
    (hlevel : pool.gziplevel = cfg.gziplevel) (hlib : lib.Zlib) (hzip : pool.gzip = true)
    (hsend : tap2net lib cfg answers s frame.bytes = some (s', [.sendto dest packet]))
    (hflag : headerFlag cfg s.keys = some 0)
    (hkey : ∀ sender ∈ packetKey lib cfg answers s, key.key = sender.key)
    (hshared : SharedKey (keyOf pool key) r) (hsource : acceptAddress cfg r source = some addr)
    (hpool : PoolToLoop lib pool cfg heap answers' r source key frame.bytes)
    (hloop : LoopToPool lib pool heap key source packet frame.bytes) :
    pool.aes = true ∧ s.curpakagenum = 0 ∧ (poolPayload lib pool frame.bytes).length % 256 = 2 ∧
      BeginsZlib packet := by
  obtain ⟨hsome, hpacket⟩ := sentPlain hprog hgzip (fun _ ↦ hlevel) hsend hflag
  rw [poolToLoop_iff hprog haes hgzip frame.length_le hshared hsource, hzip, if_pos rfl] at hpool
  rw [loopToPool_iff (hsome.trans haes.symm) hkey frame.length_le hpacket, hzip,
    if_pos rfl] at hloop
  have hon := aes_of_poolReads hlib (hsome.trans haes.symm) frame.length_pos hpacket hloop.2
  have hlow := length_mod_of_loopReads hlib hon hzip frame.length_pos frame.length_le hpool
  have hpnum := pnum_of_poolReads hlib hon frame.length_pos hlow hloop.2
  have hread := hloop.2
  rw [hpnum, poolReads_zero] at hread
  exact ⟨hon, hpnum, hlow, hlib.begins frame.length_pos hread⟩

def emptyHeap : Heap := ⟨fun _ ↦ 0, fun _ ↦ 0⟩

/-! ## Two packets that do not get through -/

/-- Encrypted and compressed packets. -/
def zipConfig : Config := { sampleConfig with gzip := true }

theorem not_interoperates_oneByte :
    ¬ Interoperates sampleLibrary.stored sampleConfig sampleConfig emptyHeap noAnswers noAnswers
        sampleLoop sampleLoop ⟨0, 0⟩ sampleKey oneByte.bytes ∧
      ¬ Interoperates sampleLibrary.stored zipConfig zipConfig emptyHeap noAnswers noAnswers
        sampleLoop sampleLoop ⟨0, 0⟩ sampleKey oneByte.bytes := by
  have hkey (cfg : Config) (hcfg : cfg = sampleConfig ∨ cfg = zipConfig) :
      ∀ sender ∈ packetKey sampleLibrary.stored cfg noAnswers sampleLoop,
        sampleKey.key = sender.key := by
    rcases hcfg with rfl | rfl
    all_goals
      intro sender hsender
      cases hsender
      rfl
  have hshared : SharedKey (some sampleKey) sampleLoop := by
    intro key hkey
    cases hkey
    exact ⟨sampleKey, rfl, rfl, rfl⟩
  constructor
  · have hsend : (tap2net sampleLibrary.stored sampleConfig noAnswers sampleLoop
        oneByte.bytes).map Prod.snd = some [.sendto ⟨0, 0⟩ oneBytePacket] := by decide
    obtain ⟨⟨s', _⟩, hsent, rfl⟩ := Option.map_eq_some_iff.mp hsend
    rw [interoperates_iff oneByte (by decide) rfl rfl (zlib_stored _) hsent rfl
      (hkey _ (.inl rfl)) hshared rfl]
    rintro ⟨-, -, ⟨hlength, -⟩, -⟩
    exact absurd hlength (by decide)
  · have hsend : (tap2net sampleLibrary.stored zipConfig noAnswers sampleLoop
        oneByte.bytes).map Prod.snd = some [.sendto ⟨0, 0⟩ (List.replicate 32 7 ++
          [0, 0, 12, 0, 120, 1, 1, 1, 0, 254, 255, 1, 0, 2, 0, 2] ++ List.replicate 16 16)] := by
      decide
    obtain ⟨⟨s', _⟩, hsent, rfl⟩ := Option.map_eq_some_iff.mp hsend
    rw [interoperates_iff oneByte (by decide) rfl rfl (zlib_stored _) hsent rfl
      (hkey _ (.inr rfl)) hshared rfl]
    rintro ⟨-, hplain, -⟩
    cases hplain

/-- The pool writes the header of the loop's datagram to the TAP device, before the frame. -/
theorem not_loopToPool_oneByte :
    (tap2net sampleLibrary plainConfig noAnswers sampleLoop oneByte.bytes).map Prod.snd =
        some [.sendto ⟨0, 0⟩ [0, 0, 1, 0, 1]] ∧
      headerFlag plainConfig sampleLoop.keys = some 0 ∧
      zipandsend sampleLibrary plainConfig emptyHeap ⟨[0, 0, 1, 0, 1], ⟨0, 0⟩, 1, sampleKey⟩ =
        some [.write [0, 0, 1, 0, 1]] ∧
      ¬ LoopToPool sampleLibrary plainConfig emptyHeap sampleKey ⟨0, 0⟩ [0, 0, 1, 0, 1]
        oneByte.bytes := by
  refine ⟨by decide, rfl, by decide, ?_⟩
  unfold LoopToPool
  decide

end QNet.Tunnel
