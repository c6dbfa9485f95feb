import QNet.RsTunnel.Receiver
import QNet.Tunnel.Packet
import QNet.Tunnel.Runs

/-!
# The tunnel loop with block datagrams

The loop of `rsctapudp` with option `-g`. A frame goes the way of `tap2net` up to the encrypted
packet; then the length is put before the packet, ten blocks are cut from the start of the buffer,
and every block of the group is copied behind its index to the start of the same buffer, from which
it is sent. A datagram from the net is one block; when enough blocks are there, the packet is put
together in the buffer and goes the way of `net2tap`.

The ten blocks are 1920 bytes, however short the packet is. `preparePacket_behind` says what
stands in the buffer behind an encrypted packet.
-/

namespace QNet.RsTunnel

open Mem Tunnel

/-- The options of a process; only `rsctapudp` has `-g`. -/
structure RsConfig extends Config where
  prog_eq : prog = .rsctapudp

/-- The variables of the loop. -/
structure RsLoop extends Loop where
  curnumSend : ℕ
  recv : Recv Block

/-- The process enters the loop after its first query of the keyworker; the remaining variables of
`s` are the addresses and an uninitialised buffer. -/
def RsLoop.start (lib : Library) (nextkey : Option Bytes32) (s : Loop) : RsLoop :=
  ⟨(Process.start lib nextkey s).loop, 0, Recv.init⟩

/-! ## From the TAP device to the net -/

/-- The send branch up to the packet at the start of the buffer; the last component is `tosend`. -/
def preparePacket (lib : Library) (cfg : Config) (answers : Answers) (s : Loop)
    (frame : List UInt8) : Option (Loop × ℕ × Bool) := do
  let (built, cnt) ← buildPacket lib cfg s frame
  if cfg.aes then
    let shifted := { built with buf := shiftPacket cfg.prog built.buf cnt }
    let (keys, tosend) ← chooseKey lib.sha256 cfg.haslimit answers.choose shifted.keys
    if tosend then
      keys.curKey1.map fun cur ↦
        let packet := sealPacket lib cfg.prog cur shifted.buf cnt
        let used := { keys with curKey1 := some cur.used }
        ({ shifted with keys := used, buf := packet.1 }, packet.2, true)
    else some ({ shifted with keys := keys }, cnt, false)
  else some (built, cnt, true)

/-- The bytes of a datagram. -/
def Datagram.bytes (d : Datagram Block) : List UInt8 := d.curind :: List.ofFn d.block

theorem recovery_lt (i : Fin (recoveryCount + originalCount)) :
    i - originalCount < recoveryCount := by
  have hi := i.isLt
  unfold recoveryCount originalCount at hi ⊢
  omega

/-- Block number `i` of the group with the given originals. -/
def blockAt (leo : Leopard) (originals : Fin originalCount → Block)
    (i : Fin (recoveryCount + originalCount)) : Block :=
  if h : i.val < originalCount then originals ⟨i, h⟩
  else leo.encode originals ⟨i - originalCount, recovery_lt i⟩

/-- The fourteen datagrams of a group, when the length already stands before the packet. -/
def groupDatagrams (leo : Leopard) (bufp : Mem) (curnumSend : ℕ) : List (Datagram Block) :=
  List.ofFn fun i ↦ ⟨UInt8.ofNat (curnumSend + i), blockAt leo (originalDataSend bufp) i⟩

/-- Index and block are copied to the start of the buffer and sent. -/
def sendDatagram (cfg : Config) (s : Loop) (d : Datagram Block) : Loop × List Effect :=
  sendPacket cfg { s with buf := (s.buf.store 0 [d.curind]).store 1 (List.ofFn d.block) }
    (1 + bufferBytes)

/-- The packet of `cnt` bytes at the start of the buffer is sent in blocks. -/
def sendGroup (leo : Leopard) (cfg : Config) (s : RsLoop) (cnt : ℕ) : RsLoop × List Effect :=
  let bufp := prefixLength s.buf cnt
  let sending := feed (sendDatagram cfg) { s.toLoop with buf := bufp }
    (groupDatagrams leo bufp s.curnumSend)
  ({ s with toLoop := sending.1, curnumSend := nextGroup s.curnumSend }, sending.2.flatten)

/-- One frame from the TAP device. -/
def rsTap2net (lib : Library) (leo : Leopard) (cfg : RsConfig) (answers : Answers) (s : RsLoop)
    (frame : List UInt8) : Option (RsLoop × List Effect) := do
  let (prepared, cnt, tosend) ← preparePacket lib cfg.toConfig answers s.toLoop frame
  if tosend then
    let (sending, effects) := sendGroup leo cfg.toConfig { s with toLoop := prepared } cnt
    if cfg.aes then
      let rotated ← rotateKey lib.sha256 cfg.haslimit cfg.ppk answers.rotate sending.keys
      some ({ sending with keys := rotated }, effects)
    else some (sending, effects)
  else some ({ s with toLoop := prepared }, [])

/-- What is cut in blocks: the id of the key followed by the ciphertext. -/
def encryptedPacket (lib : Library) (cfg : RsConfig) (answers : Answers) (s : RsLoop)
    (frame : List UInt8) : Option (List UInt8) :=
  (preparePacket lib cfg.toConfig answers s.toLoop frame).bind fun (prepared, cnt, tosend) ↦
    if tosend then some (prepared.buf.slice 0 cnt) else none

/-! ## What is sent -/

@[simp]
theorem length_groupDatagrams (leo : Leopard) (bufp : Mem) (curnumSend : ℕ) :
    (groupDatagrams leo bufp curnumSend).length = recoveryCount + originalCount := by
  rw [groupDatagrams, List.length_ofFn]

/-- The loop sends the blocks of its packet as `sendBlocks` does. -/
theorem groupDatagrams_eq_sendBlocks (leo : Leopard) (frame : TxFrame) (curnumSend : ℕ) :
    groupDatagrams leo (prefixLength frame.buf frame.cnt) curnumSend =
      sendBlocks leo frame curnumSend := rfl

theorem Datagram.bytes_injective : Function.Injective Datagram.bytes := by
  intro d d' h
  obtain ⟨hcurind, hblock⟩ := List.cons.inj h
  exact congr (congrArg Datagram.mk hcurind) (List.ofFn_injective hblock)

/-- A datagram is what was copied to the start of the buffer. -/
theorem sent_sendDatagram (cfg : Config) (s : Loop) (d : Datagram Block) :
    sent (sendDatagram cfg s d).2 = [d.bytes] := by
  have hbytes : ((s.buf.store 0 [d.curind]).store 1 (List.ofFn d.block)).Holds 0 d.bytes := by
    change Holds _ 0 ([d.curind] ++ List.ofFn d.block)
    rw [holds_append]
    constructor
    · exact (holds_store _ 0 _).store (.inl (by simp))
    · exact holds_store _ 1 _
  have hlength : d.bytes.length = 1 + bufferBytes := by
    rw [Datagram.bytes, List.length_cons, List.length_ofFn, Nat.add_comm]
  exact congrArg (fun packet ↦ [packet]) (slice_of_holds hbytes hlength)

theorem sent_append (first second : List Effect) :
    sent (first ++ second) = sent first ++ sent second := List.filterMap_append

theorem sent_feed (cfg : Config) (s : Loop) (datagrams : List (Datagram Block)) :
    sent (feed (sendDatagram cfg) s datagrams).2.flatten = datagrams.map Datagram.bytes := by
  induction datagrams generalizing s with
  | nil => rfl
  | cons d rest ih =>
    rw [feed_cons, List.flatten_cons, sent_append, sent_sendDatagram, ih]
    rfl

theorem sent_sendGroup (leo : Leopard) (cfg : Config) (s : RsLoop) (cnt : ℕ) :
    sent (sendGroup leo cfg s cnt).2 =
      (groupDatagrams leo (prefixLength s.buf cnt) s.curnumSend).map Datagram.bytes :=
  sent_feed cfg _ _

/-- The ten blocks are the first 1920 bytes, and the recovery blocks follow from them. -/
theorem groupDatagrams_eq_iff {leo : Leopard} {bufp bufp' : Mem} {curnumSend : ℕ} :
    groupDatagrams leo bufp curnumSend = groupDatagrams leo bufp' curnumSend ↔
      ∀ p < originalCount * bufferBytes, bufp p = bufp' p := by
  constructor
  · intro h p hp
    have hi : p / bufferBytes < originalCount :=
      Nat.div_lt_of_lt_mul (by rwa [Nat.mul_comm] at hp)
    have hdatagram := congrFun (List.ofFn_injective h)
      ⟨p / bufferBytes, Nat.lt_add_left recoveryCount hi⟩
    have hblock := congrArg Datagram.block hdatagram
    simp only [blockAt, dif_pos hi] at hblock
    have hbyte := congrFun hblock ⟨p % bufferBytes, Nat.mod_lt p (by decide)⟩
    simp only [originalDataSend, Nat.div_add_mod'] at hbyte
    exact hbyte
  · intro h
    have horiginals : originalDataSend bufp = originalDataSend bufp' := by
      funext i b
      apply h
      calc
        i * bufferBytes + b < i * bufferBytes + bufferBytes := Nat.add_lt_add_left b.isLt _
        _ = (i + 1) * bufferBytes := (Nat.succ_mul _ _).symm
        _ ≤ originalCount * bufferBytes := Nat.mul_le_mul_right _ i.isLt
    rw [groupDatagrams, horiginals]
    rfl

/-- Two buffers with the same packet at the start give the same blocks if and only if they agree
from the third byte behind it on. -/
theorem groupDatagrams_prefixLength_eq_iff {leo : Leopard} {buf buf' : Mem} {cnt curnumSend : ℕ}
    (hpacket : buf.slice 0 cnt = buf'.slice 0 cnt) :
    groupDatagrams leo (prefixLength buf cnt) curnumSend =
        groupDatagrams leo (prefixLength buf' cnt) curnumSend ↔
      ∀ p, cnt + 2 ≤ p → p < originalCount * bufferBytes → buf p = buf' p := by
  have hbehind (m : Mem) {p : ℕ} (hp : cnt + 2 ≤ p) : prefixLength m cnt p = m p := by
    rw [prefixLength, store_of_ge (by rw [length_le16]; omega), memmove_of_ge (by omega)]
  have hwithin {p : ℕ} (hp : p < cnt + 2) : prefixLength buf cnt p = prefixLength buf' cnt p := by
    have hmoved : buf.memmove 2 0 cnt p = buf'.memmove 2 0 cnt p ∨ p < 2 := by
      by_cases hlow : p < 2
      · exact .inr hlow
      · left
        obtain ⟨i, rfl⟩ := Nat.exists_eq_add_of_le (Nat.not_lt.mp hlow)
        unfold memmove
        have hi : i < (buf.slice 0 cnt).length := by rw [length_slice]; omega
        have hi' : i < (buf'.slice 0 cnt).length := by rw [length_slice]; omega
        rw [store_of_mem hi, store_of_mem hi']
        simp only [hpacket]
    unfold prefixLength
    rcases hmoved with hmoved | hlow
    · unfold Mem.store
      rw [hmoved]
    · have hlength : p < (le16 cnt).length := hlow
      rw [← Nat.zero_add p, store_of_mem hlength, store_of_mem hlength]
  rw [groupDatagrams_eq_iff]
  constructor
  · intro h p hcnt hp
    rw [← hbehind buf hcnt, ← hbehind buf' hcnt]
    exact h p hp
  · intro h p hp
    rcases Nat.lt_or_ge p (cnt + 2) with hlow | hcnt
    · exact hwithin hlow
    · rw [hbehind buf hcnt, hbehind buf' hcnt]
      exact h p hcnt hp

/-! ## What a group leaves -/

/-- The other one of two hosts. -/
def nextHost : Curhost → Curhost
  | .single => .single
  | .first => .second
  | .second => .first

theorem feed_sendDatagram (cfg : Config) (s : Loop) (datagrams : List (Datagram Block)) :
    ∃ buf, (feed (sendDatagram cfg) s datagrams).1 =
      { s with buf := buf, curhost := nextHost^[datagrams.length] s.curhost } := by
  induction datagrams generalizing s with
  | nil => exact ⟨s.buf, rfl⟩
  | cons d rest ih =>
    obtain ⟨buf, hrest⟩ := ih (sendDatagram cfg s d).1
    have hhost : (sendDatagram cfg s d).1.curhost = nextHost s.curhost := by
      unfold sendDatagram sendPacket destination
      dsimp only
      cases s.curhost <;> rfl
    use buf
    rw [feed_cons, hrest, hhost, List.length_cons, Function.iterate_succ_apply]
    rfl

/-- A group has an even number of datagrams, so the host is the same afterwards. -/
theorem sendGroup_rest (leo : Leopard) (cfg : Config) (s : RsLoop) (cnt : ℕ) :
    ∃ buf, (sendGroup leo cfg s cnt).1 =
      { s with buf := buf, curnumSend := nextGroup s.curnumSend } := by
  obtain ⟨buf, hfeed⟩ := feed_sendDatagram cfg { s.toLoop with buf := prefixLength s.buf cnt }
    (groupDatagrams leo (prefixLength s.buf cnt) s.curnumSend)
  have hhost : nextHost^[recoveryCount + originalCount] s.curhost = s.curhost := by
    cases s.curhost <;> rfl
  rw [length_groupDatagrams, hhost] at hfeed
  use buf
  unfold sendGroup
  dsimp only
  rw [hfeed]

/-! ## What stands behind a packet -/

theorem readFrame_behind (lib : Library) (cfg : Config) (frame : List UInt8) (buf : Mem) {p : ℕ}
    (hp : 4 + (readFrame lib cfg 4 1518 frame buf).2 ≤ p) :
    (readFrame lib cfg 4 1518 frame buf).1 p = buf.store 4 (frame.take 1518) p := by
  unfold readFrame at hp ⊢
  cases hgzip : cfg.gzip with
  | true =>
    simp only [hgzip, if_true] at hp ⊢
    exact store_of_ge hp
  | false => rfl

theorem framePacket_behind (flag pnum : UInt8) (key : Bytes32) (buf : Mem) (cnt : ℕ) {p : ℕ}
    (hp : (framePacket flag pnum key buf cnt).2 ≤ p) :
    (framePacket flag pnum key buf cnt).1 p = buf p ∧ 4 + cnt ≤ p := by
  unfold framePacket at hp ⊢
  split at hp
  · rename_i hflag
    dsimp only at hp
    rw [if_pos hflag]
    dsimp only
    rw [store_of_ge (by rw [length_pheader]; omega), store_of_ge (by rw [List.length_ofFn]; omega),
      memmove_of_ge (by omega)]
    exact ⟨rfl, by omega⟩
  · rename_i hflag
    dsimp only at hp
    rw [if_neg hflag]
    dsimp only
    rw [store_of_ge (by rw [length_pheader]; omega)]
    exact ⟨rfl, by omega⟩

/-- The packet before encryption: the variables that change with it, and the buffer behind it. -/
theorem buildPacket_rest {lib : Library} {cfg : Config} {s built : Loop} {frame : List UInt8}
    {cnt : ℕ} (hprog : cfg.prog = .rsctapudp)
    (h : buildPacket lib cfg s frame = some (built, cnt)) :
    (built.curpakagenum = s.curpakagenum + 1 ∧ built.addr = s.addr ∧ built.curhost = s.curhost) ∧
      (∃ flag, headerFlag cfg s.keys = some flag ∧
        built.keys = if flag = 2 then { s.keys with curKeyToSend := none } else s.keys) ∧
      ∀ p, cnt ≤ p → built.buf p = s.buf.store 4 (frame.take 1518) p := by
  unfold buildPacket at h
  rw [hprog] at h
  obtain ⟨flag, hflag, heq⟩ := Option.map_eq_some_iff.mp h
  cases heq
  refine ⟨⟨rfl, rfl, rfl⟩, ⟨flag, hflag, rfl⟩, fun p hp ↦ ?_⟩
  obtain ⟨hframed, hread⟩ := framePacket_behind flag s.curpakagenum _ _ _ hp
  exact hframed.trans (readFrame_behind lib cfg frame s.buf hread)

theorem sealPacket_behind (lib : Library) (key : Key) (buf : Mem) (cnt : ℕ) {p : ℕ}
    (hp : (sealPacket lib .rsctapudp key (shiftPacket .rsctapudp buf cnt) cnt).2 ≤ p) :
    (sealPacket lib .rsctapudp key (shiftPacket .rsctapudp buf cnt) cnt).1 p = buf p ∧
      cnt ≤ p := by
  have hlength : 32 + cnt < p := by
    have hcipher := lib.length_encrypt key.key
      (((buf.memmove 32 0 cnt).store 0 (List.ofFn key.sha)).slice 32 cnt)
    rw [length_slice] at hcipher
    simp only [sealPacket, shiftPacket] at hp
    omega
  simp only [sealPacket, shiftPacket] at hp ⊢
  rw [store_of_ge (by omega), store_of_ge (by rw [List.length_ofFn]; omega),
    memmove_of_ge (by omega)]
  exact ⟨rfl, by omega⟩

/-- The packet is built, a key is chosen, and if there is one the packet is encrypted. -/
theorem preparePacket_cases {lib : Library} {cfg : Config} {answers : Answers} {s prepared : Loop}
    {frame : List UInt8} {cnt : ℕ} {tosend : Bool} (hprog : cfg.prog = .rsctapudp)
    (haes : cfg.aes = true)
    (h : preparePacket lib cfg answers s frame = some (prepared, cnt, tosend)) :
    ∃ built length keys, buildPacket lib cfg s frame = some (built, length) ∧
      chooseKey lib.sha256 cfg.haslimit answers.choose built.keys = some (keys, tosend) ∧
      if tosend then ∃ cur, keys.curKey1 = some cur ∧
        let packet := sealPacket lib .rsctapudp cur
          (shiftPacket .rsctapudp built.buf length) length
        prepared = { built with keys := { keys with curKey1 := some cur.used }, buf := packet.1 } ∧
          cnt = packet.2
      else prepared.keys = keys ∧ prepared.curpakagenum = built.curpakagenum ∧
        prepared.addr = built.addr ∧ prepared.curhost = built.curhost := by
  obtain ⟨⟨built, length⟩, hbuilt, h⟩ := Option.bind_eq_some_iff.mp h
  simp only [haes, if_true] at h
  obtain ⟨⟨keys, chosen⟩, hchoose, h⟩ := Option.bind_eq_some_iff.mp h
  rw [hprog] at h
  cases chosen with
  | false =>
    cases h
    exact ⟨built, cnt, keys, hbuilt, hchoose, rfl, rfl, rfl, rfl⟩
  | true =>
    obtain ⟨cur, hcur, hsealed⟩ := Option.map_eq_some_iff.mp h
    cases hsealed
    exact ⟨built, length, keys, hbuilt, hchoose, cur, hcur, rfl, rfl⟩

/-- The send branch with AES up to the packet: which variables it changes. -/
structure Prepared (lib : Library) (cfg : Config) (answers : Answers) (s prepared : Loop)
    (tosend : Bool) : Prop where
  curpakagenum : prepared.curpakagenum = s.curpakagenum + 1
  addr : prepared.addr = s.addr
  curhost : prepared.curhost = s.curhost
  keys : ∃ flag keys, headerFlag cfg s.keys = some flag ∧
    chooseKey lib.sha256 cfg.haslimit answers.choose
      (if flag = 2 then { s.keys with curKeyToSend := none } else s.keys) = some (keys, tosend) ∧
    if tosend then ∃ cur, keys.curKey1 = some cur ∧
      prepared.keys = { keys with curKey1 := some cur.used } else prepared.keys = keys

theorem preparePacket_spec {lib : Library} {cfg : Config} {answers : Answers} {s prepared : Loop}
    {frame : List UInt8} {cnt : ℕ} {tosend : Bool} (hprog : cfg.prog = .rsctapudp)
    (haes : cfg.aes = true)
    (h : preparePacket lib cfg answers s frame = some (prepared, cnt, tosend)) :
    Prepared lib cfg answers s prepared tosend := by
  obtain ⟨built, length, keys, hbuilt, hchoose, h⟩ := preparePacket_cases hprog haes h
  obtain ⟨⟨hnum, haddr, hhost⟩, ⟨flag, hflag, hkeys⟩, _⟩ := buildPacket_rest hprog hbuilt
  rw [hkeys] at hchoose
  cases tosend with
  | false =>
    obtain ⟨hkeys, hnum', haddr', hhost'⟩ := h
    exact ⟨hnum'.trans hnum, haddr'.trans haddr, hhost'.trans hhost, flag, keys, hflag, hchoose,
      hkeys⟩
  | true =>
    obtain ⟨cur, hcur, rfl, _⟩ := h
    exact ⟨hnum, haddr, hhost, flag, keys, hflag, hchoose, cur, hcur, rfl⟩

/-- Behind an encrypted packet stands what was there when the frame had been read. -/
theorem preparePacket_behind {lib : Library} {cfg : Config} {answers : Answers}
    {s prepared : Loop} {frame : List UInt8} {cnt : ℕ} (hprog : cfg.prog = .rsctapudp)
    (haes : cfg.aes = true)
    (h : preparePacket lib cfg answers s frame = some (prepared, cnt, true)) :
    32 ≤ cnt ∧ ∀ p, cnt ≤ p → prepared.buf p = s.buf.store 4 (frame.take 1518) p := by
  obtain ⟨built, length, keys, hbuilt, _, cur, _, rfl, rfl⟩ := preparePacket_cases hprog haes h
  obtain ⟨_, _, hbehind⟩ := buildPacket_rest hprog hbuilt
  refine ⟨Nat.le_add_left 32 _, fun p hp ↦ ?_⟩
  obtain ⟨hsealed, hlength⟩ := sealPacket_behind lib cur built.buf length hp
  exact hsealed.trans (hbehind p hlength)

/-- The bytes of an encrypted packet. -/
theorem preparePacket_packet {lib : Library} {cfg : Config} {answers : Answers}
    {s prepared : Loop} {frame : List UInt8} {cnt : ℕ} (hprog : cfg.prog = .rsctapudp)
    (haes : cfg.aes = true)
    (h : preparePacket lib cfg answers s frame = some (prepared, cnt, true)) :
    ∃ flag keys cur, headerFlag cfg s.keys = some flag ∧
      chooseKey lib.sha256 cfg.haslimit answers.choose
        (if flag = 2 then { s.keys with curKeyToSend := none } else s.keys) = some (keys, true) ∧
      keys.curKey1 = some cur ∧ prepared.buf.slice 0 cnt = wirePacket lib (some cur)
        (plainPacket flag s.curpakagenum (s.keys.curKeyToSend.getD fun _ ↦ 0) (s.buf.slice 0 4)
          (payload lib cfg frame)) := by
  have hother : Program.rsctapudp ≠ .ctapudp := nofun
  obtain ⟨built, length, keys, hbuilt, hchoose, cur, hcur, rfl, rfl⟩ :=
    preparePacket_cases hprog haes h
  obtain ⟨flag, hflag, hholds, rfl, hkeys⟩ := buildPacket_spec (hprog ▸ hother) hbuilt
  rw [hkeys] at hchoose
  exact ⟨flag, keys, cur, hflag, hchoose, hcur, sealPacket_spec hother cur hholds⟩

/-- A packet fits in ten blocks with its length before it. -/
theorem preparePacket_le {lib : Library} {cfg : Config} {answers : Answers} {s prepared : Loop}
    {frame : List UInt8} {cnt : ℕ} (hprog : cfg.prog = .rsctapudp) (haes : cfg.aes = true)
    (h : preparePacket lib cfg answers s frame = some (prepared, cnt, true)) :
    cnt ≤ originalCount * bufferBytes - 2 := by
  obtain ⟨flag, _, cur, _, _, _, hpacket⟩ := preparePacket_packet hprog haes h
  have hlength := congrArg List.length hpacket
  rw [length_slice, length_wirePacket_some, length_plainPacket] at hlength
  have hread : (frame.take 1518).length ≤ 1518 := List.length_take_le 1518 frame
  have hzip := lib.length_zip cfg.gziplevel (frame.take 1518)
  have hpayload : (payload lib cfg frame).length ≤ 1531 := by
    unfold payload
    split <;> omega
  have hblocks : originalCount * bufferBytes - 2 = 1918 := rfl
  split at hlength <;> omega

/-- The send branch with AES: without a key nothing is sent, otherwise the group of the packet. -/
theorem rsTap2net_spec {lib : Library} {leo : Leopard} {cfg : RsConfig} {answers : Answers}
    {s s' : RsLoop} {frame : List UInt8} {effects : List Effect} (haes : cfg.aes = true)
    (h : rsTap2net lib leo cfg answers s frame = some (s', effects)) :
    ∃ prepared cnt tosend,
      preparePacket lib cfg.toConfig answers s.toLoop frame = some (prepared, cnt, tosend) ∧
      if tosend then
        effects = (sendGroup leo cfg.toConfig { s with toLoop := prepared } cnt).2 ∧
        ∃ rotated buf,
          rotateKey lib.sha256 cfg.haslimit cfg.ppk answers.rotate prepared.keys = some rotated ∧
          s' = { s with
            toLoop := { prepared with keys := rotated, buf := buf }
            curnumSend := nextGroup s.curnumSend }
      else effects = [] ∧ s' = { s with toLoop := prepared } := by
  obtain ⟨⟨prepared, cnt, tosend⟩, hprepared, h⟩ := Option.bind_eq_some_iff.mp h
  refine ⟨prepared, cnt, tosend, hprepared, ?_⟩
  cases tosend with
  | false =>
    cases h
    exact ⟨rfl, rfl⟩
  | true =>
    simp only [haes, if_true] at h ⊢
    obtain ⟨rotated, hrotated, h⟩ := Option.bind_eq_some_iff.mp h
    cases h
    obtain ⟨buf, hgroup⟩ := sendGroup_rest leo cfg.toConfig { s with toLoop := prepared } cnt
    rw [hgroup] at hrotated ⊢
    exact ⟨rfl, rotated, buf, hrotated, rfl⟩

/-! ## From the net to the TAP device -/

/-- A datagram is received at the start of the buffer. -/
def RsLoop.receive (s : RsLoop) (datagram : List UInt8) : RsLoop :=
  { s with buf := s.buf.store 0 (datagram.take (1 + bufferBytes)) }

/-- The block in the buffer is collected; the second component is the length of the packet, if one
could be put together. -/
def collect (leo : Leopard) (s : RsLoop) : RsLoop × Option ℕ :=
  let next := recvBlock s.recv ⟨s.buf 0, fun i ↦ s.buf (1 + i)⟩
  match next.2.bind (reassemble leo s.buf) with
  | none => ({ s with recv := next.1 }, none)
  | some packet => ({ s with recv := next.1, buf := packet.1 }, some packet.2)

/-- The packet of `cnt` bytes at the start of the buffer is decrypted and delivered. -/
def openPacket (lib : Library) (cfg : Config) (answers : Answers) (s : Loop) (cnt : ℕ) :
    Option (Loop × List Effect) :=
  if cfg.aes then
    if cnt < 32 + 16 then some (s, [])
    else do
      let (found, ok) ← findKey answers.bySha (readBytes32 s.buf 0) (s.keys.q2.items.length + 3)
        s.keys
      if ok then openSealed lib cfg answers { s with keys := found } cnt
      else some ({ s with keys := found }, [])
  else some (deliver lib cfg answers s cnt)

/-- One datagram from the net. -/
def rsNet2tap (lib : Library) (leo : Leopard) (cfg : RsConfig) (answers : Answers) (s : RsLoop)
    (source : Address) (datagram : List UInt8) : Option (RsLoop × List Effect) :=
  let received := s.receive datagram
  match if cfg.aes then firstKey received.keys else some received.keys with
  | none => some (received, [])
  | some keys =>
      match acceptAddress cfg.toConfig received.toLoop source with
      | none => some ({ received with keys := keys }, [])
      | some addr =>
          let collected := collect leo { received with keys := keys, addr := addr }
          match collected.2 with
          | none => some (collected.1, [])
          | some cnt =>
              (openPacket lib cfg.toConfig answers collected.1.toLoop cnt).map fun next ↦
                ({ collected.1 with toLoop := next.1 }, next.2)

end QNet.RsTunnel
