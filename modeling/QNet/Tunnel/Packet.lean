import QNet.Tunnel.Loop

/-!
# Packets with a header

What the programs with a packet header send, as lists of bytes: `plainPacket` is the packet before
encryption, `wirePacket` the datagram. The lemmas of the first part say that the chain of memory
moves of the sender produces these bytes. Those of the second part say where the bytes lie when
the receiver is done with decryption, and what lies behind them.
-/

namespace QNet.Tunnel

open Mem

/-- The bytes of a packet before encryption. With flag 2 the key stands behind the header, and the
payload is preceded by the four bytes that lay before it in the buffer; its own last four bytes
are cut off. -/
def plainPacket (flag pnum : UInt8) (key : Bytes32) (stale payload : List UInt8) : List UInt8 :=
  pheader flag pnum payload.length ++
    if flag = 2 then List.ofFn key ++ (stale ++ payload).take payload.length else payload

/-- The datagram of a packet, when `key` is the key of an encrypted one. -/
def wirePacket (lib : Library) (key : Option Key) (plain : List UInt8) : List UInt8 :=
  match key with
  | none => plain
  | some key => List.ofFn key.sha ++ lib.encrypt key.key plain

/-- What is sent of a frame. -/
def payload (lib : Library) (cfg : Config) (frame : List UInt8) : List UInt8 :=
  if cfg.gzip then lib.zip cfg.gziplevel (frame.take 1518) else frame.take 1518

@[simp]
theorem length_pheader (flag pnum : UInt8) (length : ℕ) :
    (pheader flag pnum length).length = 4 := rfl

theorem length_plainPacket (flag pnum : UInt8) (key : Bytes32) (stale payload : List UInt8) :
    (plainPacket flag pnum key stale payload).length =
      payload.length + (if flag = 2 then 32 else 0) + 4 := by
  unfold plainPacket
  split <;> simp <;> omega

/-! ## Sender -/

theorem slice_of_holds {m : Mem} {off : ℕ} {bytes : List UInt8} {n : ℕ} (h : m.Holds off bytes)
    (hn : bytes.length = n) : m.slice off n = bytes := by
  rw [← hn]
  exact h

theorem readFrame_spec (lib : Library) (cfg : Config) (frame : List UInt8) (buf : Mem) :
    (readFrame lib cfg 4 1518 frame buf).1.Holds 0 (buf.slice 0 4 ++ payload lib cfg frame) ∧
      (readFrame lib cfg 4 1518 frame buf).2 = (payload lib cfg frame).length := by
  unfold readFrame payload
  have hstale (m : Mem) (bytes : List UInt8) (hm : m.Holds 0 (buf.slice 0 4)) :
      (m.store 4 bytes).Holds 0 (buf.slice 0 4) := by
    apply hm.store
    simp
  cases cfg.gzip with
  | true =>
    refine ⟨holds_append.mpr ⟨hstale _ _ (hstale _ _ (holds_slice buf 0 4)), ?_⟩, rfl⟩
    simpa using holds_store (buf.store 4 _) 4 _
  | false =>
    refine ⟨holds_append.mpr ⟨hstale _ _ (holds_slice buf 0 4), ?_⟩, rfl⟩
    simpa using holds_store buf 4 _

theorem framePacket_spec {buf : Mem} {stale payload : List UInt8} (flag pnum : UInt8)
    (key : Bytes32) (hstale : stale.length = 4) (hbuf : buf.Holds 0 (stale ++ payload)) :
    (framePacket flag pnum key buf payload.length).1.Holds 0
        (plainPacket flag pnum key stale payload) ∧
      (framePacket flag pnum key buf payload.length).2 =
        (plainPacket flag pnum key stale payload).length := by
  have hheader (m : Mem) : (m.store 0 (pheader flag pnum payload.length)).Holds 0
      (pheader flag pnum payload.length) := holds_store m 0 _
  rw [length_plainPacket]
  unfold framePacket plainPacket
  by_cases hflag : flag = 2
  · rw [if_pos hflag, if_pos hflag, if_pos hflag]
    dsimp only
    rw [holds_append, holds_append, length_pheader, List.length_ofFn]
    refine ⟨⟨hheader _, ?_, ?_⟩, rfl⟩
    · apply (holds_store (buf.memmove 36 0 payload.length) 4 (List.ofFn key)).store
      simp
    · -- The payload is copied from the start of the buffer, not from behind the header.
      have hmoved : (buf.memmove 36 0 payload.length).Holds 36
          ((stale ++ payload).take payload.length) := by
        have hprefix : buf.Holds 0 ((stale ++ payload).take payload.length) := by
          rw [← List.take_append_drop payload.length (stale ++ payload)] at hbuf
          exact (holds_append.mp hbuf).1
        exact hprefix.memmove_start (by simp)
      exact (hmoved.store (.inr (by simp))).store (.inr (by simp))
  · rw [if_neg hflag, if_neg hflag, if_neg hflag]
    refine ⟨holds_append.mpr ⟨hheader _, ?_⟩, rfl⟩
    rw [holds_append, hstale] at hbuf
    simpa using hbuf.2.store (.inr (by simp))

/-- The packet the send branch puts together. -/
theorem buildPacket_spec {lib : Library} {cfg : Config} {s built : Loop} {frame : List UInt8}
    {cnt : ℕ} (hprog : cfg.prog ≠ .ctapudp) (h : buildPacket lib cfg s frame = some (built, cnt)) :
    ∃ flag, headerFlag cfg s.keys = some flag ∧
      built.buf.Holds 0 (plainPacket flag s.curpakagenum (s.keys.curKeyToSend.getD fun _ ↦ 0)
        (s.buf.slice 0 4) (payload lib cfg frame)) ∧
      cnt = (plainPacket flag s.curpakagenum (s.keys.curKeyToSend.getD fun _ ↦ 0)
        (s.buf.slice 0 4) (payload lib cfg frame)).length ∧
      built.keys = if flag = 2 then { s.keys with curKeyToSend := none } else s.keys := by
  obtain ⟨hbuf, hcnt⟩ := readFrame_spec lib cfg frame s.buf
  unfold buildPacket at h
  split at h
  · rename_i hctapudp
    exact absurd hctapudp hprog
  · obtain ⟨flag, hflag, heq⟩ := Option.map_eq_some_iff.mp h
    rw [hcnt] at heq
    cases heq
    obtain ⟨hframed, hlength⟩ := framePacket_spec flag s.curpakagenum
      (s.keys.curKeyToSend.getD fun _ ↦ 0) (by simp) hbuf
    exact ⟨flag, hflag, hframed, hlength, rfl⟩

theorem sealPacket_spec {lib : Library} {prog : Program} {buf : Mem} {plain : List UInt8}
    (hprog : prog ≠ .ctapudp) (key : Key) (hbuf : buf.Holds 0 plain) :
    (sealPacket lib prog key (shiftPacket prog buf plain.length) plain.length).1.slice 0
        (sealPacket lib prog key (shiftPacket prog buf plain.length) plain.length).2 =
      wirePacket lib (some key) plain := by
  have hshifted : (shiftPacket prog buf plain.length).Holds 32 plain := by
    unfold shiftPacket
    split
    · exact absurd rfl hprog
    · exact hbuf.memmove_start le_rfl
  unfold sealPacket
  split
  · exact absurd rfl hprog
  · have hplain :
        ((shiftPacket prog buf plain.length).store 0 (List.ofFn key.sha)).Holds 32 plain :=
      hshifted.store (.inr (by simp))
    dsimp only
    rw [slice_of_holds hplain rfl]
    apply slice_of_holds
    · rw [wirePacket, holds_append]
      refine ⟨(holds_store _ 0 _).store (.inl (by simp)), ?_⟩
      simpa using holds_store _ 32 _
    · rw [wirePacket, List.length_append, List.length_ofFn, Nat.add_comm]

theorem length_wirePacket_some (lib : Library) (key : Key) (plain : List UInt8) :
    (wirePacket lib (some key) plain).length = 16 * (plain.length / 16 + 1) + 32 := by
  rw [wirePacket, List.length_append, lib.length_encrypt, List.length_ofFn, Nat.add_comm]

/-! ## Receiver -/

/-- The buffer after a datagram has been received, decrypted in place to `plain` and moved to the
start. -/
def openedBuf (buf : Mem) (packet plain : List UInt8) : Mem :=
  ((buf.store 0 packet).store 32 plain).memmove 0 32 (packet.length - 32)

theorem openedBuf_holds (buf : Mem) {packet plain : List UInt8}
    (hlength : plain.length + 32 ≤ packet.length) : (openedBuf buf packet plain).Holds 0 plain :=
  (holds_store _ 32 plain).memmove_start (by omega)

/-- Behind the decrypted bytes lies what is left of the ciphertext, as far as the datagram goes. -/
theorem openedBuf_of_lt (buf : Mem) {packet plain : List UInt8} {i : ℕ} (hplain : plain.length ≤ i)
    (hpacket : i + 32 < packet.length) : openedBuf buf packet plain i = packet[i + 32] := by
  have hmoved : openedBuf buf packet plain i = (buf.store 0 packet).store 32 plain (32 + i) := by
    have happly : openedBuf buf packet plain (0 + i) = _ :=
      memmove_of_mem (show i < packet.length - 32 by omega)
    rwa [Nat.zero_add] at happly
  have hreceived : buf.store 0 packet (0 + (i + 32)) = packet[i + 32] := store_of_mem hpacket
  rw [hmoved, store_of_ge (by omega), Nat.add_comm 32 i, ← hreceived, Nat.zero_add]

/-- Behind the moved range the decrypted bytes are still in their old place. -/
theorem openedBuf_of_ge (buf : Mem) {packet plain : List UInt8} {i : ℕ} (hmin : 32 ≤ i)
    (hplain : i - 32 < plain.length) (hpacket : packet.length - 32 ≤ i) :
    openedBuf buf packet plain i = plain[i - 32] := by
  unfold openedBuf
  rw [memmove_of_ge (by omega)]
  have hstored : (buf.store 0 packet).store 32 plain (32 + (i - 32)) = plain[i - 32] :=
    store_of_mem hplain
  rwa [Nat.add_sub_cancel' hmin] at hstored

/-- What the receive branch does with a packet that is not encrypted. -/
theorem net2tap_of_plain {lib : Library} {cfg : Config} {answers : Answers} {r : Loop}
    {source addr : Address} {packet : List UInt8} (haes : cfg.aes = false)
    (hsource : acceptAddress cfg r source = some addr) (hlength : packet.length ≤ 2000) :
    net2tap lib cfg answers r source packet =
      some (deliver lib cfg answers { r with addr := addr, buf := r.buf.store 0 packet }
        packet.length) := by
  have hsource' : acceptAddress cfg { r with buf := r.buf.store 0 packet } source = some addr :=
    hsource
  unfold net2tap
  simp only [List.take_of_length_le hlength, haes, Bool.false_eq_true, if_false, hsource']

theorem findKey_of_eq {nextkey : Option Bytes32} {sha : Bytes32} {fuel : ℕ} {k : Keys} {cur : Key}
    (hcur : k.curKey2 = some cur) (hsha : cur.sha = sha) :
    findKey nextkey sha (fuel + 1) k = some (k, true) := by
  simp only [findKey, hcur, if_pos hsha]

theorem readBytes32_of_holds {m : Mem} {off : ℕ} {bytes : Bytes32}
    (h : m.Holds off (List.ofFn bytes)) : readBytes32 m off = bytes := by
  funext i
  have happly := h.apply (i := i) (by simp)
  rwa [List.getElem_ofFn] at happly

theorem unshiftPacket_of_ne {prog : Program} {buf : Mem} {cnt : ℕ} (hprog : prog ≠ .ctapudp) :
    unshiftPacket prog buf cnt = (buf.memmove 0 32 (cnt - 32), cnt - 32) := by
  cases prog with
  | ctapudp => exact absurd rfl hprog
  | nextctapudp => rfl
  | rsctapudp => rfl

/-- What decryption makes of a packet that was encrypted under the key. -/
theorem openSealed_of_wire {lib : Library} {cfg : Config} {answers : Answers} {r : Loop}
    {key sender : Key} {plain : List UInt8} {buf : Mem} (hprog : cfg.prog ≠ .ctapudp)
    (hkey : r.keys.curKey2 = some key) (hsame : key.key = sender.key) (hplain : plain ≠ [])
    (hbuf : r.buf = buf.store 0 (wirePacket lib (some sender) plain)) :
    openSealed lib cfg answers r (wirePacket lib (some sender) plain).length =
      some (deliver lib cfg answers
        { r with buf := openedBuf buf (wirePacket lib (some sender) plain) plain }
        ((wirePacket lib (some sender) plain).length - 32)) := by
  have hciphertext : r.buf.slice 32 ((wirePacket lib (some sender) plain).length - 32) =
      lib.encrypt key.key plain := by
    have hall := holds_store buf 0 (wirePacket lib (some sender) plain)
    rw [← hbuf, wirePacket, holds_append, List.length_ofFn] at hall
    rw [hsame]
    apply slice_of_holds hall.2
    rw [wirePacket, List.length_append, List.length_ofFn, Nat.add_sub_cancel_left]
  have hpositive : ¬ plain.length = 0 := fun h ↦ hplain (List.length_eq_zero_iff.mp h)
  unfold openSealed
  simp only [hkey, Option.bind_eq_bind, Option.bind_some, hciphertext, lib.decrypt_encrypt,
    unshiftPacket_of_ne hprog]
  rw [hbuf, ← openedBuf]
  cases hcase : cfg.prog with
  | ctapudp => exact absurd hcase hprog
  | nextctapudp => rfl
  | rsctapudp => simp only [Bool.not_true, Bool.false_or, hpositive, decide_false,
      Bool.false_eq_true, if_false]

/-- What the receive branch does with a packet encrypted under a key that it finds. -/
theorem net2tap_of_wire {lib : Library} {cfg : Config} {answers : Answers} {r : Loop}
    {source addr : Address} {key sender : Key} {keys found : Keys} {plain : List UInt8}
    (hprog : cfg.prog ≠ .ctapudp) (haes : cfg.aes = true)
    (hsource : acceptAddress cfg r source = some addr) (hfirst : firstKey r.keys = some keys)
    (hfound : findKey answers.bySha sender.sha (keys.q2.items.length + 3) keys = some (found, true))
    (hkey : found.curKey2 = some key) (hsame : key.key = sender.key) (hplain : plain ≠ [])
    (hlength : (wirePacket lib (some sender) plain).length ≤ 2000) :
    net2tap lib cfg answers r source (wirePacket lib (some sender) plain) =
      some (deliver lib cfg answers
        { r with
          keys := found
          addr := addr
          buf := openedBuf r.buf (wirePacket lib (some sender) plain) plain }
        ((wirePacket lib (some sender) plain).length - 32)) := by
  set packet := wirePacket lib (some sender) plain with hpacket
  have hsize : packet.length = 16 * (plain.length / 16 + 1) + 32 :=
    length_wirePacket_some lib sender plain
  have hsource' : acceptAddress cfg { r with buf := r.buf.store 0 packet } source = some addr :=
    hsource
  have hid : readBytes32 (r.buf.store 0 packet) 0 = sender.sha := by
    apply readBytes32_of_holds
    have hall := holds_store r.buf 0 packet
    rw [hpacket, wirePacket, holds_append] at hall
    exact hall.1
  unfold net2tap
  simp only [List.take_of_length_le hlength, haes, if_true, hfirst, hsource', hid, hfound,
    Option.bind_eq_bind, Option.bind_some]
  rw [if_neg (by omega)]
  exact openSealed_of_wire
    (r := { r with keys := found, addr := addr, buf := r.buf.store 0 packet })
    hprog hkey hsame hplain rfl

/-- The buffer of the receiver when the header of a packet is read. -/
def arrivedBuf (lib : Library) (buf : Mem) (key : Option Key) (plain : List UInt8) : Mem :=
  match key with
  | none => buf.store 0 plain
  | some key => openedBuf buf (wirePacket lib (some key) plain) plain

theorem arrivedBuf_holds (lib : Library) (buf : Mem) (key : Option Key) (plain : List UInt8) :
    (arrivedBuf lib buf key plain).Holds 0 plain := by
  cases key with
  | none => exact holds_store buf 0 plain
  | some key =>
    apply openedBuf_holds
    rw [length_wirePacket_some]
    omega

/-- The receiver's current key is the key of the packet. -/
def SharedKey (sender : Option Key) (r : Loop) : Prop :=
  ∀ key ∈ sender, ∃ cur ∈ r.keys.curKey2, cur.sha = key.sha ∧ cur.key = key.key

/-- A packet arrives, encrypted or not. -/
theorem net2tap_wirePacket (lib : Library) {cfg : Config} (answers : Answers) {r : Loop}
    {source addr : Address} {key : Option Key} {plain : List UInt8} (hprog : cfg.prog ≠ .ctapudp)
    (haes : key.isSome = cfg.aes) (hshared : SharedKey key r)
    (hsource : acceptAddress cfg r source = some addr) (hplain : cfg.aes = true → plain ≠ [])
    (hlength : plain.length ≤ 1900) :
    ∃ cnt, net2tap lib cfg answers r source (wirePacket lib key plain) =
      some (deliver lib cfg answers
        { r with addr := addr, buf := arrivedBuf lib r.buf key plain } cnt) := by
  cases key with
  | none => exact ⟨_, net2tap_of_plain haes.symm hsource (by rw [wirePacket]; omega)⟩
  | some key =>
    obtain ⟨cur, hcur, hsha, hsame⟩ := hshared key rfl
    have hfirst : firstKey r.keys = some r.keys := by
      simp only [firstKey, Option.mem_def.mp hcur]
    have hsize := length_wirePacket_some lib key plain
    exact ⟨_, net2tap_of_wire hprog haes.symm hsource hfirst (findKey_of_eq hcur hsha) hcur hsame
      (hplain haes.symm) (by omega)⟩

/-! ## Header and payload -/

/-- What a header orders, when `key` is the key behind it. -/
def headerEffects (flag : UInt8) (key : Bytes32) : List Effect :=
  if flag = 1 then [.requestKey] else if flag = 2 then [.putKey key] else []

/-- The bytes taken for the payload. -/
def receivedPayload (flag : UInt8) (buf : Mem) (length : ℕ) : List UInt8 :=
  if flag = 2 then (buf.memmove 0 32 length).slice 4 length else buf.slice 4 length

theorem deliver_effects {lib : Library} {cfg : Config} {answers : Answers} {s : Loop} {cnt : ℕ}
    (hprog : cfg.prog ≠ .ctapudp) :
    (deliver lib cfg answers s cnt).2 =
      headerEffects (s.buf 0) (readBytes32 s.buf 36) ++
        [.write (if cfg.gzip then lib.unzip (receivedPayload (s.buf 0) s.buf (s.buf.readLe16 2))
          else receivedPayload (s.buf 0) s.buf (s.buf.readLe16 2))] := by
  rw [deliver_header lib answers s cnt hprog]
  dsimp only
  rw [writeFrame_effects]
  unfold takeHeader headerEffects receivedPayload
  by_cases hone : s.buf 0 = 1
  · simp [hone]
  · by_cases htwo : s.buf 0 = 2
    · simp [htwo]
    · simp [hone, htwo]

theorem pheader_of_holds {m : Mem} {flag pnum : UInt8} {length : ℕ} {rest : List UInt8}
    (h : m.Holds 0 (pheader flag pnum length ++ rest)) (hlength : length < 65536) :
    m 0 = flag ∧ m.readLe16 2 = length := by
  have hheader := (holds_append.mp h).1
  refine ⟨hheader.apply (i := 0) (by simp), ?_⟩
  rw [pheader, holds_append] at hheader
  exact readLe16_of_holds hheader.2 hlength

end QNet.Tunnel
