import QNet.Tunnel.Keys

/-!
# The single-threaded tunnel loop

The loop of `ctapudp`, `nextctapudp` and `rsctapudp` without worker threads. A frame from the TAP
device is compressed, provided with a header, encrypted and sent (`tap2net`); a datagram from the
net is decrypted, freed of its header, decompressed and written to the TAP device (`net2tap`).
Everything happens in one buffer, with a `memmove` for each shift, so what earlier packets left in
the buffer is part of the state.

`nextctapudp` and `rsctapudp` share their packet format, a four-byte header before the payload;
`ctapudp` has two bytes with the length instead, and only in encrypted packets. A result `none`
means that the process is gone: a null pointer was dereferenced or `abort` was called.
-/

namespace QNet.Tunnel

open Mem

inductive Program
  | ctapudp
  | nextctapudp
  | rsctapudp
  deriving DecidableEq

structure Address where
  ip : ℕ
  port : ℕ
  deriving DecidableEq

/-- `curhost`: -1 with one remote host, else which of two is next. -/
inductive Curhost
  | single
  | first
  | second
  deriving DecidableEq

/-- The options of a tunnel process. -/
structure Config where
  prog : Program
  aes : Bool
  gzip : Bool
  gziplevel : ℤ
  haslimit : Bool
  isserver : Bool
  deviceid : ℤ
  ppk : UInt16
  autoaddress : Bool
  inet6 : Bool
  addr2 : Address

/-- What `decrypt` leaves: whether OpenSSL reported success, and the bytes it wrote. -/
structure Decrypted where
  ok : Bool
  plaintext : List UInt8

/-- AES-256-CBC with padding under the fixed initialisation vector. -/
structure Cipher where
  encrypt : Bytes32 → List UInt8 → List UInt8
  decrypt : Bytes32 → List UInt8 → Decrypted
  length_encrypt : ∀ key plaintext,
    (encrypt key plaintext).length = 16 * (plaintext.length / 16 + 1)
  decrypt_encrypt : ∀ key plaintext, decrypt key (encrypt key plaintext) = ⟨true, plaintext⟩

/-- The libraries the programs are linked with. The output of `zip` is bounded as documented for
`compressBound`. -/
structure Library extends Cipher where
  sha256 : Bytes32 → Bytes32
  zip : ℤ → List UInt8 → List UInt8
  unzip : List UInt8 → List UInt8
  length_zip : ∀ level bytes, (zip level bytes).length ≤
    bytes.length + bytes.length / 4096 + bytes.length / 16384 + bytes.length / 33554432 + 13

/-- The variables of the loop. -/
structure Loop where
  keys : Keys
  curpakagenum : UInt8
  addr : Address
  curhost : Curhost
  buf : Mem

inductive Effect
  | sendto (dest : Address) (packet : List UInt8)
  | write (frame : List UInt8)
  | putKey (sha : Bytes32)
  | requestKey
  deriving DecidableEq

/-- What the keyworker answers during one iteration. -/
structure Answers where
  /-- `getLastKey` before the packet. -/
  choose : Option Bytes32
  /-- `getLastKey` after the packet. -/
  rotate : Option Bytes32
  bySha : Option Bytes32
  request : Option Bytes32

/-! ## From the TAP device to the net -/

/-- The header in its four bytes. -/
def pheader (flag pnum : UInt8) (length : ℕ) : List UInt8 := [flag, pnum] ++ le16 length

/-- The flag of the next packet. -/
def headerFlag (cfg : Config) (k : Keys) : Option UInt8 :=
  let request := if k.curKeyToSend.isSome then 2 else 0
  if cfg.aes && decide (cfg.deviceid > 0) && !cfg.isserver then
    k.curKey1.map fun cur ↦ if cur.usage = cfg.ppk / 2 then 1 else request
  else some request

/-- The payload of a frame stands at offset `off` of the buffer. -/
def readFrame (lib : Library) (cfg : Config) (off size : ℕ) (frame : List UInt8) (buf : Mem) :
    Mem × ℕ :=
  let read := frame.take size
  if cfg.gzip then
    let zipped := lib.zip cfg.gziplevel read
    ((buf.store off read).store off zipped, zipped.length)
  else (buf.store off read, read.length)

/-- Put the header, and with flag 2 the key to send, before the payload. -/
def framePacket (flag pnum : UInt8) (key : Bytes32) (buf : Mem) (cnt : ℕ) : Mem × ℕ :=
  if flag = 2 then
    (((buf.memmove 36 0 cnt).store 4 (List.ofFn key)).store 0 (pheader flag pnum cnt), cnt + 32 + 4)
  else (buf.store 0 (pheader flag pnum cnt), cnt + 4)

/-- Encrypt the `cnt` bytes at offset 32, in `ctapudp` with their number before them, and put the
key id before the ciphertext. -/
def sealPacket (lib : Library) (prog : Program) (key : Key) (buf : Mem) (cnt : ℕ) : Mem × ℕ :=
  let marked := buf.store 0 (List.ofFn key.sha)
  let plain := match prog with
    | .ctapudp => (marked.store 32 (le16 cnt), cnt + 2)
    | _ => (marked, cnt)
  let ciphertext := lib.encrypt key.key (plain.1.slice 32 plain.2)
  (plain.1.store 32 ciphertext, ciphertext.length + 32)

/-- The packet before encryption; `curKeyToSend` is consumed by a packet with flag 2. -/
def buildPacket (lib : Library) (cfg : Config) (s : Loop) (frame : List UInt8) :
    Option (Loop × ℕ) :=
  match cfg.prog with
  | .ctapudp =>
      let read := readFrame lib cfg 0 1542 frame s.buf
      some ({ s with buf := read.1 }, read.2)
  | _ =>
      let read := readFrame lib cfg 4 1518 frame s.buf
      (headerFlag cfg s.keys).map fun flag ↦
        let key := s.keys.curKeyToSend.getD fun _ ↦ 0
        let packet := framePacket flag s.curpakagenum key read.1 read.2
        ({ s with
            buf := packet.1
            curpakagenum := s.curpakagenum + 1
            keys := if flag = 2 then { s.keys with curKeyToSend := none } else s.keys },
          packet.2)

/-- The packet is moved up to make room for the key id, and in `ctapudp` for the length too. -/
def shiftPacket (prog : Program) (buf : Mem) (cnt : ℕ) : Mem :=
  match prog with
  | .ctapudp => buf.memmove 34 0 cnt
  | _ => buf.memmove 32 0 cnt

/-- Where the next packet goes, and `curhost` afterwards. -/
def destination (cfg : Config) (s : Loop) : Address × Curhost :=
  match s.curhost with
  | .single => (s.addr, .single)
  | .first => (s.addr, .second)
  | .second => (cfg.addr2, .first)

/-- Send the first `cnt` bytes of the buffer. -/
def sendPacket (cfg : Config) (s : Loop) (cnt : ℕ) : Loop × List Effect :=
  let dest := destination cfg s
  ({ s with curhost := dest.2 }, [.sendto dest.1 (s.buf.slice 0 cnt)])

/-- A packet is encrypted under the current key, its use is counted, and it is sent. -/
def sendSealed (lib : Library) (cfg : Config) (s : Loop) (cnt : ℕ) : Option (Loop × List Effect) :=
  s.keys.curKey1.map fun cur ↦
    let packet := sealPacket lib cfg.prog cur s.buf cnt
    let used := { s.keys with curKey1 := some cur.used }
    sendPacket cfg { s with keys := used, buf := packet.1 } packet.2

/-- One frame from the TAP device. -/
def tap2net (lib : Library) (cfg : Config) (answers : Answers) (s : Loop) (frame : List UInt8) :
    Option (Loop × List Effect) := do
  let (built, cnt) ← buildPacket lib cfg s frame
  if cfg.aes then
    let shifted := { built with buf := shiftPacket cfg.prog built.buf cnt }
    let (keys, tosend) ← chooseKey lib.sha256 cfg.haslimit answers.choose shifted.keys
    if tosend then
      let (sent, effects) ← sendSealed lib cfg { shifted with keys := keys } cnt
      let rotated ← rotateKey lib.sha256 cfg.haslimit cfg.ppk answers.rotate sent.keys
      some ({ sent with keys := rotated }, effects)
    else some ({ shifted with keys := keys }, [])
  else some (sendPacket cfg built cnt)

/-- Building a packet can only consume the key to send. -/
theorem buildPacket_keys {lib : Library} {cfg : Config} {s built : Loop} {frame : List UInt8}
    {cnt : ℕ} (h : buildPacket lib cfg s frame = some (built, cnt)) :
    ∃ key, built.keys = { s.keys with curKeyToSend := key } := by
  unfold buildPacket at h
  split at h
  · cases h
    exact ⟨_, rfl⟩
  · obtain ⟨flag, _, heq⟩ := Option.map_eq_some_iff.mp h
    cases heq
    dsimp only
    split_ifs
    · exact ⟨none, rfl⟩
    · exact ⟨_, rfl⟩

/-- What the send branch does with AES: nothing is sent when there is no key to send with;
otherwise one packet is sent under the key that was chosen, and the key may be rotated. -/
theorem tap2net_cases {lib : Library} {cfg : Config} {answers : Answers} {s s' : Loop}
    {frame : List UInt8} {effects : List Effect} (haes : cfg.aes = true)
    (h : tap2net lib cfg answers s frame = some (s', effects)) :
    ∃ built cnt keys tosend, buildPacket lib cfg s frame = some (built, cnt) ∧
      chooseKey lib.sha256 cfg.haslimit answers.choose built.keys = some (keys, tosend) ∧
      (tosend = false ∧ s'.keys = keys ∧ effects = [] ∨
        tosend = true ∧ ∃ cur, keys.curKey1 = some cur ∧
          rotateKey lib.sha256 cfg.haslimit cfg.ppk answers.rotate
            { keys with curKey1 := some cur.used } = some s'.keys ∧
          effects =
            let packet := sealPacket lib cfg.prog cur (shiftPacket cfg.prog built.buf cnt) cnt
            [.sendto (destination cfg built).1 (packet.1.slice 0 packet.2)]) := by
  obtain ⟨⟨built, cnt⟩, hbuilt, h⟩ := Option.bind_eq_some_iff.mp h
  simp only [haes, if_true] at h
  obtain ⟨⟨keys, tosend⟩, hchoose, h⟩ := Option.bind_eq_some_iff.mp h
  refine ⟨built, cnt, keys, tosend, hbuilt, hchoose, ?_⟩
  cases tosend with
  | false =>
    cases h
    exact .inl ⟨rfl, rfl, rfl⟩
  | true =>
    obtain ⟨⟨sent, effects'⟩, hsent, h⟩ := Option.bind_eq_some_iff.mp h
    obtain ⟨rotated, hrotated, h⟩ := Option.bind_eq_some_iff.mp h
    obtain ⟨cur, hcur, hsealed⟩ := Option.map_eq_some_iff.mp hsent
    cases hsealed
    cases h
    exact .inr ⟨rfl, cur, hcur, hrotated, rfl⟩

/-! ## From the net to the TAP device -/

/-- The peer's address after a datagram from `source`; `none` when it is not accepted. -/
def acceptAddress (cfg : Config) (s : Loop) (source : Address) : Option Address :=
  if cfg.autoaddress then some source
  else
    let second := !cfg.inet6 && s.curhost ≠ .single && source.ip = cfg.addr2.ip
    if (source.ip = s.addr.ip ∨ second) ∧ source.port = s.addr.port then some s.addr else none

/-- What the header orders. The payload is behind the header afterwards; the last component is its
length. -/
def takeHeader (answers : Answers) (s : Loop) : Loop × List Effect × ℕ :=
  let length := s.buf.readLe16 2
  if s.buf 0 = 1 then
    ({ s with keys := { s.keys with curKeyToSend := answers.request } }, [.requestKey], length)
  else if s.buf 0 = 2 then
    ({ s with buf := s.buf.memmove 0 32 length }, [.putKey (readBytes32 s.buf 36)], length)
  else (s, [], length)

/-- Write the `cnt` bytes at offset `off` to the TAP device. -/
def writeFrame (lib : Library) (cfg : Config) (off : ℕ) (s : Loop) (cnt : ℕ) :
    Loop × List Effect :=
  if cfg.gzip then
    let unzipped := lib.unzip (s.buf.slice off cnt)
    ({ s with buf := s.buf.store off unzipped }, [.write unzipped])
  else (s, [.write (s.buf.slice off cnt)])

/-- A packet that is not or no longer encrypted. -/
def deliver (lib : Library) (cfg : Config) (answers : Answers) (s : Loop) (cnt : ℕ) :
    Loop × List Effect :=
  match cfg.prog with
  | .ctapudp => writeFrame lib cfg 0 s cnt
  | _ =>
      let (taken, effects, length) := takeHeader answers s
      let (written, writes) := writeFrame lib cfg 4 taken length
      (written, effects ++ writes)

theorem takeHeader_keys (answers : Answers) (s : Loop) : (takeHeader answers s).1.keys =
    { s.keys with
      curKeyToSend := if s.buf 0 = 1 then answers.request else s.keys.curKeyToSend } := by
  unfold takeHeader
  dsimp only
  split_ifs <;> rfl

theorem writeFrame_keys (lib : Library) (cfg : Config) (off : ℕ) (s : Loop) (cnt : ℕ) :
    (writeFrame lib cfg off s cnt).1.keys = s.keys := by
  unfold writeFrame
  cases cfg.gzip <;> rfl

theorem writeFrame_effects (lib : Library) (cfg : Config) (off : ℕ) (s : Loop) (cnt : ℕ) :
    (writeFrame lib cfg off s cnt).2 =
      [.write (if cfg.gzip then lib.unzip (s.buf.slice off cnt) else s.buf.slice off cnt)] := by
  unfold writeFrame
  cases cfg.gzip <;> rfl

/-- A packet with a header. -/
theorem deliver_header (lib : Library) {cfg : Config} (answers : Answers) (s : Loop) (cnt : ℕ)
    (hprog : cfg.prog ≠ .ctapudp) :
    deliver lib cfg answers s cnt =
      let taken := takeHeader answers s
      let written := writeFrame lib cfg 4 taken.1 taken.2.2
      (written.1, taken.2.1 ++ written.2) := by
  unfold deliver
  split
  · rename_i hctapudp
    exact absurd hctapudp hprog
  · rfl

/-- The decrypted packet is moved to the start of the buffer. -/
def unshiftPacket (prog : Program) (buf : Mem) (cnt : ℕ) : Mem × ℕ :=
  match prog with
  | .ctapudp => (buf.memmove 0 34 (buf.readLe16 32), buf.readLe16 32)
  | _ => (buf.memmove 0 32 (cnt - 32), cnt - 32)

/-- Decrypt under the current key. Only `rsctapudp` looks at what `decrypt` returns; in the other
programs a failure ends in `abort`. -/
def openSealed (lib : Library) (cfg : Config) (answers : Answers) (s : Loop) (cnt : ℕ) :
    Option (Loop × List Effect) := do
  let key ← s.keys.curKey2
  let opened := lib.decrypt key.key (s.buf.slice 32 (cnt - 32))
  let decrypted := { s with buf := s.buf.store 32 opened.plaintext }
  let packet := unshiftPacket cfg.prog decrypted.buf cnt
  let delivered := deliver lib cfg answers { decrypted with buf := packet.1 } packet.2
  match cfg.prog with
  | .rsctapudp =>
      if !opened.ok || opened.plaintext.length = 0 then some (decrypted, []) else some delivered
  | _ => if opened.ok then some delivered else none

/-- A packet is dropped for its text, or it is delivered. -/
theorem openSealed_cases {lib : Library} {cfg : Config} {answers : Answers} {s s' : Loop}
    {cnt : ℕ} {effects : List Effect}
    (h : openSealed lib cfg answers s cnt = some (s', effects)) :
    (∃ buf, s' = { s with buf := buf } ∧ effects = []) ∨
      ∃ buf n, deliver lib cfg answers { s with buf := buf } n = (s', effects) := by
  obtain ⟨key, _, h⟩ := Option.bind_eq_some_iff.mp h
  dsimp only at h
  split at h
  · split_ifs at h
    · cases h
      exact .inl ⟨_, rfl, rfl⟩
    · exact .inr ⟨_, _, Option.some.inj h⟩
  · split_ifs at h
    exact .inr ⟨_, _, Option.some.inj h⟩

/-- One datagram from the net. -/
def net2tap (lib : Library) (cfg : Config) (answers : Answers) (s : Loop) (source : Address)
    (datagram : List UInt8) : Option (Loop × List Effect) :=
  let received := datagram.take 2000
  let s := { s with buf := s.buf.store 0 received }
  match if cfg.aes then firstKey s.keys else some s.keys with
  | none => some (s, [])
  | some keys =>
      match acceptAddress cfg s source with
      | none => some ({ s with keys := keys }, [])
      | some addr =>
          let accepted := { s with keys := keys, addr := addr }
          if cfg.aes then
            if received.length < 32 + 16 then some (accepted, [])
            else do
              let (found, ok) ← findKey answers.bySha (readBytes32 s.buf 0)
                (keys.q2.items.length + 3) keys
              if ok then openSealed lib cfg answers { accepted with keys := found } received.length
              else some ({ accepted with keys := found }, [])
          else some (deliver lib cfg answers accepted received.length)

/-! ## The assumptions on the libraries can be met -/

/-- The padding of a block cipher: as many bytes as are missing, each with their number. -/
def padding (length : ℕ) : List UInt8 :=
  List.replicate (16 - length % 16) (UInt8.ofNat (16 - length % 16))

/-- Take the padding away; the last byte says how long it is. -/
def unpad (padded : List UInt8) : List UInt8 :=
  padded.take (padded.length - (padded.getLastD 0).toNat)

theorem unpad_padding (plaintext : List UInt8) :
    unpad (plaintext ++ padding plaintext.length) = plaintext := by
  have hlast : (plaintext ++ padding plaintext.length).getLastD 0 =
      UInt8.ofNat (16 - plaintext.length % 16) := by
    obtain ⟨n, hn⟩ : ∃ n, 16 - plaintext.length % 16 = n + 1 :=
      ⟨15 - plaintext.length % 16, by omega⟩
    rw [padding, hn, List.replicate_succ', ← List.append_assoc, List.getLastD_concat]
  have hpad : (UInt8.ofNat (16 - plaintext.length % 16)).toNat = 16 - plaintext.length % 16 := by
    rw [UInt8.toNat_ofNat']
    omega
  rw [unpad, hlast, hpad, List.length_append, padding, List.length_replicate, Nat.add_sub_cancel,
    List.take_left]

/-- A cipher that only pads. -/
def paddingCipher : Cipher where
  encrypt _ plaintext := plaintext ++ padding plaintext.length
  decrypt _ ciphertext := ⟨true, unpad ciphertext⟩
  length_encrypt _ plaintext := by
    rw [List.length_append, padding, List.length_replicate]
    omega
  decrypt_encrypt _ plaintext := by rw [unpad_padding]

def sampleLibrary : Library where
  toCipher := paddingCipher
  sha256 := id
  zip _ bytes := bytes
  unzip := id
  length_zip _ _ := by omega

/-- Options `-e 100 -l 1` at the server's end. -/
def sampleConfig : Config where
  prog := .rsctapudp
  aes := true
  gzip := false
  gziplevel := 0
  haslimit := true
  isserver := true
  deviceid := 0
  ppk := 100
  autoaddress := true
  inet6 := false
  addr2 := ⟨0, 0⟩

def sampleKey : Key := ⟨fun _ ↦ 7, fun _ ↦ 8, 0⟩

/-- Both directions use the same key, and the buffer is empty. -/
def sampleLoop : Loop where
  keys := { Keys.init with curKey1 := some sampleKey, curKey2 := some sampleKey }
  curpakagenum := 0
  addr := ⟨0, 0⟩
  curhost := .single
  buf _ := 0

def noAnswers : Answers := ⟨none, none, none, none⟩

end QNet.Tunnel
