import QNet.Lib.Cbc
import QNet.Tunnel.Keys

/-!
# What `ctap` encrypts

A frame from the TAP device is padded with what lies in the buffer to a multiple of 128 bytes, and
the whole of it goes to the peer. The length that is handed to `aes_encrypt_cbc` is an eighth of
that: the other blocks travel as they are. The receiver decrypts the same eighth, so that frames
do arrive. `encryptsAll_iff` says when a payload is encrypted as a whole: by coincidence, and for
all frames of a length only when the length is zero.

AES with the 256-bit key is a parameter, a permutation of the blocks for every key.
-/

namespace QNet.Ctap

open Tunnel

abbrev Block := Fin 16 → UInt8

/-- `xor_buf` on a block. -/
def xorBuf : Mask Block where
  mask c p := fun j ↦ c j ^^^ p j
  mask_mask c p := by
    funext j
    rw [← UInt8.xor_assoc, UInt8.xor_self, UInt8.zero_xor]
  comm c p := by
    funext j
    exact UInt8.xor_comm _ _

def block (buf : Mem) (idx : ℕ) : Block := fun j ↦ buf (16 * idx + j)

def putBlock (buf : Mem) (idx : ℕ) (out : Block) : Mem := buf.store (16 * idx) (List.ofFn out)

/-- The memory with these blocks. -/
def ofBlocks (x : ℕ → Block) : Mem := fun a ↦ x (a / 16) ⟨a % 16, Nat.mod_lt a (by decide)⟩

/-- The loop of `aes_encrypt_cbc` after some blocks: the buffer, which is input and output, and
`iv_buf`. -/
def encryptLoop (aes : Equiv.Perm Block) (iv : Block) (buf : Mem) : ℕ → Mem × Block
  | 0 => (buf, iv)
  | idx + 1 =>
      let (buf, ivBuf) := encryptLoop aes iv buf idx
      let bufOut := aes (xorBuf.mask ivBuf (block buf idx))
      (putBlock buf idx bufOut, bufOut)

/-- `aes_encrypt_cbc(buf, inLen, buf, ...)` -/
def aesEncryptCbc (aes : Equiv.Perm Block) (iv : Block) (buf : Mem) (inLen : ℕ) : Mem :=
  if inLen % 16 ≠ 0 then buf else (encryptLoop aes iv buf (inLen / 16)).1

def decryptLoop (aes : Equiv.Perm Block) (iv : Block) (buf : Mem) : ℕ → Mem × Block
  | 0 => (buf, iv)
  | idx + 1 =>
      let (buf, ivBuf) := decryptLoop aes iv buf idx
      let bufIn := block buf idx
      (putBlock buf idx (xorBuf.mask ivBuf (aes.symm bufIn)), bufIn)

/-- `aes_decrypt_cbc(buf, inLen, buf, ...)` -/
def aesDecryptCbc (aes : Equiv.Perm Block) (iv : Block) (buf : Mem) (inLen : ℕ) : Mem :=
  if inLen % 16 ≠ 0 then buf else (decryptLoop aes iv buf (inLen / 16)).1

/-! ## The two branches -/

def BUFSIZE : ℕ := 2000

/-- The length with the padding. -/
def diff (n : ℕ) : ℕ := if n % 128 ≠ 0 then n + (128 - n % 128) else n

def htons (n : ℕ) : List UInt8 := [UInt8.ofNat (n / 256), UInt8.ofNat n]

def ntohs : List UInt8 → ℕ
  | high :: low :: _ => 256 * high.toNat + low.toNat
  | _ => 0

/-- What is written for a frame. -/
structure Record where
  sha : Bytes32
  plength : List UInt8
  payload : List UInt8

/-- TAP2NET with the key `curKey1`. Behind the buffer the memory goes on, and what lies there is
sent when the padding does not fit. -/
def tap2net (aes : Bytes32 → Equiv.Perm Block) (iv : Block) (curKey1 : Key) (buffer : Mem)
    (packet : List UInt8) : Record :=
  let nread := packet.length
  let encrypted := aesEncryptCbc (aes curKey1.key) iv (buffer.store 0 packet) (diff nread / 8)
  ⟨curKey1.sha, htons nread, encrypted.slice 0 (diff nread)⟩

/-- NET2TAP with the key `curKey2`: the bytes for the TAP device. -/
def net2tap (aes : Bytes32 → Equiv.Perm Block) (iv : Block) (curKey2 : Key) (buffer : Mem)
    (plength payload : List UInt8) : List UInt8 :=
  let n := ntohs plength
  (aesDecryptCbc (aes curKey2.key) iv (buffer.store 0 payload) (diff n / 8)).slice 0 n

/-! ## Blocks -/

theorem ofBlocks_block (buf : Mem) : ofBlocks (block buf) = buf := by
  funext a
  exact congrArg buf (Nat.div_add_mod a 16)

theorem apply_eq_block (buf : Mem) (a : ℕ) :
    buf a = block buf (a / 16) ⟨a % 16, Nat.mod_lt a (by decide)⟩ :=
  (congrFun (ofBlocks_block buf) a).symm

theorem block_ofBlocks (x : ℕ → Block) : block (ofBlocks x) = x := by
  funext idx j
  have hdiv : (16 * idx + j.val) / 16 = idx := by omega
  have hmod : (16 * idx + j.val) % 16 = j.val := by omega
  simp only [block, ofBlocks, hdiv, hmod, Fin.eta]

theorem block_putBlock (buf : Mem) (idx : ℕ) (out : Block) (i : ℕ) :
    block (putBlock buf idx out) i = if i = idx then out else block buf i := by
  have hlength : (List.ofFn out).length = 16 := List.length_ofFn
  funext j
  unfold block putBlock
  split_ifs with hi
  · rw [hi, Mem.store_of_mem (by rw [hlength]; exact j.isLt), List.getElem_ofFn]
  · rcases Nat.lt_or_ge i idx with hlt | hge
    · rw [Mem.store_of_lt (by omega)]
    · rw [Mem.store_of_ge (by omega)]

/-- Two parts of memory with the same blocks. -/
theorem slice_eq_of_block {buf buf' : Mem} {n : ℕ}
    (h : ∀ i, 16 * i < n → block buf i = block buf' i) : buf.slice 0 n = buf'.slice 0 n := by
  apply Mem.slice_congr
  intro a ha
  rw [Nat.zero_add, apply_eq_block buf, apply_eq_block buf', h (a / 16) (by omega)]

theorem block_eq_of_slice {buf buf' : Mem} {n i : ℕ} (h : buf.slice 0 n = buf'.slice 0 n)
    (hi : 16 * (i + 1) ≤ n) : block buf i = block buf' i := by
  funext j
  have hbyte := (Mem.slice_eq_iff.mp h).2 (16 * i + j) (by simp; omega)
  rwa [Mem.getElem_slice, Nat.zero_add] at hbyte

/-- The bytes of a message that consists of whole blocks are the same if and only if the blocks
are. -/
theorem slice_eq_iff_block {buf buf' : Mem} {n : ℕ} (hn : n % 16 = 0) :
    buf.slice 0 n = buf'.slice 0 n ↔ ∀ i < n / 16, block buf i = block buf' i := by
  constructor
  · intro h i hi
    exact block_eq_of_slice h (by omega)
  · intro h
    exact slice_eq_of_block fun i hi ↦ h i (by omega)

/-! ## The loops -/

/-- One more block in place. -/
theorem block_putBlock_next {buf : Mem} {n : ℕ} {done left : ℕ → Block}
    (h : ∀ i, block buf i = if i < n then done i else left i) (i : ℕ) :
    block (putBlock buf n (done n)) i = if i < n + 1 then done i else left i := by
  rw [block_putBlock, h]
  split_ifs with heq hlt hlt' hlt'
  · rw [heq]
  · omega
  · rfl
  · omega
  · omega
  · rfl

section Loops

variable (aes : Equiv.Perm Block) (iv : Block) (buf : Mem)

theorem encryptLoop_spec (n : ℕ) :
    (encryptLoop aes iv buf n).2 = Cbc.chain xorBuf aes iv (block buf) n ∧
      ∀ i, block (encryptLoop aes iv buf n).1 i =
        if i < n then Cbc.encrypt xorBuf aes iv (block buf) i else block buf i := by
  induction n with
  | zero => exact ⟨rfl, fun i ↦ rfl⟩
  | succ n ih =>
    obtain ⟨hiv, hblocks⟩ := ih
    have hout : aes (xorBuf.mask (encryptLoop aes iv buf n).2
        (block (encryptLoop aes iv buf n).1 n)) = Cbc.encrypt xorBuf aes iv (block buf) n := by
      rw [hiv, hblocks, if_neg (Nat.lt_irrefl n), Cbc.encrypt_eq]
    refine ⟨hout, fun i ↦ ?_⟩
    change block (putBlock _ n _) i = _
    rw [hout]
    exact block_putBlock_next hblocks i

theorem decryptLoop_spec (n : ℕ) :
    (∀ i, block (decryptLoop aes iv buf n).1 i =
        if i < n then Cbc.decrypt xorBuf aes iv (block buf) i else block buf i) ∧
      Cbc.decrypt xorBuf aes iv (block buf) n =
        xorBuf.mask (decryptLoop aes iv buf n).2 (aes.symm (block buf n)) := by
  induction n with
  | zero => exact ⟨fun i ↦ rfl, rfl⟩
  | succ n ih =>
    obtain ⟨hblocks, hiv⟩ := ih
    have hin : block (decryptLoop aes iv buf n).1 n = block buf n := by
      rw [hblocks, if_neg (Nat.lt_irrefl n)]
    refine ⟨fun i ↦ ?_, ?_⟩
    · change block (putBlock _ n _) i = _
      rw [hin, ← hiv]
      exact block_putBlock_next hblocks i
    · change _ = xorBuf.mask (block _ n) _
      rw [hin]
      rfl

variable {inLen : ℕ} (hlen : inLen % 16 = 0)
include hlen

theorem block_aesEncryptCbc (i : ℕ) : block (aesEncryptCbc aes iv buf inLen) i =
    if i < inLen / 16 then Cbc.encrypt xorBuf aes iv (block buf) i else block buf i := by
  rw [aesEncryptCbc, if_neg (not_not.mpr hlen)]
  exact (encryptLoop_spec aes iv buf _).2 i

theorem block_aesDecryptCbc (i : ℕ) : block (aesDecryptCbc aes iv buf inLen) i =
    if i < inLen / 16 then Cbc.decrypt xorBuf aes iv (block buf) i else block buf i := by
  rw [aesDecryptCbc, if_neg (not_not.mpr hlen)]
  exact (decryptLoop_spec aes iv buf _).1 i

end Loops

/-! ## Whole payloads -/

theorem diff_spec (n : ℕ) : diff n % 128 = 0 ∧ n ≤ diff n ∧ diff n < n + 128 := by
  unfold diff
  split_ifs <;> omega

/-- The frames whose padding `buffer` can hold. -/
theorem diff_le_bufsize_iff (nread : ℕ) : diff nread ≤ BUFSIZE ↔ nread ≤ 1920 := by
  have hdiff := diff_spec nread
  unfold BUFSIZE
  omega

theorem ntohs_htons {n : ℕ} (h : n < 65536) : ntohs (htons n) = n := by
  simp only [htons, ntohs, UInt8.toNat_ofNat']
  omega

/-- AES-256-CBC of the whole padded frame. -/
def ciphertext (aes : Bytes32 → Equiv.Perm Block) (iv : Block) (curKey1 : Key) (buffer : Mem)
    (packet : List UInt8) : List UInt8 :=
  (ofBlocks (Cbc.encrypt xorBuf (aes curKey1.key) iv (block (buffer.store 0 packet)))).slice 0
    (diff packet.length)

/-- The whole frame is encrypted, the padding fits into the buffer, and the peer, with anything in
its buffer, gives the frame to its TAP device. -/
def EncryptsAll (aes : Bytes32 → Equiv.Perm Block) (iv : Block) (cur : Key) (buffer buffer' : Mem)
    (packet : List UInt8) : Prop :=
  let sent := tap2net aes iv cur buffer packet
  sent.payload = ciphertext aes iv cur buffer packet ∧ diff packet.length ≤ BUFSIZE ∧
    net2tap aes iv cur buffer' sent.plength sent.payload = packet

/-- The blocks behind the first eighth are their own ciphertext. -/
def Unchanged (aes : Equiv.Perm Block) (iv : Block) (x : ℕ → Block) (n : ℕ) : Prop :=
  ∀ i, diff n / 128 ≤ i → i < diff n / 16 → Cbc.encrypt xorBuf aes iv x i = x i

section Whole

variable (aes : Bytes32 → Equiv.Perm Block) (iv : Block) (cur : Key) (buffer buffer' : Mem)
  (packet : List UInt8)

theorem payload_eq : (tap2net aes iv cur buffer packet).payload =
    (aesEncryptCbc (aes cur.key) iv (buffer.store 0 packet) (diff packet.length / 8)).slice 0
      (diff packet.length) := rfl

/-- Behind the first eighth the payload is the frame itself. -/
theorem payload_eq_plain {i : ℕ} (hi : diff packet.length / 8 ≤ i) (hlt : i < diff packet.length) :
    (tap2net aes iv cur buffer packet).payload.getD i 0 = (buffer.store 0 packet) i := by
  have hdiff := diff_spec packet.length
  have hlen : diff packet.length / 8 % 16 = 0 := by omega
  rw [payload_eq, List.getD_eq_getElem _ _ (by simpa using hlt), Mem.getElem_slice, Nat.zero_add,
    apply_eq_block (aesEncryptCbc _ _ _ _), block_aesEncryptCbc _ _ _ hlen, if_neg (by omega),
    ← apply_eq_block]

theorem payload_eq_ciphertext_iff :
    (tap2net aes iv cur buffer packet).payload = ciphertext aes iv cur buffer packet ↔
      Unchanged (aes cur.key) iv (block (buffer.store 0 packet)) packet.length := by
  have hdiff := diff_spec packet.length
  have hlen : diff packet.length / 8 % 16 = 0 := by omega
  have hdiv : diff packet.length / 8 / 16 = diff packet.length / 128 := by omega
  rw [payload_eq, ciphertext, slice_eq_iff_block (by omega)]
  simp only [block_aesEncryptCbc _ _ _ hlen, block_ofBlocks, hdiv]
  constructor
  · intro h i hge hlt
    have hblock := h i hlt
    rw [if_neg (Nat.not_lt.mpr hge)] at hblock
    exact hblock.symm
  · intro h i hlt
    split_ifs with hi
    · rfl
    · exact (h i (Nat.not_lt.mp hi) hlt).symm

/-- Whatever is encrypted of it, the frame arrives. -/
theorem net2tap_tap2net (hlength : packet.length < 65536) :
    net2tap aes iv cur buffer' (tap2net aes iv cur buffer packet).plength
      (tap2net aes iv cur buffer packet).payload = packet := by
  have hdiff := diff_spec packet.length
  have hlen : diff packet.length / 8 % 16 = 0 := by omega
  have hn : ntohs (tap2net aes iv cur buffer packet).plength = packet.length := ntohs_htons hlength
  rw [net2tap, hn, payload_eq]
  generalize hencrypted :
    aesEncryptCbc (aes cur.key) iv (buffer.store 0 packet) (diff packet.length / 8) = encrypted
  have hreceived (i : ℕ) (hi : i < diff packet.length / 16) :
      block (buffer'.store 0 (encrypted.slice 0 (diff packet.length))) i = block encrypted i := by
    refine block_eq_of_slice (n := diff packet.length) ?_ (by omega)
    have hholds := Mem.holds_store buffer' 0 (encrypted.slice 0 (diff packet.length))
    rwa [Mem.Holds, Mem.length_slice] at hholds
  calc
    _ = (buffer.store 0 packet).slice 0 packet.length := by
      refine slice_eq_of_block fun i hi ↦ ?_
      rw [block_aesDecryptCbc _ _ _ hlen]
      split_ifs with hlt
      · have hprefix : ∀ j ≤ i,
            block (buffer'.store 0 (encrypted.slice 0 (diff packet.length))) j =
              Cbc.encrypt xorBuf (aes cur.key) iv (block (buffer.store 0 packet)) j := by
          intro j hj
          rw [hreceived j (by omega), ← hencrypted, block_aesEncryptCbc _ _ _ hlen,
            if_pos (by omega)]
        rw [Cbc.decrypt_congr hprefix, Cbc.decrypt_encrypt]
      · rw [hreceived i (by omega), ← hencrypted, block_aesEncryptCbc _ _ _ hlen, if_neg hlt]
    _ = packet := Mem.holds_store buffer 0 packet

theorem encryptsAll_iff_unchanged : EncryptsAll aes iv cur buffer buffer' packet ↔
    packet.length ≤ 1920 ∧
      Unchanged (aes cur.key) iv (block (buffer.store 0 packet)) packet.length := by
  rw [EncryptsAll, payload_eq_ciphertext_iff, diff_le_bufsize_iff]
  constructor
  · intro h
    exact ⟨h.2.1, h.1⟩
  · intro h
    exact ⟨h.2, h.1, net2tap_tap2net aes iv cur buffer buffer' packet (by omega)⟩

end Whole

/-- Of two frames that differ in the first byte only, at most one is encrypted as a whole. -/
theorem not_encryptsAll_both (aes : Bytes32 → Equiv.Perm Block) (iv : Block) (cur : Key)
    (buffer buffer' : Mem) (rest : List UInt8) :
    ¬ (EncryptsAll aes iv cur buffer buffer' (0 :: rest) ∧
      EncryptsAll aes iv cur buffer buffer' (1 :: rest)) := by
  rw [encryptsAll_iff_unchanged, encryptsAll_iff_unchanged]
  intro h
  have hzero := h.1.2
  have hone := h.2.2
  simp only [List.length_cons] at hzero hone
  have hdiff := diff_spec (rest.length + 1)
  obtain ⟨k, hk⟩ : ∃ k, diff (rest.length + 1) / 128 = k + 1 :=
    ⟨diff (rest.length + 1) / 128 - 1, by omega⟩
  -- Block `k + 1` is the first one that is sent as it is.
  have hsame : ∀ j, 0 < j → j ≤ k + 1 →
      block (buffer.store 0 (0 :: rest)) j = block (buffer.store 0 (1 :: rest)) j := by
    intro j hpos _
    funext i
    obtain ⟨a, ha⟩ : ∃ a, 16 * j + i.val = a + 1 := ⟨16 * j + i.val - 1, by omega⟩
    simp only [block, ha, Mem.store, Nat.zero_le, if_true, Nat.sub_zero, List.getD_cons_succ]
  have hhead := Cbc.head_eq_of_encrypt_eq hsame
    (hzero (k + 1) (by omega) (by omega)) (hone (k + 1) (by omega) (by omega))
  have hbyte := congrFun hhead 0
  simp [block, Mem.store] at hbyte

/-- For every cipher, key and content of the buffers: a frame is padded within the buffer,
encrypted as a whole and delivered if and only if it has at most 1920 bytes and its blocks behind
the first eighth happen to be their own ciphertext. All the frames of one length are only when they
are empty. -/
theorem encryptsAll_iff (aes : Bytes32 → Equiv.Perm Block) (iv : Block) (cur : Key)
    (buffer buffer' : Mem) (packet : List UInt8) :
    (EncryptsAll aes iv cur buffer buffer' packet ↔
      packet.length ≤ 1920 ∧
        Unchanged (aes cur.key) iv (block (buffer.store 0 packet)) packet.length) ∧
    ((∀ other : List UInt8, other.length = packet.length →
        EncryptsAll aes iv cur buffer buffer' other) ↔ packet = []) := by
  refine ⟨encryptsAll_iff_unchanged aes iv cur buffer buffer' packet, ?_⟩
  constructor
  · intro hall
    cases packet with
    | nil => rfl
    | cons byte rest =>
      exact absurd ⟨hall (0 :: rest) rfl, hall (1 :: rest) rfl⟩
        (not_encryptsAll_both aes iv cur buffer buffer' rest)
  · rintro rfl other hother
    rw [List.length_eq_zero_iff.mp hother, encryptsAll_iff_unchanged]
    exact ⟨Nat.zero_le _, fun i _ hi ↦ absurd hi (Nat.not_lt_zero i)⟩

/-- Two frames of 128 bytes: under no cipher and key are both encrypted as a whole. -/
theorem not_encryptsAll_128 : ¬ ∃ (aes : Bytes32 → Equiv.Perm Block) (iv : Block) (cur : Key)
    (buffer buffer' : Mem),
    EncryptsAll aes iv cur buffer buffer' (0 :: List.replicate 127 0) ∧
      EncryptsAll aes iv cur buffer buffer' (1 :: List.replicate 127 0) := by
  rintro ⟨aes, iv, cur, buffer, buffer', hboth⟩
  exact not_encryptsAll_both aes iv cur buffer buffer' _ hboth

end QNet.Ctap
