import QNet.Lib.Framing
import QNet.Tcpmux.Stream

/-!
# The messages of `tcpmux`

What the two processes put into the stream: a message has an id, a size and at most `VPACKETSIZE`
bytes. The id is that of a client, and the bytes are what the client has sent; or it is -1, and the
bytes are an acknowledgement: the number of the bytes of the stream that were read, and then pairs
of a client id and the number of bytes that the client there has taken, or -1 when it is gone.
-/

namespace QNet.Tcpmux

def VPACKETSIZE : ℕ := 2 ^ 10

/-- `hdr` in `mainr` -/
def HDR : ℕ := 8

/-! ## Integers -/

/-- Four bytes in network order that are read into an `int`. -/
def readInt (bytes : List UInt8) : ℤ := (ntohl bytes).bmod (2 ^ 32)

/-- The values of an `int`. -/
def IsInt (n : ℤ) : Prop := -2 ^ 31 ≤ n ∧ n < 2 ^ 31

instance (n : ℤ) : Decidable (IsInt n) := inferInstanceAs (Decidable (_ ∧ _))

theorem isInt_readInt (bytes : List UInt8) : IsInt (readInt bytes) := by
  have hle := Int.le_bmod (x := ntohl bytes) (m := 2 ^ 32) (by decide)
  have hlt := Int.bmod_lt (x := ntohl bytes) (m := 2 ^ 32) (by decide)
  unfold IsInt readInt
  omega

theorem readInt_htonl {n : ℤ} (h : IsInt n) : readInt (htonl n) = n := by
  obtain ⟨hle, hlt⟩ := h
  have hmod : (n % 2 ^ 32).bmod (2 ^ 32) = n.bmod (2 ^ 32) := Int.emod_bmod n (2 ^ 32)
  rw [readInt, ntohl_htonl, hmod]
  exact Int.bmod_eq_of_le (by omega) (by omega)

/-! ## Messages -/

/-- `message`; the sizes are those that `mainr` lets pass. -/
structure Message where
  id : ℤ
  buf : List UInt8
  isInt_id : IsInt id
  buf_pos : 0 < buf.length
  buf_le : buf.length ≤ VPACKETSIZE

namespace Message

def bytes (m : Message) : List UInt8 := htonl m.id ++ (htonl m.buf.length ++ m.buf)

theorem length_bytes (m : Message) : m.bytes.length = HDR + m.buf.length := by
  simp [bytes, HDR]
  omega

/-- `ntohl(mc->rin.sz)` -/
def rinSz (rin : List UInt8) : ℤ := ntohl ((rin.drop 4).take 4)

/-- `rsz` in `mainr`: how many bytes it reads before it looks at them. `none` is a size that no
message has. -/
def rsz (rin : List UInt8) : Option ℕ :=
  if HDR ≤ rin.length then
    if rinSz rin = 0 ∨ VPACKETSIZE < rinSz rin then none else some (HDR + (rinSz rin).toNat)
  else some HDR

/-- `rsz > hdr && mc->rpos == rsz` -/
def Whole (rin : List UInt8) : Prop := HDR < rin.length ∧ rsz rin = some rin.length

instance (rin : List UInt8) : Decidable (Whole rin) := inferInstanceAs (Decidable (_ ∧ _))

theorem rsz_eq_some_iff {rin : List UInt8} {n : ℕ} (h : HDR ≤ rin.length) :
    rsz rin = some n ↔ (0 < n - HDR ∧ n - HDR ≤ VPACKETSIZE) ∧ rinSz rin = (n - HDR : ℕ) := by
  rw [rsz, if_pos h]
  have hpos : 0 ≤ rinSz rin := Int.natCast_nonneg _
  split_ifs with hbad
  · simp only [false_iff]
    omega
  · rw [Option.some.injEq]
    omega

/-- What `mainr` looks at when a message is there. -/
def ofRin (rin : List UInt8) (h : Whole rin) : Message where
  id := readInt (rin.take 4)
  buf := rin.drop HDR
  isInt_id := isInt_readInt _
  buf_pos := by
    rw [List.length_drop]
    exact Nat.sub_pos_of_lt h.1
  buf_le := by
    rw [List.length_drop]
    exact ((rsz_eq_some_iff h.1.le).mp h.2).1.2

@[ext]
theorem ext {m m' : Message} (hid : m.id = m'.id) (hbuf : m.buf = m'.buf) : m = m' := by
  cases m
  cases m'
  cases hid
  cases hbuf
  rfl

@[simp]
theorem id_ofRin (rin : List UInt8) (h : Whole rin) : (ofRin rin h).id = readInt (rin.take 4) := by
  rw [ofRin]

@[simp]
theorem buf_ofRin (rin : List UInt8) (h : Whole rin) : (ofRin rin h).buf = rin.drop HDR := rfl

theorem drop_bytes (m : Message) : m.bytes.drop HDR = m.buf := by
  rw [bytes, ← List.append_assoc]
  exact List.drop_left' (by simp [HDR])

theorem rinSz_bytes (m : Message) : rinSz m.bytes = m.buf.length := by
  have hlt : m.buf.length < 2 ^ 32 := m.buf_le.trans_lt (by decide)
  rw [rinSz, bytes, List.drop_left' (length_htonl _), List.take_left' (length_htonl _), ntohl_htonl]
  omega

/-- A message is read as it was written. -/
theorem ofRin_bytes (m : Message) (h : Whole m.bytes) : ofRin m.bytes h = m := by
  apply Message.ext
  · rw [id_ofRin, bytes, List.take_left' (length_htonl _), readInt_htonl m.isInt_id]
  · rw [buf_ofRin, drop_bytes]

theorem rinSz_append {part : List UInt8} (rest : List UInt8) (h : HDR ≤ part.length) :
    rinSz (part ++ rest) = rinSz part := by
  have hfour : 4 ≤ part.length := (by decide : 4 ≤ HDR).trans h
  have hdrop : 4 ≤ (part.drop 4).length := by
    rw [List.length_drop]
    have : (8 : ℕ) ≤ part.length := h
    omega
  rw [rinSz, List.drop_append_of_le_length hfour, List.take_append_of_le_length hdrop, rinSz]

def framing : Framing Message UInt8 where
  encode := bytes
  header := HDR
  size rin := HDR + (rinSz rin).toNat
  header_le m := by
    rw [length_bytes]
    exact Nat.le_add_right _ _
  header_pos := by decide
  size_encode m := by rw [rinSz_bytes, length_bytes, Int.toNat_natCast]
  size_append rest h := by rw [rinSz_append rest h]

/-- The bytes of messages, one behind the other. -/
def stream (messages : List Message) : List UInt8 := framing.stream messages

/-- What has come of a stream of messages never has a bad size. -/
theorem rsz_ne_none {messages : List Message} {rin : List UInt8} (h : rin <+: stream messages) :
    rsz rin ≠ none := by
  by_cases hheader : HDR ≤ rin.length
  · obtain ⟨m, rest, -, hsize⟩ := Framing.exists_first (F := framing) h hheader
    have hsz : HDR + (rinSz rin).toNat = m.bytes.length := hsize
    have hsome : rsz rin = some m.bytes.length := by
      rw [rsz_eq_some_iff hheader, m.length_bytes, Nat.add_sub_cancel_left]
      rw [m.length_bytes] at hsz
      have hpos : 0 ≤ rinSz rin := Int.natCast_nonneg _
      exact ⟨⟨m.buf_pos, m.buf_le⟩, by omega⟩
    rw [hsome]
    exact Option.some_ne_none _
  · rw [rsz, if_neg hheader]
    exact Option.some_ne_none _

/-- The message that `mainr` looks at is the first of those that come. -/
theorem ofRin_eq_head {messages : List Message} {rin : List UInt8} (h : rin <+: stream messages)
    (hwhole : Whole rin) :
    rin = (ofRin rin hwhole).bytes ∧ ∃ rest, messages = ofRin rin hwhole :: rest := by
  have hsz := (rsz_eq_some_iff hwhole.1.le).mp hwhole.2
  have hsize : framing.size rin = rin.length := by
    have := hwhole.1
    change HDR + (rinSz rin).toNat = rin.length
    omega
  obtain ⟨m, rest, hmessages, hrin⟩ :=
    Framing.eq_encode_of_whole (F := framing) h hwhole.1.le hsize
  obtain rfl : rin = m.bytes := hrin
  rw [ofRin_bytes]
  exact ⟨rfl, rest, hmessages⟩

end Message

/-! ## Acknowledgements -/

/-- The pairs that the loop of `read_ack` finds: it goes on while there is room for two integers. -/
def ackPairs : List UInt8 → List (ℤ × ℤ)
  | b₀ :: b₁ :: b₂ :: b₃ :: b₄ :: b₅ :: b₆ :: b₇ :: rest =>
      (readInt [b₀, b₁, b₂, b₃], readInt [b₄, b₅, b₆, b₇]) :: ackPairs rest
  | _ => []

/-- The bytes that `write_ack` writes for a pair. -/
def pairBytes (pair : ℤ × ℤ) : List UInt8 := htonl pair.1 ++ htonl pair.2

theorem length_flatMap_pairBytes (pairs : List (ℤ × ℤ)) :
    (pairs.flatMap pairBytes).length = 8 * pairs.length := by
  induction pairs with
  | nil => rfl
  | cons pair rest ih =>
    rw [List.flatMap_cons, List.length_append, ih, pairBytes, List.length_append, length_htonl,
      length_htonl, List.length_cons]
    omega

theorem ackPairs_append {a b : List UInt8} (ha : a.length = 4) (hb : b.length = 4)
    (rest : List UInt8) : ackPairs (a ++ b ++ rest) = (readInt a, readInt b) :: ackPairs rest := by
  obtain ⟨b₀, b₁, b₂, b₃, rfl⟩ := List.length_eq_four.mp ha
  obtain ⟨b₄, b₅, b₆, b₇, rfl⟩ := List.length_eq_four.mp hb
  rfl

/-- `read_ack` finds what `write_ack` has written. -/
theorem ackPairs_flatMap {pairs : List (ℤ × ℤ)} (h : ∀ p ∈ pairs, IsInt p.1 ∧ IsInt p.2) :
    ackPairs (pairs.flatMap pairBytes) = pairs := by
  induction pairs with
  | nil => rfl
  | cons pair rest ih =>
    obtain ⟨hpair, hrest⟩ := List.forall_mem_cons.mp h
    rw [List.flatMap_cons, pairBytes, ackPairs_append (length_htonl _) (length_htonl _), ih hrest,
      readInt_htonl hpair.1, readInt_htonl hpair.2]

/-- What a message says about one client. -/
inductive Entry
  | data (bytes : List UInt8)
  | karma (amt : ℕ)
  | closed
  deriving DecidableEq

/-- A negative number is the notice that the client is gone. -/
def Entry.ofKarma (karma : ℤ) : Entry := if 0 ≤ karma then .karma karma.toNat else .closed

namespace Message

/-- What a message says, in the order in which it is looked at. -/
def entries (m : Message) : List (ℤ × Entry) :=
  if m.id = -1 then (ackPairs (m.buf.drop 4)).map fun pair ↦ (pair.1, .ofKarma pair.2)
  else [(m.id, .data m.buf)]

/-- The number of the bytes of the stream that a message acknowledges. -/
def karma (m : Message) : ℤ := if m.id = -1 then readInt (m.buf.take 4) else 0

end Message

end QNet.Tcpmux
