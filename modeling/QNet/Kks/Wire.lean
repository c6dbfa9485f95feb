import Mathlib.Data.List.GetD
import QNet.Lib.ByteStream
import QNet.Lib.Parity

/-!
# The objects on the wire

`Send` writes a vector as its size and its elements, bits packed into bytes with the first one
lowest; nothing follows a size of zero. A `detections` record is its four vectors. `Recv` waits for
all bytes of an object and reads a size as a signed number. `recvAll_send` says that a stream of
objects can be taken apart again.
-/

namespace QNet.Kks

open ByteStream Parity

structure Detections where
  basis : List Bool
  key : List Bool
  special : List Bool
  count : List UInt32
  deriving DecidableEq

/-! ## Sending -/

def sendInt (n : ℕ) : List UInt8 := leBytes 4 n

/-- One byte of `package`. -/
def packByte (v : List Bool) (i : ℕ) : UInt8 :=
  UInt8.ofNat (ofDigits (fun j ↦ v.getD (8 * i + j) false) 8)

def packBits (v : List Bool) : List UInt8 := (List.range ((v.length + 7) / 8)).map (packByte v)

/-- `Send(std::vector<bool>)`. -/
def sendBits (v : List Bool) : List UInt8 := sendInt v.length ++ packBits v

/-- `Send(std::vector<unsigned int>)`. -/
def sendUInts (v : List UInt32) : List UInt8 :=
  sendInt v.length ++ v.flatMap fun n ↦ leBytes 4 n.toNat

/-- `Send(detections)`. -/
def sendDetections (d : Detections) : List UInt8 :=
  sendBits d.basis ++ (sendBits d.key ++ (sendBits d.special ++ sendUInts d.count))

/-! ## Receiving -/

/-- A `recv` with `MSG_WAITALL`: the bytes and what is left; `none` while they are missing. -/
def recvBytes (n : ℕ) (bytes : List UInt8) : Option (List UInt8 × List UInt8) :=
  if n ≤ bytes.length then some (bytes.take n, bytes.drop n) else none

def recvInt (bytes : List UInt8) : Option (ℕ × List UInt8) :=
  (recvBytes 4 bytes).map fun (number, rest) ↦ (ofLe number, rest)

/-- A size; a negative one cannot be allocated. -/
def recvSize (bytes : List UInt8) : Option (ℕ × List UInt8) :=
  (recvInt bytes).filter fun (size, _) ↦ size < 2 ^ 31

def unpackBits (size : ℕ) (package : List UInt8) : List Bool :=
  (List.range size).map fun i ↦ (package.getD (i / 8) 0).toNat.testBit (i % 8)

/-- `Recv(std::vector<bool> &)`. -/
def recvBits (bytes : List UInt8) : Option (List Bool × List UInt8) := do
  let (size, rest) ← recvSize bytes
  let (package, rest) ← recvBytes ((size + 7) / 8) rest
  return (unpackBits size package, rest)

def unpackUInts (size : ℕ) (package : List UInt8) : List UInt32 :=
  (List.range size).map fun i ↦ UInt32.ofNat (ofLe ((package.drop (4 * i)).take 4))

/-- `Recv(std::vector<unsigned int> &)`. -/
def recvUInts (bytes : List UInt8) : Option (List UInt32 × List UInt8) := do
  let (size, rest) ← recvSize bytes
  let (package, rest) ← recvBytes (4 * size) rest
  return (unpackUInts size package, rest)

/-- `Recv(detections &)`. -/
def recvDetections (bytes : List UInt8) : Option (Detections × List UInt8) := do
  let (basis, rest) ← recvBits bytes
  let (key, rest) ← recvBits rest
  let (special, rest) ← recvBits rest
  let (count, rest) ← recvUInts rest
  return (⟨basis, key, special, count⟩, rest)

/-! ## Round trips -/

theorem recvBytes_append {n : ℕ} {bytes : List UInt8} (h : bytes.length = n) (rest : List UInt8) :
    recvBytes n (bytes ++ rest) = some (bytes, rest) := by
  have hle : n ≤ (bytes ++ rest).length := by
    rw [List.length_append]
    omega
  rw [recvBytes, if_pos hle, List.take_left' h, List.drop_left' h]

theorem recvInt_sendInt {n : ℕ} (h : n < 2 ^ 32) (rest : List UInt8) :
    recvInt (sendInt n ++ rest) = some (n, rest) := by
  rw [recvInt, sendInt, recvBytes_append (length_leBytes 4 n), Option.map_some]
  dsimp only
  rw [ofLe_leBytes (by omega)]

theorem recvSize_sendInt {n : ℕ} (h : n < 2 ^ 31) (rest : List UInt8) :
    recvSize (sendInt n ++ rest) = some (n, rest) := by
  rw [recvSize, recvInt_sendInt (by omega)]
  exact Option.filter_some_pos (decide_eq_true h)

theorem length_packBits (v : List Bool) : (packBits v).length = (v.length + 7) / 8 := by
  rw [packBits, List.length_map, List.length_range]

/-- Every bit is found in its byte. -/
theorem testBit_packBits (v : List Bool) {i : ℕ} (hi : i < v.length) :
    ((packBits v).getD (i / 8) 0).toNat.testBit (i % 8) = v.getD i false := by
  have hbyte : i / 8 < (packBits v).length := by
    rw [length_packBits]
    omega
  have hdigit : i % 8 < 8 := Nat.mod_lt i (by decide)
  rw [List.getD_eq_getElem _ _ hbyte]
  simp only [packBits, List.getElem_map, List.getElem_range, packByte]
  rw [UInt8.toNat_ofNat', Nat.mod_eq_of_lt (ofDigits_lt _ 8), testBit_ofDigits hdigit,
    Nat.div_add_mod]

theorem unpackBits_packBits (v : List Bool) : unpackBits v.length (packBits v) = v := by
  apply List.ext_getElem
  · rw [unpackBits, List.length_map, List.length_range]
  · intro i hi hlt
    rw [← List.getD_eq_getElem v false hlt, ← testBit_packBits v hlt]
    simp only [unpackBits, List.getElem_map, List.getElem_range]

theorem recvBits_sendBits {v : List Bool} (h : v.length < 2 ^ 31) (rest : List UInt8) :
    recvBits (sendBits v ++ rest) = some (v, rest) := by
  rw [recvBits, sendBits, List.append_assoc, recvSize_sendInt h]
  simp only [Option.bind_eq_bind, Option.bind_some]
  rw [recvBytes_append (length_packBits v), Option.bind_some, unpackBits_packBits]
  rfl

theorem unpackUInts_flatMap (v : List UInt32) :
    unpackUInts v.length (v.flatMap fun n ↦ leBytes 4 n.toNat) = v := by
  induction v with
  | nil => rfl
  | cons n v ih =>
    have hfirst := length_leBytes 4 n.toNat
    have hrest : (List.range v.length).map (fun i ↦ UInt32.ofNat (ofLe (((leBytes 4 n.toNat ++
        v.flatMap fun n ↦ leBytes 4 n.toNat).drop (4 * (i + 1))).take 4))) = v := by
      refine Eq.trans ?_ ih
      apply List.map_congr_left
      intro i _
      rw [Nat.mul_add_one, Nat.add_comm, ← List.drop_drop, List.drop_left' hfirst]
    have hlt : n.toNat < 256 ^ 4 := n.toNat_lt
    rw [unpackUInts, List.length_cons, List.range_succ_eq_map, List.map_cons, List.flatMap_cons,
      Nat.mul_zero, List.drop_zero, List.take_left' hfirst, ofLe_leBytes hlt, UInt32.ofNat_toNat,
      List.map_map]
    exact congrArg (n :: ·) hrest

theorem recvUInts_sendUInts {v : List UInt32} (h : v.length < 2 ^ 31) (rest : List UInt8) :
    recvUInts (sendUInts v ++ rest) = some (v, rest) := by
  have hlength : (v.flatMap fun n ↦ leBytes 4 n.toNat).length = 4 * v.length := by
    rw [List.length_flatMap]
    simp [Nat.mul_comm]
  rw [recvUInts, sendUInts, List.append_assoc, recvSize_sendInt h]
  simp only [Option.bind_eq_bind, Option.bind_some]
  rw [recvBytes_append hlength, Option.bind_some, unpackUInts_flatMap]
  rfl

/-- The sizes of the vectors are not read as negative numbers. -/
structure Detections.Small (d : Detections) : Prop where
  basis : d.basis.length < 2 ^ 31
  key : d.key.length < 2 ^ 31
  special : d.special.length < 2 ^ 31
  count : d.count.length < 2 ^ 31

theorem recvDetections_sendDetections {d : Detections} (h : d.Small) (rest : List UInt8) :
    recvDetections (sendDetections d ++ rest) = some (d, rest) := by
  rw [recvDetections, sendDetections, List.append_assoc, List.append_assoc, List.append_assoc,
    recvBits_sendBits h.basis]
  simp only [Option.bind_eq_bind, Option.bind_some]
  rw [recvBits_sendBits h.key, Option.bind_some, recvBits_sendBits h.special, Option.bind_some,
    recvUInts_sendUInts h.count, Option.bind_some]
  rfl

/-! ## Streams of objects -/

/-- The types `Send` and `Recv` are overloaded for; an enumeration is sent as an `int`. -/
inductive ObjectType
  | int
  | unsigned
  | bits
  | uints
  | detections

inductive Object
  | int (number : Int32)
  | unsigned (number : UInt32)
  | bits (v : List Bool)
  | uints (v : List UInt32)
  | detections (d : Detections)
  deriving DecidableEq

namespace Object

def type : Object → ObjectType
  | .int _ => .int
  | .unsigned _ => .unsigned
  | .bits _ => .bits
  | .uints _ => .uints
  | .detections _ => .detections

/-- `Send`. An `unsigned int` is converted to an `int`, which keeps its bits. -/
def send : Object → List UInt8
  | .int number => sendInt number.toUInt32.toNat
  | .unsigned number => sendInt number.toNat
  | .bits v => sendBits v
  | .uints v => sendUInts v
  | .detections d => sendDetections d

/-- `Recv` into an object that was just constructed. -/
def recv : ObjectType → List UInt8 → Option (Object × List UInt8)
  | .int, bytes => (recvInt bytes).map fun (n, rest) ↦ (.int (UInt32.ofNat n).toInt32, rest)
  | .unsigned, bytes => (recvInt bytes).map fun (n, rest) ↦ (.unsigned (UInt32.ofNat n), rest)
  | .bits, bytes => (recvBits bytes).map fun (v, rest) ↦ (.bits v, rest)
  | .uints, bytes => (recvUInts bytes).map fun (v, rest) ↦ (.uints v, rest)
  | .detections, bytes => (recvDetections bytes).map fun (d, rest) ↦ (.detections d, rest)

/-- One `Recv` after the other. -/
def recvAll : List ObjectType → List UInt8 → Option (List Object × List UInt8)
  | [], bytes => some ([], bytes)
  | type :: types, bytes => do
      let (object, rest) ← recv type bytes
      let (objects, rest) ← recvAll types rest
      return (object :: objects, rest)

/-- The sizes of all vectors are below `2 ^ 31`. -/
def Small : Object → Prop
  | .int _ | .unsigned _ => True
  | .bits v => v.length < 2 ^ 31
  | .uints v => v.length < 2 ^ 31
  | .detections d => d.Small

theorem recv_send {object : Object} (h : object.Small) (rest : List UInt8) :
    recv object.type (object.send ++ rest) = some (object, rest) := by
  cases object with
  | int number =>
    rw [type, send, recv, recvInt_sendInt number.toUInt32.toNat_lt, Option.map_some]
    dsimp only
    rw [UInt32.ofNat_toNat, Int32.toInt32_toUInt32]
  | unsigned number =>
    rw [type, send, recv, recvInt_sendInt number.toNat_lt, Option.map_some]
    dsimp only
    rw [UInt32.ofNat_toNat]
  | bits v =>
    rw [type, send, recv, recvBits_sendBits h, Option.map_some]
  | uints v =>
    rw [type, send, recv, recvUInts_sendUInts h, Option.map_some]
  | detections d =>
    rw [type, send, recv, recvDetections_sendDetections h, Option.map_some]

/-- Whatever is sent is received, with nothing left and nothing missing. -/
theorem recvAll_send (objects : List Object) (hsmall : ∀ object ∈ objects, object.Small)
    (rest : List UInt8) :
    recvAll (objects.map type) (objects.flatMap send ++ rest) = some (objects, rest) := by
  induction objects with
  | nil => rfl
  | cons object objects ih =>
    have hfirst : object.Small := hsmall object List.mem_cons_self
    have hothers := ih fun other hother ↦ hsmall other (List.mem_cons_of_mem _ hother)
    rw [List.map_cons, List.flatMap_cons, List.append_assoc, recvAll, recv_send hfirst]
    simp only [Option.bind_eq_bind, Option.bind_some]
    rw [hothers]
    rfl

/-- One object of each type: a negative number, nine bits, and an empty vector among them. -/
def sampleObjects : List Object :=
  [.int (-2), .unsigned 7, .bits [true, false, true, true, false, false, true, false, true],
    .uints [], .detections ⟨[true], [false], [], [5, 131067]⟩]

theorem recvAll_send_sampleObjects :
    recvAll [.int, .unsigned, .bits, .uints, .detections] (sampleObjects.flatMap send ++ [1]) =
      some (sampleObjects, [1]) := by
  apply recvAll_send sampleObjects
  simp only [sampleObjects, List.forall_mem_cons]
  exact ⟨trivial, trivial, Nat.lt_of_lt_of_le (by decide : 9 < 10) (by decide),
    Nat.two_pow_pos 31, ⟨by decide, by decide, by decide, by decide⟩, nofun⟩

end Object

end QNet.Kks
