import Mathlib.Data.List.ReduceOption
import Mathlib.Logic.Function.Basic
import QNet.Lib.CString
import QNet.Lib.Machine
import QNet.Lib.Memory
import QNet.Lib.ByteStream

/-!
# The codec of qcrypt

Data are encrypted in blocks of at most 32 bytes with the bytes of the current key from `curpos`
on. Each block is preceded by the number of its key, the position and the length. Keys form a
ring: a block that would reach the end of the current key goes to the start of the next one.

Encryption and decryption of a process share the variables `curkey` and `curpos`: a block that is
decrypted sets them to its own key and position.
-/

namespace QNet.Qcrypt

open ByteStream

abbrev Bytes8 := Fin 8 → UInt8

/-- A `struct key` without `curpos`, which is not shared by the two ends. -/
structure Key where
  num : Bytes8
  key : List UInt8
  length_le : key.length ≤ 1024

def Key.size (key : Key) : ℕ := key.key.length

variable {keys : List Key}

/-- The current key of a process and the position in each key. -/
structure Codec (keys : List Key) where
  curkey : Option (Fin keys.length)
  curpos : Fin keys.length → ℕ

/-- `key->next` in the circular list. -/
def nextKey (i : Fin keys.length) : Fin keys.length :=
  ⟨(i + 1) % keys.length, Nat.mod_lt _ (Nat.zero_lt_of_lt i.isLt)⟩

/-- A key as it lies in the memory of a process; behind its bytes stands what was there before. -/
def pad (behind : Fin keys.length → Mem) (i : Fin keys.length) : Mem :=
  fun off ↦ (keys.get i).key.getD off (behind i off)

/-- A block on the wire. -/
structure Block (keys : List Key) where
  key : Fin keys.length
  curpos : ℕ
  out : List UInt8

namespace Block

/-- What `crypt` writes for a block. -/
def writes (b : Block keys) : List (List UInt8) :=
  [List.ofFn (keys.get b.key).num, leBytes 4 b.curpos, leBytes 4 b.out.length, b.out]

/-- The data of the block, with the keys of a process. -/
def data (behind : Fin keys.length → Mem) (b : Block keys) : List UInt8 :=
  xorPad (fun i ↦ pad behind b.key (b.curpos + i)) b.out

/-- The block lies in its key. -/
def Fits (b : Block keys) : Prop := b.curpos + b.out.length ≤ (keys.get b.key).size

/-- Within a key it does not matter what lies behind it. -/
theorem Fits.data_eq {b : Block keys} (h : b.Fits) (behind behind' : Fin keys.length → Mem) :
    b.data behind = b.data behind' := by
  apply xorPad_congr
  intro i hi
  have hinside : b.curpos + i < (keys.get b.key).key.length := by
    have hfits : b.curpos + b.out.length ≤ (keys.get b.key).key.length := h
    omega
  simp only [pad, List.getD_eq_getElem _ _ hinside]

end Block

namespace Codec

/-- No key is current yet. -/
def init : Codec keys := ⟨none, fun _ ↦ 0⟩

/-- `curkey`, at first the start of the ring; `none` when there are no keys. -/
def current (s : Codec keys) : Option (Fin keys.length) :=
  match s.curkey with
  | some i => some i
  | none => if h : 0 < keys.length then some ⟨0, h⟩ else none

/-- The current key does not hold another block of `readsize` bytes. -/
def Full (s : Codec keys) (i : Fin keys.length) (readsize : ℕ) : Prop :=
  (keys.get i).size ≤ s.curpos i + readsize

instance decidableFull (s : Codec keys) (i : Fin keys.length) (readsize : ℕ) :
    Decidable (s.Full i readsize) := inferInstanceAs (Decidable (_ ≤ _))

/-- The key for a block, and the positions in the keys; a key that is full is left. -/
def seek (s : Codec keys) (i : Fin keys.length) (readsize : ℕ) :
    Fin keys.length × (Fin keys.length → ℕ) :=
  if s.Full i readsize then
    (nextKey i, Function.update (Function.update s.curpos i 0) (nextKey i) 0)
  else (i, s.curpos)

/-- One round of the loop of `crypt`; without keys there is no block. -/
def cryptBlock (behind : Fin keys.length → Mem) (s : Codec keys) (data : List UInt8) :
    Codec keys × Option (Block keys) :=
  match s.current with
  | none => (s, none)
  | some i =>
      let (j, curpos) := s.seek i data.length
      (⟨some j, Function.update curpos j (curpos j + data.length)⟩,
        some ⟨j, curpos j, xorPad (fun i ↦ pad behind j (curpos j + i)) data⟩)

/-- `crypt`: the blocks that are written for `data`. -/
def crypt (behind : Fin keys.length → Mem) (s : Codec keys) (data : List UInt8) :
    Codec keys × List (Block keys) :=
  let result := feed (cryptBlock behind) s (cut 32 data)
  (result.1, result.2.reduceOption)

/-- The key with a given number, as `strncmp` compares them: the current one or else the first. -/
def findKey (s : Codec keys) (num : List UInt8) : Option (Fin keys.length) :=
  let same (i : Fin keys.length) : Bool := CString.strncmpEq num (List.ofFn (keys.get i).num)
  match s.curkey.filter same with
  | some i => some i
  | none => (List.finRange keys.length).find? same

/-! ## What is written -/

theorem current_eq_some_iff {s : Codec keys} {i : Fin keys.length} :
    s.current = some i ↔ s.curkey = some i ∨ s.curkey = none ∧ i.val = 0 := by
  unfold current
  cases s.curkey with
  | some j => simp
  | none =>
    have hpos : 0 < keys.length := Nat.zero_lt_of_lt i.isLt
    rw [dif_pos hpos]
    simp [Fin.ext_iff, eq_comm]

theorem exists_current (hkeys : keys ≠ []) (s : Codec keys) : ∃ i, s.current = some i := by
  cases hcur : s.curkey with
  | some i => exact ⟨i, current_eq_some_iff.mpr (.inl hcur)⟩
  | none =>
    exact ⟨⟨0, List.length_pos_iff.mpr hkeys⟩, current_eq_some_iff.mpr (.inr ⟨hcur, rfl⟩)⟩

/-- A block stands where the current key, if it is not full, or the start of the next one is; the
process goes on behind it. -/
theorem cryptBlock_eq (behind : Fin keys.length → Mem) {s : Codec keys} (data : List UInt8)
    {i : Fin keys.length} (hcur : s.current = some i) :
    ∃ b, (s.cryptBlock behind data).2 = some b ∧ b.out.length = data.length ∧
      b.data behind = data ∧ (s.cryptBlock behind data).1.curkey = some b.key ∧
      (s.cryptBlock behind data).1.curpos b.key = b.curpos + data.length ∧
      (s.Full i data.length ∧ b.key = nextKey i ∧ b.curpos = 0 ∨
        ¬ s.Full i data.length ∧ b.key = i ∧ b.curpos = s.curpos i) := by
  unfold cryptBlock seek
  rw [hcur]
  dsimp only
  refine ⟨_, rfl, length_xorPad _ _, xorPad_xorPad _ _, rfl, Function.update_self _ _ _, ?_⟩
  by_cases hfull : s.Full i data.length
  · exact .inl ⟨hfull, by simp only [if_pos hfull, Function.update_self, and_self]⟩
  · exact .inr ⟨hfull, by simp only [if_neg hfull, and_self]⟩

end Codec

/-- A block as `crypt` writes it when all keys are longer than a block. -/
structure Block.Valid (b : Block keys) : Prop where
  pos : 0 < b.out.length
  le : b.out.length ≤ 32
  fits : b.Fits

/-- Keys of at least 33 bytes hold every block. -/
theorem Codec.cryptBlock_valid {behind : Fin keys.length → Mem} {s : Codec keys}
    {data : List UInt8} {b : Block keys} (hsize : ∀ key ∈ keys, 33 ≤ key.size)
    (hpos : 0 < data.length) (hle : data.length ≤ 32)
    (h : (s.cryptBlock behind data).2 = some b) : b.Valid := by
  cases hcur : s.current with
  | none =>
    rw [cryptBlock, hcur] at h
    cases h
  | some i =>
    obtain ⟨b', hb', hlength, _, _, _, hplace⟩ := cryptBlock_eq behind data hcur
    rw [hb'] at h
    cases h
    refine ⟨hlength ▸ hpos, hlength ▸ hle, ?_⟩
    rw [Block.Fits, hlength]
    rcases hplace with ⟨_, _, hstart⟩ | ⟨hroom, rfl, hstart⟩
    · have hkeySize := hsize _ (List.get_mem keys b.key)
      omega
    · rw [Codec.Full] at hroom
      omega

/-- Every piece of the data becomes a block of its length. -/
theorem Codec.feed_cryptBlock (behind : Fin keys.length → Mem) (hkeys : keys ≠ []) (s : Codec keys)
    (pieces : List (List UInt8)) :
    (feed (cryptBlock behind) s pieces).2.reduceOption.map (Block.data behind) = pieces ∧
      (feed (cryptBlock behind) s pieces).2.reduceOption.map (fun b ↦ b.out.length) =
        pieces.map List.length := by
  induction pieces generalizing s with
  | nil => exact ⟨rfl, rfl⟩
  | cons piece rest ih =>
    obtain ⟨i, hcur⟩ := exists_current hkeys s
    obtain ⟨b, hb, hlength, hdata, _⟩ := cryptBlock_eq behind piece hcur
    obtain ⟨hrestData, hrestLength⟩ := ih (s.cryptBlock behind piece).1
    rw [feed_cons, hb, List.reduceOption_cons_of_some, List.map_cons, List.map_cons, List.map_cons,
      hdata, hlength, hrestData, hrestLength]
    exact ⟨rfl, rfl⟩

theorem Codec.feed_cryptBlock_valid (behind : Fin keys.length → Mem)
    (hsize : ∀ key ∈ keys, 33 ≤ key.size) (s : Codec keys) (pieces : List (List UInt8))
    (hpieces : ∀ piece ∈ pieces, 0 < piece.length ∧ piece.length ≤ 32) :
    ∀ b ∈ (feed (cryptBlock behind) s pieces).2.reduceOption, b.Valid := by
  induction pieces generalizing s with
  | nil => exact nofun
  | cons piece rest ih =>
    have hrest := ih (s.cryptBlock behind piece).1
      fun other hother ↦ hpieces other (List.mem_cons_of_mem _ hother)
    rw [feed_cons]
    cases hb : (s.cryptBlock behind piece).2 with
    | none => exact hrest
    | some b =>
      obtain ⟨hpos, hle⟩ := hpieces piece List.mem_cons_self
      exact List.forall_mem_cons.mpr ⟨cryptBlock_valid hsize hpos hle hb, hrest⟩

/-- The blocks of a call of `crypt` hold its data, in pieces of 32 bytes. -/
theorem Codec.crypt_spec (behind : Fin keys.length → Mem) (hkeys : keys ≠ [])
    (hsize : ∀ key ∈ keys, 33 ≤ key.size) (s : Codec keys) (data : List UInt8) :
    (∀ b ∈ (s.crypt behind data).2, b.Valid) ∧
      (s.crypt behind data).2.flatMap (Block.data behind) = data ∧
      (s.crypt behind data).2.map (fun b ↦ b.out.length) = (cut 32 data).map List.length := by
  obtain ⟨hdata, hlength⟩ := feed_cryptBlock behind hkeys s (cut 32 data)
  refine ⟨feed_cryptBlock_valid behind hsize s (cut 32 data)
    fun _ ↦ length_of_mem_cut (by decide), ?_, hlength⟩
  rw [crypt, List.flatMap_def, hdata, flatten_cut (by decide)]

/-- Two keys of 33 bytes. -/
def sampleKeys : List Key :=
  [⟨fun _ ↦ 1, List.replicate 33 7, by decide⟩, ⟨fun _ ↦ 2, List.replicate 33 8, by decide⟩]

end QNet.Qcrypt
