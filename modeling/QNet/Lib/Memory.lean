import Mathlib.Data.Fintype.Pi
import Mathlib.Data.List.GetD
import Mathlib.Data.List.OfFn
import Mathlib.Tactic.Common

/-!
# Byte memory

A C buffer is modelled as the memory from its first byte on: a read behind the bytes that were
written returns whatever lies there. `store` writes a list of bytes, `slice` reads one, and
`memmove` is a store of a slice of the same memory, so source and destination may overlap.
`Holds` says that a list of bytes stands at an offset; layouts are proved with it, one field
after the other.
-/

namespace QNet

abbrev Mem := ℕ → UInt8

abbrev Bytes32 := Fin 32 → UInt8

namespace Mem

/-- The `n` bytes from offset `off` on. -/
def slice (m : Mem) (off n : ℕ) : List UInt8 := List.ofFn fun i : Fin n ↦ m (off + i)

/-- Write `bytes` from offset `off` on (`memcpy` from another buffer). -/
def store (m : Mem) (off : ℕ) (bytes : List UInt8) : Mem :=
  fun i ↦ if off ≤ i then bytes.getD (i - off) (m i) else m i

/-- `memmove(buf + dst, buf + src, n)`. -/
def memmove (m : Mem) (dst src n : ℕ) : Mem := m.store dst (m.slice src n)

/-- The bytes stand in memory at offset `off`. -/
def Holds (m : Mem) (off : ℕ) (bytes : List UInt8) : Prop := m.slice off bytes.length = bytes

@[simp]
theorem length_slice (m : Mem) (off n : ℕ) : (m.slice off n).length = n := by simp [slice]

@[simp]
theorem getElem_slice (m : Mem) (off n i : ℕ) (h : i < (m.slice off n).length) :
    (m.slice off n)[i] = m (off + i) := by simp [slice]

theorem slice_eq_iff {m : Mem} {off n : ℕ} {bytes : List UInt8} :
    m.slice off n = bytes ↔
      bytes.length = n ∧ ∀ i (h : i < bytes.length), m (off + i) = bytes[i] := by
  constructor
  · rintro rfl
    simp
  · rintro ⟨hlength, hbytes⟩
    apply List.ext_getElem
    · simp [hlength]
    · intro i _ hi
      rw [getElem_slice, hbytes i hi]

theorem slice_congr {m m' : Mem} {off off' n : ℕ} (h : ∀ i < n, m (off + i) = m' (off' + i)) :
    m.slice off n = m'.slice off' n := by
  rw [slice_eq_iff]
  refine ⟨by simp, fun i hi ↦ ?_⟩
  rw [getElem_slice, h i (by simpa using hi)]

theorem slice_eq_map (m : Mem) (off n : ℕ) :
    m.slice off n = (List.range n).map fun i ↦ m (off + i) := by
  rw [slice_eq_iff]
  refine ⟨by simp, fun i hi ↦ ?_⟩
  rw [List.getElem_map, List.getElem_range]

theorem slice_add (m : Mem) (off a b : ℕ) :
    m.slice off (a + b) = m.slice off a ++ m.slice (off + a) b := by
  rw [slice_eq_iff]
  refine ⟨by simp, fun i hi ↦ ?_⟩
  simp only [List.getElem_append, length_slice, getElem_slice]
  split
  · rfl
  · congr 1; omega

theorem store_of_lt {m : Mem} {off i : ℕ} {bytes : List UInt8} (h : i < off) :
    m.store off bytes i = m i := by simp [store, Nat.not_le.mpr h]

theorem store_of_ge {m : Mem} {off i : ℕ} {bytes : List UInt8} (h : off + bytes.length ≤ i) :
    m.store off bytes i = m i := by
  unfold store
  rw [List.getD_eq_default _ _ (by omega), ite_self]

theorem store_of_mem {m : Mem} {off i : ℕ} {bytes : List UInt8} (h : i < bytes.length) :
    m.store off bytes (off + i) = bytes[i] := by
  rw [store, if_pos (Nat.le_add_right off i), Nat.add_sub_cancel_left, List.getD_eq_getElem _ _ h]

/-- A byte of a buffer into which a slice has been copied. -/
theorem store_slice_apply (m m' : Mem) (dst src n i : ℕ) :
    m.store dst (m'.slice src n) i =
      if dst ≤ i ∧ i < dst + n then m' (src + (i - dst)) else m i := by
  split_ifs with h
  · obtain ⟨j, rfl⟩ := Nat.exists_eq_add_of_le h.1
    rw [store_of_mem (by simp; omega), getElem_slice, Nat.add_sub_cancel_left]
  · rcases Nat.lt_or_ge i dst with hlt | hge
    · exact store_of_lt hlt
    · exact store_of_ge (by simp; omega)

/-- Bytes that are read and written back are as they were. -/
theorem store_slice_self (m : Mem) (off n : ℕ) : m.store off (m.slice off n) = m := by
  funext i
  rw [store_slice_apply]
  split_ifs with h
  · rw [Nat.add_sub_cancel' h.1]
  · rfl

/-- A store hides an earlier one of as many bytes. -/
theorem store_store_of_length {m : Mem} {off : ℕ} {first second : List UInt8}
    (h : first.length = second.length) :
    (m.store off first).store off second = m.store off second := by
  funext i
  rcases Nat.lt_or_ge i off with hlt | hge
  · rw [store_of_lt hlt, store_of_lt hlt, store_of_lt hlt]
  · obtain ⟨j, rfl⟩ := Nat.exists_eq_add_of_le hge
    rcases Nat.lt_or_ge j second.length with hin | hout
    · rw [store_of_mem hin, store_of_mem hin]
    · rw [store_of_ge (by omega), store_of_ge (by omega), store_of_ge (by omega)]

/-- A store in two parts. -/
theorem store_append (m : Mem) (off : ℕ) (first second : List UInt8) :
    m.store off (first ++ second) = (m.store off first).store (off + first.length) second := by
  funext i
  rcases Nat.lt_or_ge i off with hlt | hge
  · rw [store_of_lt hlt, store_of_lt (by omega), store_of_lt hlt]
  · obtain ⟨j, rfl⟩ := Nat.exists_eq_add_of_le hge
    unfold store
    rw [if_pos hge, if_pos hge, Nat.add_sub_cancel_left]
    rcases Nat.lt_or_ge j first.length with hfirst | hsecond
    · rw [if_neg (by omega), List.getD_append _ _ _ _ hfirst]
    · rw [if_pos (by omega), List.getD_append_right _ _ _ _ hsecond, Nat.add_sub_add_left,
        List.getD_eq_default first _ hsecond]

theorem memmove_of_mem {m : Mem} {dst src n i : ℕ} (h : i < n) :
    m.memmove dst src n (dst + i) = m (src + i) := by
  unfold memmove
  rw [store_of_mem (by simpa using h), getElem_slice]

theorem memmove_of_ge {m : Mem} {dst src n i : ℕ} (h : dst + n ≤ i) :
    m.memmove dst src n i = m i := store_of_ge (by simpa using h)

/-- Where the byte at `i` was before the `memmove`. -/
def origin (dst src n i : ℕ) : ℕ := if dst ≤ i ∧ i < dst + n then src + (i - dst) else i

/-- Every byte is an old one. -/
theorem memmove_apply (m : Mem) (dst src n i : ℕ) :
    m.memmove dst src n i = m (origin dst src n i) := by
  unfold origin
  split_ifs with h
  · obtain ⟨j, rfl⟩ := Nat.exists_eq_add_of_le h.1
    rw [memmove_of_mem (by omega), Nat.add_sub_cancel_left]
  · rcases Nat.lt_or_ge i dst with hlt | hge
    · exact store_of_lt hlt
    · exact memmove_of_ge (by omega)

/-! ## Layouts -/

theorem holds_iff {m : Mem} {off : ℕ} {bytes : List UInt8} :
    m.Holds off bytes ↔ ∀ i (h : i < bytes.length), m (off + i) = bytes[i] := by
  simp [Holds, slice_eq_iff]

theorem Holds.apply {m : Mem} {off i : ℕ} {bytes : List UInt8} (h : m.Holds off bytes)
    (hi : i < bytes.length) : m (off + i) = bytes[i] := holds_iff.mp h i hi

theorem holds_store (m : Mem) (off : ℕ) (bytes : List UInt8) :
    (m.store off bytes).Holds off bytes :=
  holds_iff.mpr fun _ h ↦ store_of_mem h

/-- Bytes that were copied are read back. -/
theorem slice_store_slice (m m' : Mem) (off off' n : ℕ) :
    (m.store off (m'.slice off' n)).slice off n = m'.slice off' n := by
  have hholds := holds_store m off (m'.slice off' n)
  rwa [Holds, length_slice] at hholds

theorem holds_slice (m : Mem) (off n : ℕ) : m.Holds off (m.slice off n) :=
  holds_iff.mpr fun i h ↦ (getElem_slice m off n i h).symm

theorem holds_append {m : Mem} {off : ℕ} {first second : List UInt8} :
    m.Holds off (first ++ second) ↔ m.Holds off first ∧ m.Holds (off + first.length) second := by
  unfold Holds
  rw [List.length_append, slice_add]
  constructor
  · intro h
    exact List.append_inj h (by simp)
  · rintro ⟨hfirst, hsecond⟩
    rw [hfirst, hsecond]

/-- A memory is the outcome of a store if it has the bytes at their place and is otherwise the
same. -/
theorem eq_store_iff {m m' : Mem} {off : ℕ} {bytes : List UInt8} :
    m = m'.store off bytes ↔
      m.Holds off bytes ∧ ∀ i, i < off ∨ off + bytes.length ≤ i → m i = m' i := by
  constructor
  · rintro rfl
    refine ⟨holds_store m' off bytes, fun i hi ↦ ?_⟩
    rcases hi with hlt | hge
    · exact store_of_lt hlt
    · exact store_of_ge hge
  · rintro ⟨hholds, hframe⟩
    funext i
    rcases Nat.lt_or_ge i off with hlt | hge
    · rw [hframe i (.inl hlt), store_of_lt hlt]
    · rcases Nat.lt_or_ge i (off + bytes.length) with hin | hout
      · obtain ⟨j, rfl⟩ := Nat.exists_eq_add_of_le hge
        have hj : j < bytes.length := by omega
        rw [hholds.apply hj, store_of_mem hj]
      · rw [hframe i (.inr hout), store_of_ge hout]

/-- Bytes keep their place under a store which does not touch them. -/
theorem Holds.store {m : Mem} {off off' : ℕ} {bytes other : List UInt8} (h : m.Holds off bytes)
    (hdisjoint : off + bytes.length ≤ off' ∨ off' + other.length ≤ off) :
    (m.store off' other).Holds off bytes := by
  rw [holds_iff] at h ⊢
  intro i hi
  rcases hdisjoint with hbefore | hbehind
  · rw [store_of_lt (by omega), h i hi]
  · rw [store_of_ge (by omega), h i hi]

/-- Bytes at the start of the moved range stand at the start of the destination. -/
theorem Holds.memmove_start {m : Mem} {dst src n : ℕ} {bytes : List UInt8}
    (h : m.Holds src bytes) (hrange : bytes.length ≤ n) :
    (m.memmove dst src n).Holds dst bytes := by
  rw [holds_iff] at h ⊢
  intro i hi
  rw [memmove_of_mem (by omega), h i hi]

/-! ## Sixteen-bit fields -/

/-- The two bytes of an `uint16_t`, least significant byte first. -/
def le16 (n : ℕ) : List UInt8 := [UInt8.ofNat n, UInt8.ofNat (n / 256)]

/-- Read an `uint16_t`. -/
def readLe16 (m : Mem) (off : ℕ) : ℕ := (m off).toNat + 256 * (m (off + 1)).toNat

@[simp]
theorem length_le16 (n : ℕ) : (le16 n).length = 2 := rfl

theorem readLe16_of_holds {m : Mem} {off n : ℕ} (h : m.Holds off (le16 n)) (hn : n < 65536) :
    m.readLe16 off = n := by
  have h0 := h.apply (i := 0) (by simp)
  have h1 := h.apply (i := 1) (by simp)
  simp only [Nat.add_zero, le16, List.getElem_cons_zero, List.getElem_cons_succ] at h0 h1
  rw [readLe16, h0, h1]
  simp only [UInt8.toNat_ofNat']
  omega

end Mem

end QNet
