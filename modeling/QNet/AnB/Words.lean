import QNet.Lib.Memory

/-!
# Word access to the memory of the AnB board

`mem_read` and `mem_write` move a range of bytes as a head, whole words and a tail. The head reads
or writes the word at `address` instead of the one the range begins in; behind it the buffer starts
`offset % 4` bytes late; and the tail adds the offset, a number of bytes, to a pointer to words that
has been moved by the offset already. `bytewise_iff` says that they access the bytes of the range if
and only if none of this matters: the offset is a multiple of 4, and the size as well unless the
offset is zero.

The memory of the board is counted from the first byte of the BAR.
-/

namespace QNet.AnB

/-- The loop of `mem_read`; `buffer` is the memory from the first byte of the buffer on. -/
def readWords (device : Mem) (offset target : ℕ) (buffer : Mem) (words : ℕ) : Mem :=
  (List.range words).foldl
    (fun buffer i ↦ buffer.store (target + 4 * i) (device.slice (offset + 4 * i) 4)) buffer

/-- `mem_read`. -/
def memRead (device buffer : Mem) (size offset : ℕ) : Mem :=
  let sizeQ := size / 4
  let sizeR := size % 4
  let offsetR := offset % 4
  let buffer :=
    if offsetR ≠ 0 then buffer.store 0 (device.slice offsetR (4 - offsetR)) else buffer
  let buffer := readWords device offset offsetR buffer sizeQ
  if sizeR ≠ 0 then
    -- `address` has been moved to the offset, and points to words
    buffer.store (offsetR + 4 * sizeQ) (device.slice (offset + 4 * (offset + sizeQ)) sizeR)
  else buffer

/-- The loop of `mem_write`. -/
def writeWords (buffer : Mem) (offset source : ℕ) (device : Mem) (words : ℕ) : Mem :=
  (List.range words).foldl
    (fun device i ↦ device.store (offset + 4 * i) (buffer.slice (source + 4 * i) 4)) device

/-- `mem_write`. -/
def memWrite (device buffer : Mem) (size offset : ℕ) : Mem :=
  let sizeQ := size / 4
  let sizeR := size % 4
  let offsetR := offset % 4
  let device :=
    if offsetR ≠ 0 then
      device.store 0 (device.slice 0 offsetR ++ buffer.slice 0 (4 - offsetR))
    else device
  let device := writeWords buffer offset offsetR device sizeQ
  if sizeR ≠ 0 then
    let place := offset + 4 * (offset + sizeQ)
    device.store place
      (buffer.slice (offsetR + 4 * sizeQ) sizeR ++ device.slice (place + sizeR) (4 - sizeR))
  else device

/-! ## What they do to a byte -/

/-- Words that are stored one behind the other are one store. -/
theorem foldl_store_words (source : Mem) (offset target : ℕ) (m : Mem) (words : ℕ) :
    (List.range words).foldl
      (fun m i ↦ m.store (target + 4 * i) (source.slice (offset + 4 * i) 4)) m =
      m.store target (source.slice offset (4 * words)) := by
  induction words with
  | zero =>
    funext i
    rw [Mem.store_slice_apply, if_neg (by omega)]
    rfl
  | succ words ih =>
    rw [List.range_succ, List.foldl_append, ih, List.foldl_cons, List.foldl_nil, Nat.mul_succ,
      Mem.slice_add, Mem.store_append, Mem.length_slice]

theorem memRead_apply (device buffer : Mem) (size offset i : ℕ) :
    memRead device buffer size offset i =
      if offset % 4 + 4 * (size / 4) ≤ i ∧ i < offset % 4 + size then
        device (5 * offset + (i - offset % 4))
      else if offset % 4 ≤ i ∧ i < offset % 4 + 4 * (size / 4) then
        device (offset + (i - offset % 4))
      else if offset % 4 ≠ 0 ∧ i < 4 - offset % 4 then device (offset % 4 + i)
      else buffer i := by
  have hsize : 4 * (size / 4) + size % 4 = size := Nat.div_add_mod size 4
  have hhead (j : ℕ) : (if offset % 4 ≠ 0 then
      buffer.store 0 (device.slice (offset % 4) (4 - offset % 4)) else buffer) j =
        if offset % 4 ≠ 0 ∧ j < 4 - offset % 4 then device (offset % 4 + j) else buffer j := by
    by_cases hr : offset % 4 = 0
    · rw [if_neg (not_not.mpr hr), if_neg fun h ↦ h.1 hr]
    · rw [if_pos hr, Mem.store_slice_apply, Nat.sub_zero, Nat.zero_add]
      simp only [Nat.zero_le, true_and, Ne, hr, not_false_eq_true]
  unfold memRead readWords
  simp only [foldl_store_words]
  by_cases ht : size % 4 = 0
  · have hno : ¬ (offset % 4 + 4 * (size / 4) ≤ i ∧ i < offset % 4 + size) := by omega
    rw [if_neg (not_not.mpr ht), if_neg hno, Mem.store_slice_apply, hhead]
  · rw [if_pos ht, Mem.store_slice_apply, Mem.store_slice_apply, hhead]
    have hplace : offset % 4 + 4 * (size / 4) ≤ i →
        offset + 4 * (offset + size / 4) + (i - (offset % 4 + 4 * (size / 4))) =
          5 * offset + (i - offset % 4) := by omega
    have hend : offset % 4 + 4 * (size / 4) + size % 4 = offset % 4 + size := by omega
    rw [hend]
    split_ifs with htail
    · rw [hplace htail.1]
    all_goals rfl

/-- Where a range that begins with a word has its byte `i`: the tail is moved five times the
offset. -/
def wordPlace (size offset i : ℕ) : ℕ :=
  if 4 * (size / 4) ≤ i then 5 * offset + i else offset + i

theorem wordPlace_of_tail {size i : ℕ} (offset : ℕ) (hi : 4 * (size / 4) ≤ i) :
    wordPlace size offset i = 5 * offset + i := if_pos hi

theorem wordPlace_of_body {size i : ℕ} (offset : ℕ) (hi : i < 4 * (size / 4)) :
    wordPlace size offset i = offset + i := if_neg (Nat.not_le.mpr hi)

/-- From the offset of a word on only the tail is wrong. -/
theorem memRead_apply_of_aligned (device buffer : Mem) (size : ℕ) {offset : ℕ}
    (hoffset : offset % 4 = 0) (i : ℕ) :
    memRead device buffer size offset i =
      if i < size then device (wordPlace size offset i) else buffer i := by
  rw [memRead_apply, hoffset, Nat.zero_add, Nat.zero_add, Nat.sub_zero, wordPlace]
  split_ifs
  all_goals first | rfl | omega

/-- A read puts the bytes from place `pos` on into the buffer, and nothing else. -/
def ReadsFrom (size offset pos : ℕ) : Prop :=
  ∀ device buffer, memRead device buffer size offset = buffer.store 0 (device.slice pos size)

/-- A write puts the bytes of the buffer at place `pos`, and nothing else. -/
def WritesTo (size offset pos : ℕ) : Prop :=
  ∀ device buffer, memWrite device buffer size offset = device.store pos (buffer.slice 0 size)

/-- The offset is one of a word, and the tail, which is moved five times the offset, is the tail of
the range at `pos`. A range of less than a word is all tail. -/
def WordRange (size offset pos : ℕ) : Prop :=
  offset % 4 = 0 ∧
    if size < 4 then pos = 5 * offset else offset = pos ∧ (size % 4 = 0 ∨ offset = 0)

/-- The bytes of a range are all at their places. -/
theorem wordRange_iff {size offset pos : ℕ} (hsize : 0 < size) (hoffset : offset % 4 = 0) :
    WordRange size offset pos ↔
      ∀ i < size, wordPlace size offset i = pos + i := by
  constructor
  · rintro ⟨_, hrange⟩ i hi
    unfold wordPlace
    split_ifs at hrange ⊢
    all_goals omega
  · intro hplace
    refine ⟨hoffset, ?_⟩
    have hfirst := hplace 0 hsize
    split_ifs with hshort
    · rw [wordPlace_of_tail _ (by omega)] at hfirst
      exact hfirst.symm
    · rw [wordPlace_of_body _ (by omega)] at hfirst
      refine ⟨hfirst, ?_⟩
      by_contra htail
      have hlast := hplace (4 * (size / 4)) (by omega)
      rw [wordPlace_of_tail _ le_rfl] at hlast
      omega

/-- Two places that hold the same byte in every memory are the same. -/
theorem eq_of_forall_mem {a b : ℕ} (h : ∀ m : Mem, m a = m b) : a = b := by
  by_contra hne
  have hbyte := h fun i ↦ if i = a then 1 else 0
  rw [if_pos rfl, if_neg (Ne.symm hne)] at hbyte
  exact absurd hbyte (by decide)

/-! ## Reading -/

theorem ReadsFrom.aligned {size offset pos : ℕ} (hsize : 0 < size) (h : ReadsFrom size offset pos) :
    offset % 4 = 0 := by
  by_contra hr
  -- the last byte that is stored lies behind the buffer
  have hwritten : memRead (fun _ ↦ 1) (fun _ ↦ 0) size offset (offset % 4 + size - 1) = 1 := by
    rw [memRead_apply]
    split_ifs
    all_goals first | rfl | omega
  have hbehind : ¬ (0 ≤ offset % 4 + size - 1 ∧ offset % 4 + size - 1 < 0 + size) := by omega
  rw [h, Mem.store_slice_apply, if_neg hbehind] at hwritten
  exact absurd hwritten (by decide)

theorem readsFrom_iff {size offset pos : ℕ} (hsize : 0 < size) :
    ReadsFrom size offset pos ↔ WordRange size offset pos := by
  constructor
  · intro h
    have hoffset := h.aligned hsize
    rw [wordRange_iff hsize hoffset]
    intro i hi
    apply eq_of_forall_mem
    intro device
    have hbyte := congrFun (h device fun _ ↦ 0) i
    have hin : 0 ≤ i ∧ i < 0 + size := by omega
    rwa [memRead_apply_of_aligned _ _ _ hoffset, if_pos hi, Mem.store_slice_apply, if_pos hin,
      Nat.sub_zero] at hbyte
  · intro h device buffer
    have hplace := (wordRange_iff hsize h.1).mp h
    funext i
    rw [memRead_apply_of_aligned _ _ _ h.1, Mem.store_slice_apply, Nat.zero_add, Nat.sub_zero]
    by_cases hi : i < size
    · rw [if_pos hi, hplace i hi, if_pos ⟨Nat.zero_le i, hi⟩]
    · rw [if_neg hi, if_neg fun hin ↦ hi hin.2]

/-! ## Writing -/

/-- The bytes behind the tail are written back as they were. -/
theorem store_readBack (m : Mem) (place : ℕ) (source : Mem) (from' n rest : ℕ) :
    m.store place (source.slice from' n ++ m.slice (place + n) rest) =
      m.store place (source.slice from' n) := by
  funext i
  rw [Mem.store_append, Mem.length_slice, Mem.store_slice_apply]
  split_ifs with hin
  · rw [Mem.store_slice_apply, if_neg (by omega), Nat.add_sub_cancel' hin.1]
  · rfl

theorem memWrite_apply (device buffer : Mem) (size offset i : ℕ) :
    memWrite device buffer size offset i =
      if 5 * offset + 4 * (size / 4) ≤ i ∧ i < 5 * offset + size then
        buffer (offset % 4 + (i - 5 * offset))
      else if offset ≤ i ∧ i < offset + 4 * (size / 4) then buffer (offset % 4 + (i - offset))
      else if offset % 4 ≠ 0 ∧ offset % 4 ≤ i ∧ i < 4 then buffer (i - offset % 4)
      else device i := by
  have hhead (j : ℕ) : (if offset % 4 ≠ 0 then
      device.store 0 (device.slice 0 (offset % 4) ++ buffer.slice 0 (4 - offset % 4))
        else device) j =
        if offset % 4 ≠ 0 ∧ offset % 4 ≤ j ∧ j < 4 then buffer (j - offset % 4) else device j := by
    by_cases hr : offset % 4 = 0
    · rw [if_neg (not_not.mpr hr), if_neg fun h ↦ h.1 hr]
    · have hend : 0 + offset % 4 + (4 - offset % 4) = 4 := by omega
      rw [if_pos hr, Mem.store_append, Mem.store_slice_self, Mem.length_slice,
        Mem.store_slice_apply, hend]
      simp only [Nat.zero_add, Ne, hr, not_false_eq_true, true_and]
  unfold memWrite writeWords
  simp only [foldl_store_words, store_readBack]
  by_cases ht : size % 4 = 0
  · have hno : ¬ (5 * offset + 4 * (size / 4) ≤ i ∧ i < 5 * offset + size) := by omega
    rw [if_neg (not_not.mpr ht), if_neg hno, Mem.store_slice_apply, hhead]
  · rw [if_pos ht, Mem.store_slice_apply, Mem.store_slice_apply, hhead]
    have hstart : offset + 4 * (offset + size / 4) = 5 * offset + 4 * (size / 4) := by omega
    have hend : 5 * offset + 4 * (size / 4) + size % 4 = 5 * offset + size := by omega
    have hplace : 5 * offset + 4 * (size / 4) ≤ i →
        offset % 4 + 4 * (size / 4) + (i - (5 * offset + 4 * (size / 4))) =
          offset % 4 + (i - 5 * offset) := by omega
    rw [hstart, hend]
    split_ifs with htail
    · rw [hplace htail.1]
    all_goals rfl

/-- From the offset of a word on every byte of the buffer is written once. -/
theorem memWrite_apply_place (device buffer : Mem) {size offset : ℕ} (hoffset : offset % 4 = 0)
    {i : ℕ} (hi : i < size) :
    memWrite device buffer size offset (wordPlace size offset i) = buffer i := by
  rw [memWrite_apply, hoffset, Nat.zero_add, Nat.zero_add]
  rcases Nat.lt_or_ge i (4 * (size / 4)) with hbody | htail
  · have hno : ¬ (5 * offset + 4 * (size / 4) ≤ offset + i ∧ offset + i < 5 * offset + size) := by
      omega
    have hin : offset ≤ offset + i ∧ offset + i < offset + 4 * (size / 4) := by omega
    rw [wordPlace_of_body _ hbody, if_neg hno, if_pos hin, Nat.add_sub_cancel_left]
  · have hin : 5 * offset + 4 * (size / 4) ≤ 5 * offset + i ∧
        5 * offset + i < 5 * offset + size := by omega
    rw [wordPlace_of_tail _ htail, if_pos hin, Nat.add_sub_cancel_left]

theorem memWrite_apply_of_forall_ne (device buffer : Mem) {size offset i : ℕ}
    (hoffset : offset % 4 = 0)
    (hi : ∀ j < size, wordPlace size offset j ≠ i) :
    memWrite device buffer size offset i = device i := by
  have htail : ¬ (5 * offset + 4 * (size / 4) ≤ i ∧ i < 5 * offset + size) := by
    rintro ⟨hstart, hend⟩
    have hne := hi (i - 5 * offset) (by omega)
    rw [wordPlace_of_tail _ (by omega)] at hne
    omega
  have hbody : ¬ (offset ≤ i ∧ i < offset + 4 * (size / 4)) := by
    rintro ⟨hstart, hend⟩
    have hne := hi (i - offset) (by omega)
    rw [wordPlace_of_body _ (by omega)] at hne
    omega
  rw [memWrite_apply, if_neg htail, if_neg hbody, if_neg fun h ↦ h.1 hoffset]

theorem WritesTo.aligned {size offset pos : ℕ} (hsize : 0 < size) (h : WritesTo size offset pos) :
    offset % 4 = 0 := by
  by_contra hr
  -- ones into a memory of zeros: what is written is the range at `pos`
  have hrange (i : ℕ) (hi : memWrite (fun _ ↦ 0) (fun _ ↦ 1) size offset i = 1) :
      pos ≤ i ∧ i < pos + size := by
    by_contra hout
    rw [h, Mem.store_slice_apply, if_neg hout] at hi
    exact absurd hi (by decide)
  have hhead := hrange (offset % 4) (by
    rw [memWrite_apply]
    split_ifs
    all_goals first | rfl | omega)
  rcases Nat.lt_or_ge size 4 with hshort | hlong
  · have htail := hrange (5 * offset) (by
      rw [memWrite_apply, if_pos (by omega)])
    omega
  · rcases Nat.lt_or_ge offset 4 with hnear | hfar
    · -- the first byte of the buffer is overwritten by the words
      have hlost : memWrite (fun _ ↦ 0) (fun i ↦ if i = 0 then 1 else 0) size offset pos = 0 := by
        rw [memWrite_apply]
        split_ifs
        all_goals first | rfl | omega
      have hin : pos ≤ pos ∧ pos < pos + size := by omega
      rw [h, Mem.store_slice_apply, if_pos hin, Nat.sub_self, if_pos rfl] at hlost
      exact absurd hlost (by decide)
    · -- the words begin behind the first word, whose last byte is not the head's
      have hbody := hrange offset (by
        rw [memWrite_apply]
        split_ifs
        all_goals first | rfl | omega)
      have hbetween : memWrite (fun _ ↦ 0) (fun _ ↦ 1) size offset 4 = 0 := by
        rw [memWrite_apply]
        split_ifs
        all_goals first | rfl | omega
      have hin : pos ≤ 4 ∧ 4 < pos + size := by omega
      rw [h, Mem.store_slice_apply, if_pos hin] at hbetween
      exact absurd hbetween (by decide)

theorem writesTo_iff {size offset pos : ℕ} (hsize : 0 < size) :
    WritesTo size offset pos ↔ WordRange size offset pos := by
  constructor
  · intro h
    have hoffset := h.aligned hsize
    rw [wordRange_iff hsize hoffset]
    intro i hi
    have hbyte := memWrite_apply_place (fun _ ↦ 0) (fun j ↦ if j = i then 1 else 0) hoffset hi
    rw [h, Mem.store_slice_apply, if_pos rfl] at hbyte
    generalize wordPlace size offset i = place at hbyte ⊢
    split_ifs at hbyte with hin hsame
    · omega
    · exact absurd hbyte (by decide)
    · exact absurd hbyte (by decide)
  · intro h device buffer
    have hplace := (wordRange_iff hsize h.1).mp h
    funext i
    rw [Mem.store_slice_apply]
    split_ifs with hin
    · have hi : i - pos < size := by omega
      have hbyte := memWrite_apply_place device buffer h.1 hi
      rw [hplace _ hi, Nat.add_sub_cancel' hin.1] at hbyte
      rw [hbyte, Nat.zero_add]
    · apply memWrite_apply_of_forall_ne _ _ h.1
      intro j hj
      rw [hplace j hj]
      omega

/-! ## Bytes -/

/-- Reading and writing a range as bytes. -/
structure Bytewise (size offset : ℕ) : Prop where
  /-- The bytes of the range are stored in the buffer, and nothing behind it. -/
  read : ∀ device buffer,
    memRead device buffer size offset = buffer.store 0 (device.slice offset size)
  /-- Bytes that have been written are read back. -/
  readBack : ∀ device data buffer,
    (memRead (memWrite device data size offset) buffer size offset).slice 0 size = data.slice 0 size
  outside : ∀ device data i, i < offset ∨ offset + size ≤ i →
    memWrite device data size offset i = device i

/-- The words are the bytes if and only if head and tail do not matter. -/
theorem bytewise_iff (size offset : ℕ) :
    Bytewise size offset ↔ offset % 4 = 0 ∧ (size % 4 = 0 ∨ offset = 0) := by
  rcases Nat.eq_zero_or_pos size with rfl | hsize
  · constructor
    · intro h
      refine ⟨?_, .inl rfl⟩
      by_contra hr
      -- the head is read where there is nothing to read
      have hbyte := congrFun (h.read (fun _ ↦ 1) fun _ ↦ 0) 0
      rw [memRead_apply, if_neg (by omega), if_neg (by omega), if_pos ⟨hr, by omega⟩,
        Mem.store_slice_apply, if_neg (by omega)] at hbyte
      exact absurd hbyte (by decide)
    · rintro ⟨hoffset, _⟩
      refine ⟨fun device buffer ↦ ?_, fun device data buffer ↦ rfl, fun device data i _ ↦ ?_⟩
      · funext i
        rw [memRead_apply_of_aligned _ _ _ hoffset, if_neg (Nat.not_lt_zero i),
          Mem.store_slice_apply, if_neg (by omega)]
      · exact memWrite_apply_of_forall_ne _ _ hoffset fun j hj ↦ absurd hj (Nat.not_lt_zero j)
  · have hrange : WordRange size offset offset ↔
        offset % 4 = 0 ∧ (size % 4 = 0 ∨ offset = 0) := by
      unfold WordRange
      split_ifs <;> omega
    rw [← hrange]
    constructor
    · exact fun h ↦ (readsFrom_iff hsize).mp h.read
    · intro h
      have hread := (readsFrom_iff hsize).mpr h
      have hwrite := (writesTo_iff hsize).mpr h
      refine ⟨hread, fun device data buffer ↦ ?_, fun device data i hi ↦ ?_⟩
      · rw [hread, hwrite, Mem.slice_store_slice, Mem.slice_store_slice]
      · rw [hwrite, Mem.store_slice_apply, if_neg (by omega)]

/-- The read of one byte behind the first takes three of the first word, and one of the second. -/
theorem not_bytewise_one : ¬ ∀ size offset, Bytewise size offset := by
  intro hall
  have hbyte := congrFun ((hall 1 1).read (fun _ ↦ 1) fun _ ↦ 0) 2
  exact absurd hbyte (by decide)

end QNet.AnB
