import QNet.Qcrypt.Heap

/-!
# The keys of an uploaded text

`get_keys_buffer` counts how much of the text it has used, but it hands `get_key_buffer` the start
of the text every time. So the ring is built as it should be, with as many keys of the right sizes,
and only its first key is a new part of the text: a text is split into slices if and only if it
repeats itself every 1024 bytes, as a text of at most 1040 bytes trivially does.
-/

namespace QNet.Qcrypt

/-- How many bytes of a text are used. -/
def covered (size : ℕ) : ℕ :=
  if size > 1024 ∧ size % 1024 ≤ 16 then size - size % 1024 else size

/-- The keys of the ring are consecutive slices of the text from its start on, each of at most 1024
bytes, and at most 16 bytes are left; their number is returned. -/
def Splits (f : Mem) (size : ℕ) (result : Option (Heap × ℕ)) : Prop :=
  ∃ built ring, result = some (built, ring.length) ∧ built.RingOf ring ∧
    (∀ key ∈ ring, (built.obj key).size ≤ 1024) ∧
    ∃ total, ring.flatMap (fun key ↦ (built.obj key).bytes) = f.slice 0 total ∧
      total ≤ size ∧ size ≤ total + 16

theorem covered_bounds (size : ℕ) : covered size ≤ size ∧ size ≤ covered size + 16 := by
  unfold covered
  split_ifs <;> omega

/-- The bytes of the keys, one after the other: every key starts at the start of the text. -/
theorem getKeysBuffer_bytes (f : Mem) {size : ℕ} (hsize : 16 ≤ size) :
    (getKeysBuffer f size).flatMap Key.key =
      Mem.slice (fun i ↦ f (i % 1024)) 0 (covered size) := by
  have hloop (fuel all : ℕ) (hall : all < size) (hround : all % 1024 = 0)
      (henter : all = 0 ∨ all + 16 < size) (hfuel : size - all ≤ fuel) :
      (getKeysBufferFuel f size fuel all).flatMap Key.key =
        Mem.slice (fun i ↦ f (i % 1024)) all (covered size - all) := by
    induction fuel generalizing all with
    | zero => omega
    | succ fuel ih =>
      generalize hcount : min 1024 (size - all) = count
      have hkey : f.slice 0 count = Mem.slice (fun i ↦ f (i % 1024)) all count := by
        apply Mem.slice_congr
        intro i hi
        have hmod : (all + i) % 1024 = 0 + i := by omega
        rw [hmod]
      rw [getKeysBufferFuel, List.flatMap_cons, getKeyBuffer]
      simp only [hcount, hkey]
      split_ifs with hdone
      · have hcovered : covered size - all = count := by
          unfold covered
          split_ifs <;> omega
        rw [List.flatMap_nil, List.append_nil, hcovered]
      · have hwhole : count = 1024 := by omega
        have hcovered : covered size - all = count + (covered size - (all + count)) := by
          unfold covered
          split_ifs <;> omega
        rw [ih (all + count) (by omega) (by omega) (by omega) (by omega), hcovered, Mem.slice_add]
  rw [getKeysBuffer, if_neg (by omega), hloop size 0 (by omega) rfl (.inl rfl) (by omega),
    Nat.sub_zero]

namespace Heap

variable {f : Mem} {size : ℕ} {h : Heap}

/-- The ring that is left, and the bytes of its keys. -/
theorem getKeysBuffer_ring (f : Mem) {size : ℕ} (h : Heap) (hsize : 16 ≤ size) :
    ∃ built ring, h.getKeysBuffer f size = some (built, ring.length) ∧ built.RingOf ring ∧
      (∀ key ∈ ring, (built.obj key).size ≤ 1024) ∧
      ring.flatMap (fun key ↦ (built.obj key).bytes) =
        Mem.slice (fun i ↦ f (i % 1024)) 0 (covered size) := by
  obtain ⟨built, ring, hbuilt, hgrown, hcontents⟩ := h.getKeysBuffer_spec f hsize
  refine ⟨built, ring, hbuilt, hgrown.ringOf, hgrown.size_le, ?_⟩
  rw [← getKeysBuffer_bytes f hsize, ← hcontents, contents, List.flatMap_map]
  apply List.flatMap_congr
  intro key hkey
  exact (KeyObject.toKey_key (hgrown.size_le key hkey)).symm

/-- A text that is split repeats itself. -/
theorem repeats_of_splits (hsize : 16 ≤ size) (hsplits : Splits f size (h.getKeysBuffer f size)) :
    ∀ i < covered size, f i = f (i % 1024) := by
  obtain ⟨built, ring, hbuilt, hring, _, total, hbytes, _, _⟩ := hsplits
  obtain ⟨built', ring', hbuilt', hring', _, hbytes'⟩ := h.getKeysBuffer_ring f hsize
  obtain ⟨rfl, _⟩ : built' = built ∧ ring'.length = ring.length := by
    simpa using hbuilt'.symm.trans hbuilt
  rw [hring'.unique hring, hbytes', Mem.slice_eq_iff] at hbytes
  obtain ⟨hlength, hplaces⟩ := hbytes
  rw [Mem.length_slice] at hlength
  intro i hi
  have hplace := hplaces i (by rwa [Mem.length_slice, hlength])
  rw [Mem.getElem_slice, Nat.zero_add] at hplace
  exact hplace.symm

/-- For every text of at least 16 bytes, the upload leaves a ring of slices of the text if and only
if the text repeats itself every 1024 bytes, as far as it is used. -/
theorem splits_iff (f : Mem) (h : Heap) (hsize : 16 ≤ size) :
    Splits f size (h.getKeysBuffer f size) ↔ ∀ i < covered size, f i = f (i % 1024) := by
  constructor
  · exact repeats_of_splits hsize
  · intro hrepeats
    obtain ⟨built, ring, hbuilt, hring, hsizes, hbytes⟩ := h.getKeysBuffer_ring f hsize
    obtain ⟨hle, hrest⟩ := covered_bounds size
    refine ⟨built, ring, hbuilt, hring, hsizes, covered size, ?_, hle, hrest⟩
    rw [hbytes]
    apply Mem.slice_congr
    intro i hi
    rw [Nat.zero_add, hrepeats i hi]

/-- A text of equal bytes. -/
theorem splits_iff_constant :
    16 ≤ 3000 ∧ ∃ f : Mem, Splits f 3000 (sampleHeap.getKeysBuffer f 3000) :=
  ⟨by decide, fun _ ↦ 7, (splits_iff (fun _ ↦ 7) _ (by decide)).mpr fun _ _ ↦ rfl⟩

/-- Two keys' worth of text, of different bytes: the second key is the first one again. -/
theorem not_splits_twoKeys :
    ¬ ∀ (f : Mem) (size : ℕ) (h : Heap), 16 ≤ size → Splits f size (h.getKeysBuffer f size) := by
  intro hall
  have hsplits := hall (fun i ↦ if i < 1024 then 0 else 1) 2048 sampleHeap (by decide)
  exact absurd (repeats_of_splits (by decide) hsplits 1024 (by decide)) (by decide)

end Heap

end QNet.Qcrypt
