import Mathlib.Algebra.Group.Nat.Defs
import Mathlib.Data.List.Basic
import Mathlib.Data.List.Flatten
import Mathlib.Data.List.Forall2
import Mathlib.Tactic.Common

/-!
# Byte streams

What stream ciphers with a pad need: little-endian numbers as lists of bytes, the pad itself, and
cutting a stream into pieces of bounded length. A pad is a function from offsets to bytes, so a
pad that starts at a position of a key is the shifted key.
-/

namespace QNet.ByteStream

variable {α : Type*}

/-! ## Numbers -/

/-- The lowest `size` bytes of a number, least significant byte first. -/
def leBytes : ℕ → ℕ → List UInt8
  | 0, _ => []
  | size + 1, n => UInt8.ofNat n :: leBytes size (n / 256)

/-- The number of little-endian bytes. -/
def ofLe : List UInt8 → ℕ
  | [] => 0
  | byte :: rest => byte.toNat + 256 * ofLe rest

@[simp]
theorem length_leBytes (size n : ℕ) : (leBytes size n).length = size := by
  induction size generalizing n with
  | zero => rfl
  | succ size ih => rw [leBytes, List.length_cons, ih]

theorem ofLe_leBytes {size n : ℕ} (h : n < 256 ^ size) : ofLe (leBytes size n) = n := by
  induction size generalizing n with
  | zero =>
    rw [Nat.pow_zero] at h
    exact (Nat.lt_one_iff.mp h).symm
  | succ size ih =>
    have hrest : n / 256 < 256 ^ size := by
      rw [Nat.pow_succ] at h
      omega
    rw [leBytes, ofLe, ih hrest, UInt8.toNat_ofNat']
    omega

/-! ## Pads -/

/-- Combine every byte with the byte of the pad at its place. -/
def xorPad (pad : ℕ → UInt8) (bytes : List UInt8) : List UInt8 :=
  bytes.mapIdx fun i byte ↦ byte ^^^ pad i

@[simp]
theorem length_xorPad (pad : ℕ → UInt8) (bytes : List UInt8) :
    (xorPad pad bytes).length = bytes.length := List.length_mapIdx

theorem getElem_xorPad {pad : ℕ → UInt8} {bytes : List UInt8} {i : ℕ}
    (h : i < (xorPad pad bytes).length) (hi : i < bytes.length) :
    (xorPad pad bytes)[i] = bytes[i] ^^^ pad i := List.getElem_mapIdx

/-- Only the bytes of the pad at the places of the list matter. -/
theorem xorPad_congr {pad pad' : ℕ → UInt8} {bytes : List UInt8}
    (h : ∀ i < bytes.length, pad i = pad' i) : xorPad pad bytes = xorPad pad' bytes := by
  apply List.ext_getElem
  · simp
  · intro i hi hi'
    have hlt : i < bytes.length := by simpa using hi
    rw [getElem_xorPad hi hlt, getElem_xorPad hi' hlt, h i hlt]

/-- The same pad a second time gives the bytes back. -/
theorem xorPad_xorPad (pad : ℕ → UInt8) (bytes : List UInt8) :
    xorPad pad (xorPad pad bytes) = bytes := by
  apply List.ext_getElem
  · simp
  · intro i hi hlt
    rw [getElem_xorPad hi (by simpa using hi), getElem_xorPad _ hlt, UInt8.xor_assoc,
      UInt8.xor_self, UInt8.xor_zero]

/-! ## Pieces -/

/-- Pieces of `n` bytes each, the last one may be shorter; `fuel` bounds their number. -/
def cutFuel (n : ℕ) : ℕ → List α → List (List α)
  | 0, _ => []
  | fuel + 1, bytes =>
      if bytes.isEmpty then [] else bytes.take n :: cutFuel n fuel (bytes.drop n)

/-- Cut into pieces of `n` bytes, the last one may be shorter. -/
def cut (n : ℕ) (bytes : List α) : List (List α) := cutFuel n bytes.length bytes

theorem flatten_cutFuel {n fuel : ℕ} {bytes : List α} (hn : 0 < n) (hfuel : bytes.length ≤ fuel) :
    (cutFuel n fuel bytes).flatten = bytes := by
  induction fuel generalizing bytes with
  | zero =>
    rw [List.length_eq_zero_iff.mp (Nat.le_zero.mp hfuel)]
    rfl
  | succ fuel ih =>
    rw [cutFuel]
    split_ifs with hempty
    · exact (List.isEmpty_iff.mp hempty).symm
    · have hrest : (bytes.drop n).length ≤ fuel := by
        rw [List.length_drop]
        omega
      rw [List.flatten_cons, ih hrest, List.take_append_drop]

theorem flatten_cut {n : ℕ} (hn : 0 < n) (bytes : List α) : (cut n bytes).flatten = bytes :=
  flatten_cutFuel hn (Nat.le_refl _)

theorem head?_cut {n : ℕ} {bytes : List α} (h : bytes ≠ []) :
    (cut n bytes).head? = some (bytes.take n) := by
  obtain ⟨fuel, hfuel⟩ : ∃ fuel, bytes.length = fuel + 1 :=
    ⟨bytes.length - 1, (Nat.succ_pred_eq_of_pos (List.length_pos_iff.mpr h)).symm⟩
  rw [cut, hfuel, cutFuel, if_neg (mt List.isEmpty_iff.mp h), List.head?_cons]

theorem length_of_mem_cutFuel {n fuel : ℕ} {bytes piece : List α} (hn : 0 < n)
    (h : piece ∈ cutFuel n fuel bytes) : 0 < piece.length ∧ piece.length ≤ n := by
  induction fuel generalizing bytes with
  | zero => cases h
  | succ fuel ih =>
    rw [cutFuel] at h
    split_ifs at h with hempty
    · cases h
    · rcases List.mem_cons.mp h with rfl | hrest
      · have hpos : 0 < bytes.length := by
          rw [List.length_pos_iff]
          exact fun hnil ↦ hempty (List.isEmpty_iff.mpr hnil)
        rw [List.length_take]
        exact ⟨Nat.lt_min.mpr ⟨hn, hpos⟩, Nat.min_le_left _ _⟩
      · exact ih hrest

theorem length_of_mem_cut {n : ℕ} {bytes piece : List α} (hn : 0 < n) (h : piece ∈ cut n bytes) :
    0 < piece.length ∧ piece.length ≤ n := length_of_mem_cutFuel hn h

/-- The lengths of the pieces depend on the length only. -/
theorem map_length_cutFuel (n fuel : ℕ) {bytes bytes' : List α}
    (h : bytes.length = bytes'.length) :
    (cutFuel n fuel bytes).map List.length = (cutFuel n fuel bytes').map List.length := by
  induction fuel generalizing bytes bytes' with
  | zero => rfl
  | succ fuel ih =>
    have hempty : bytes.isEmpty = bytes'.isEmpty := by
      rw [Bool.eq_iff_iff, List.isEmpty_iff_length_eq_zero, List.isEmpty_iff_length_eq_zero, h]
    have hrest : (bytes.drop n).length = (bytes'.drop n).length := by
      rw [List.length_drop, List.length_drop, h]
    rw [cutFuel, cutFuel, hempty]
    split_ifs
    · rfl
    · rw [List.map_cons, List.map_cons, ih hrest, List.length_take, List.length_take, h]

theorem map_length_cut (n : ℕ) {bytes bytes' : List α} (h : bytes.length = bytes'.length) :
    (cut n bytes).map List.length = (cut n bytes').map List.length := by
  rw [cut, cut, h]
  exact map_length_cutFuel n _ h

/-- Chunks of the same lengths are cut into pieces of the same lengths. -/
theorem map_length_flatMap_cut (n : ℕ) {chunks chunks' : List (List α)}
    (h : chunks.map List.length = chunks'.map List.length) :
    (chunks.flatMap (cut n)).map List.length = (chunks'.flatMap (cut n)).map List.length := by
  induction chunks generalizing chunks' with
  | nil => rw [List.map_eq_nil_iff.mp h.symm]
  | cons data rest ih =>
    obtain ⟨data', rest', rfl, hdata, hrest⟩ := List.map_eq_cons_iff.mp h.symm
    rw [List.flatMap_cons, List.flatMap_cons, List.map_append, List.map_append, ih hrest.symm,
      map_length_cut n hdata]

/-- Two streams of parts with heads and bodies of the same lengths are the same when the heads and
all the bodies together are. -/
theorem flatMap_append_eq_iff {β γ : Type*} {head body : β → List α} {head' body' : γ → List α}
    {l : List β} {l' : List γ}
    (h : List.Forall₂ (fun b c ↦ (head b).length = (head' c).length ∧
      (body b).length = (body' c).length) l l') :
    l.flatMap (fun b ↦ head b ++ body b) = l'.flatMap (fun c ↦ head' c ++ body' c) ↔
      List.Forall₂ (fun b c ↦ head b = head' c) l l' ∧ l.flatMap body = l'.flatMap body' := by
  induction h with
  | nil => exact iff_of_true rfl ⟨.nil, rfl⟩
  | cons hlength _ ih =>
    obtain ⟨hhead, hbody⟩ := hlength
    simp only [List.flatMap_cons, List.forall₂_cons]
    constructor
    · intro heq
      obtain ⟨hpart, hrest⟩ := List.append_inj heq (by simp only [List.length_append, hhead, hbody])
      obtain ⟨hheads, hbodies⟩ := List.append_inj hpart hhead
      obtain ⟨hrestHeads, hrestBodies⟩ := ih.mp hrest
      exact ⟨⟨hheads, hrestHeads⟩, by rw [hbodies, hrestBodies]⟩
    · rintro ⟨⟨hheads, hrestHeads⟩, heq⟩
      obtain ⟨hbodies, hrestBodies⟩ := List.append_inj heq hbody
      rw [hheads, hbodies, ih.mpr ⟨hrestHeads, hrestBodies⟩]

end QNet.ByteStream
