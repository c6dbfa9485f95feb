import Mathlib.Algebra.GroupWithZero.Units.Basic
import QNet.Ctap.Schedule

/-!
# AES over the field

What the standard defines with the field of 256 elements: the substitution is an affine map of the
inverse, a round multiplies the columns with a matrix, and a column of the expanded key comes from
the column before it and the one a key length before. `aes_key_setup` and `aes_encrypt` work with
tables and with words of 32 bits; `toMatrix_aesEncrypt` says that they compute the same.
-/

namespace QNet.Ctap.Aes

/-! ## The standard -/

noncomputable section

/-- The inverse, or zero, and the affine map. -/
def subField (a : Gf) : Gf := toGf (affine (Ring.inverse a))

/-- Column `i` of the key expanded from `Nk` columns. -/
def expandedColumn (Nk : ℕ) (key : ℕ → Gf) (i : ℕ) : Fin 4 → Gf :=
  if h : i < Nk ∨ Nk = 0 then fun row ↦ key (4 * i + row)
  else
    let before := expandedColumn Nk key (i - 1)
    let changed : Fin 4 → Gf :=
      if i % Nk = 0 then fun row ↦
        subField (before (row + 1)) + if row = 0 then toGf 2 ^ (i / Nk - 1) else 0
      else if 6 < Nk ∧ i % Nk = 4 then fun row ↦ subField (before row)
      else before
    expandedColumn Nk key (i - Nk) + changed
  termination_by i
  decreasing_by all_goals omega

/-- The round key with number `r`. -/
def fieldKey (columns : ℕ → Fin 4 → Gf) (r : ℕ) : Matrix (Fin 4) (Fin 4) Gf :=
  .of fun row column ↦ columns (4 * r + column) row

/-- The substitution and the shift of the rows. -/
def fieldSubstituted (A : Matrix (Fin 4) (Fin 4) Gf) : Matrix (Fin 4) (Fin 4) Gf :=
  .of fun row column ↦ subField (A row (column + row))

/-- AES with `r` rounds. -/
def fieldEncrypt (columns : ℕ → Fin 4 → Gf) (r : ℕ) (A : Matrix (Fin 4) (Fin 4) Gf) :
    Matrix (Fin 4) (Fin 4) Gf :=
  let middle := (List.range' 1 (r - 1)).foldl
    (fun A i ↦ mixMatrix * fieldSubstituted A + fieldKey columns i) (A + fieldKey columns 0)
  fieldSubstituted middle + fieldKey columns r

end

/-! ## The layers -/

theorem sbox_eq (byte : UInt8) : toGf (substitute aesSbox byte) = subField (toGf byte) := by
  obtain ⟨a, hzero, hone, hsbox⟩ := sbox_inverse byte
  rw [hsbox, subField]
  by_cases h : byte = 0
  · have hbyte : toGf byte = 0 := by
      rw [h]
      rfl
    rw [hzero h, hbyte, Ring.inverse_zero]
  · have hunit : IsUnit (toGf byte) := IsUnit.of_mul_eq_one a (hone h)
    have hinverse : Ring.inverse (toGf byte) = a := by
      calc
        Ring.inverse (toGf byte) = Ring.inverse (toGf byte) * (toGf byte * a) := by
          rw [hone h, mul_one]
        _ = a := by rw [← mul_assoc, Ring.inverse_mul_cancel _ hunit, one_mul]
    rw [hinverse]

theorem toMatrix_substituted (state : State) :
    toMatrix (substituted state) = fieldSubstituted (toMatrix state) := by
  ext row column : 1
  simp only [toMatrix, substituted, shiftRows, subBytes, State.get_ofFn, fieldSubstituted,
    Matrix.of_apply, sbox_eq]

/-! ## Words -/

/-- The byte of a word for a row. -/
def rowByte (word : UInt32) (row : Fin 4) : UInt8 := byteAt word (24 - 8 * UInt32.ofNat row)

theorem getLsbD_rowByte (word : UInt32) (row : Fin 4) (i : ℕ) :
    (rowByte word row).toBitVec.getLsbD i =
      (decide (i < 8) && word.toBitVec.getLsbD (8 * (3 - row.val) + i)) := by
  fin_cases row <;> simp [rowByte, byteAt]

/-- Words are compared byte by byte, and bytes bit by bit. -/
theorem rowByte_eq_iff {word : UInt32} {row : Fin 4} {byte : UInt8} : rowByte word row = byte ↔
    ∀ i < 8, word.toBitVec.getLsbD (8 * (3 - row.val) + i) = byte.toBitVec.getLsbD i := by
  rw [← UInt8.toBitVec_inj]
  constructor
  · intro h i hi
    rw [← h, getLsbD_rowByte, decide_eq_true hi, Bool.true_and]
  · intro h
    apply BitVec.eq_of_getLsbD_eq
    intro i hi
    rw [getLsbD_rowByte, decide_eq_true hi, Bool.true_and, h i hi]

theorem rowByte_xor (a b : UInt32) (row : Fin 4) :
    rowByte (a ^^^ b) row = rowByte a row ^^^ rowByte b row := by
  rw [rowByte_eq_iff]
  intro i hi
  simp only [UInt32.toBitVec_xor, UInt8.toBitVec_xor, BitVec.getLsbD_xor, getLsbD_rowByte, hi,
    decide_true, Bool.true_and]

theorem rowByte_keRotword (word : UInt32) (row : Fin 4) :
    rowByte (keRotword word) row = rowByte word (row + 1) := by
  rw [rowByte_eq_iff]
  intro i hi
  rw [getLsbD_rowByte]
  fin_cases row <;> simp [keRotword, hi]
  all_goals grind

theorem rowByte_keyWord (key : ℕ → UInt8) (idx : ℕ) (row : Fin 4) :
    rowByte (keyWord key idx) row = key (4 * idx + row) := by
  rw [rowByte_eq_iff]
  intro i hi
  fin_cases row <;> simp [keyWord, hi]
  all_goals grind

theorem toNat_rowByte (word : UInt32) (row : Fin 4) :
    (rowByte word row).toNat = word.toNat / 256 ^ (3 - row.val) % 256 := by
  fin_cases row <;> simp [rowByte, byteAt, Nat.shiftRight_eq_div_pow]

/-- The sum in `SubWord` has no carries. -/
theorem toNat_subWord (word : UInt32) : (subWord word).toNat =
    (substitute aesSbox (rowByte word 3)).toNat +
      (substitute aesSbox (rowByte word 2)).toNat * 256 +
      (substitute aesSbox (rowByte word 1)).toNat * 256 ^ 2 +
      (substitute aesSbox (rowByte word 0)).toNat * 256 ^ 3 := by
  have h0 := (substitute aesSbox (rowByte word 0)).toNat_lt
  have h1 := (substitute aesSbox (rowByte word 1)).toNat_lt
  have h2 := (substitute aesSbox (rowByte word 2)).toNat_lt
  have h3 := (substitute aesSbox (rowByte word 3)).toNat_lt
  have hbytes : subWord word = (substitute aesSbox (rowByte word 3)).toUInt32 +
      ((substitute aesSbox (rowByte word 2)).toUInt32 <<< 8) +
      ((substitute aesSbox (rowByte word 1)).toUInt32 <<< 16) +
      ((substitute aesSbox (rowByte word 0)).toUInt32 <<< 24) := rfl
  rw [hbytes]
  simp [UInt32.toNat_add, UInt32.toNat_shiftLeft, Nat.shiftLeft_eq]
  omega

theorem rowByte_subWord (word : UInt32) (row : Fin 4) :
    rowByte (subWord word) row = substitute aesSbox (rowByte word row) := by
  have h0 := (substitute aesSbox (rowByte word 0)).toNat_lt
  have h1 := (substitute aesSbox (rowByte word 1)).toNat_lt
  have h2 := (substitute aesSbox (rowByte word 2)).toNat_lt
  have h3 := (substitute aesSbox (rowByte word 3)).toNat_lt
  apply UInt8.toNat_inj.mp
  rw [toNat_rowByte, toNat_subWord]
  fin_cases row <;> simp <;> omega

theorem rowByte_rcon : ∀ j < 10, ∀ row : Fin 4,
    toGf (rowByte (rcon.getD j 0) row) = if row = 0 then toGf 2 ^ j else 0 := by
  decide

/-! ## The schedule -/

/-- The first `n` words are the columns of the expanded key. -/
def Expanded (Nk : ℕ) (key : ℕ → UInt8) (n : ℕ) (w : Array UInt32) : Prop :=
  ∀ i < n, ∀ row, toGf (rowByte (w.getD i 0) row) =
    expandedColumn Nk (fun j ↦ toGf (key j)) i row

variable {Nk Nr n : ℕ} {key : ℕ → UInt8} {w : Array UInt32}

theorem expandedColumn_of_lt {key : ℕ → Gf} {i : ℕ} (h : i < Nk) (row : Fin 4) :
    expandedColumn Nk key i row = key (4 * i + row) := by
  rw [expandedColumn, dif_pos (Or.inl h)]

/-- The word that the loop computes is the next column. -/
theorem Expanded.nextWord (h : Expanded Nk key n w) (hNk : 0 < Nk) (hn : Nk ≤ n)
    (hrcon : n / Nk ≤ 10) (row : Fin 4) :
    toGf (rowByte (nextWord Nk w n) row) = expandedColumn Nk (fun j ↦ toGf (key j)) n row := by
  have hbefore := h (n - 1) (by omega)
  have hlast := h (n - Nk) (by omega) row
  rw [expandedColumn, dif_neg (by omega), Pi.add_apply, ← hlast, Aes.nextWord, rowByte_xor,
    toGf_xor]
  congr 1
  split_ifs with hmod hmiddle
  · have hindex : (n - 1) / Nk = n / Nk - 1 := by
      obtain ⟨m, hm⟩ := Nat.dvd_of_mod_eq_zero hmod
      rw [hm, Nat.mul_div_cancel_left m hNk]
      cases m with
      | zero => simp
      | succ m =>
        rw [Nat.mul_succ, Nat.add_sub_assoc hNk, Nat.mul_add_div hNk,
          Nat.div_eq_of_lt (Nat.sub_lt hNk Nat.one_pos), Nat.add_sub_cancel, Nat.add_zero]
    have hpos : 0 < n / Nk := Nat.div_pos hn hNk
    rw [rowByte_xor, rowByte_subWord, rowByte_keRotword, toGf_xor, sbox_eq, hbefore, hindex,
      rowByte_rcon (n / Nk - 1) (by omega)]
  · rw [rowByte_subWord, sbox_eq, hbefore]
  · rw [hbefore]

theorem Expanded.set (h : Expanded Nk key n w) (hsize : n < w.size) {v : UInt32}
    (hv : ∀ row, toGf (rowByte v row) = expandedColumn Nk (fun j ↦ toGf (key j)) n row) :
    Expanded Nk key (n + 1) (w.setIfInBounds n v) := by
  intro i hi row
  rw [getD_setIfInBounds]
  rcases Nat.lt_succ_iff_lt_or_eq.mp hi with hlt | heq
  · rw [if_neg (fun hset ↦ absurd hset.1 (Nat.ne_of_lt hlt)), h i hlt]
  · rw [if_pos ⟨heq, heq ▸ hsize⟩, heq, hv]

theorem expanded_key (hsize : Nk ≤ w.size) {m : ℕ} (hm : m ≤ Nk) : Expanded Nk key m
    ((List.range m).foldl (fun w idx ↦ w.setIfInBounds idx (keyWord key idx)) w) := by
  induction m with
  | zero => exact fun i hi ↦ absurd hi (Nat.not_lt_zero i)
  | succ m ih =>
    rw [List.range_succ, List.foldl_append]
    apply (ih (Nat.le_of_succ_le hm)).set
    · rw [size_foldl_set]
      omega
    · intro row
      rw [rowByte_keyWord, expandedColumn_of_lt hm]

theorem Expanded.expand (h : Expanded Nk key Nk w) (hNk : 0 < Nk) {m : ℕ}
    (hsize : Nk + m ≤ w.size) (hrcon : (Nk + m - 1) / Nk ≤ 10) : Expanded Nk key (Nk + m)
      ((List.range' Nk m).foldl (fun w idx ↦ w.setIfInBounds idx (Aes.nextWord Nk w idx)) w) := by
  induction m with
  | zero => exact h
  | succ m ih =>
    have hle : (Nk + m - 1) / Nk ≤ (Nk + (m + 1) - 1) / Nk := Nat.div_le_div_right (by omega)
    rw [List.range'_concat, List.foldl_append, Nat.one_mul, List.foldl_cons, List.foldl_nil]
    have hexpanded := ih (by omega) (hle.trans hrcon)
    apply hexpanded.set
    · rw [size_foldl_set]
      omega
    · exact hexpanded.nextWord hNk (Nat.le_add_right Nk m) (by simpa using hrcon)

/-- `aes_key_setup` fills the schedule with the columns of the expanded key. -/
theorem expanded_aesKeySetup {keysize : ℤ} (hsize : roundsAndWords keysize = some (Nr, Nk))
    (hw : 4 * (Nr + 1) ≤ w.size) : Expanded Nk key (4 * (Nr + 1)) (aesKeySetup key w keysize) := by
  have hbounds : 0 < Nk ∧ Nk ≤ 4 * (Nr + 1) ∧ (4 * (Nr + 1) - 1) / Nk ≤ 10 := by
    unfold roundsAndWords at hsize
    split_ifs at hsize <;> simp only [Option.some.injEq, Prod.mk.injEq] at hsize <;>
      obtain ⟨rfl, rfl⟩ := hsize <;> decide
  have hkey : Expanded Nk key Nk
      ((List.range Nk).foldl (fun w idx ↦ w.setIfInBounds idx (keyWord key idx)) w) :=
    expanded_key (hbounds.2.1.trans hw) (Nat.le_refl Nk)
  have hexpand := hkey.expand hbounds.1 (m := 4 * (Nr + 1) - Nk)
  rw [Nat.add_sub_cancel' hbounds.2.1, size_foldl_set] at hexpand
  unfold aesKeySetup
  rw [hsize]
  exact hexpand hw hbounds.2.2

/-! ## The whole -/

theorem toMatrix_addRoundKey {schedule : Array UInt32}
    (h : Expanded Nk key (4 * (Nr + 1)) schedule) {r : ℕ} (hr : r ≤ Nr) (state : State) :
    toMatrix (addRoundKey state schedule (4 * r)) =
      toMatrix state + fieldKey (expandedColumn Nk fun j ↦ toGf (key j)) r := by
  ext row column : 1
  have hbyte := h (4 * r + column) (by omega) row
  rw [Matrix.add_apply, fieldKey, Matrix.of_apply, ← hbyte, toMatrix, addRoundKey, State.get_ofFn,
    toGf_xor]
  rfl

theorem toMatrix_round {schedule : Array UInt32}
    (h : Expanded Nk key (4 * (Nr + 1)) schedule) {r : ℕ} (hr : r ≤ Nr) (state : State) :
    toMatrix (round schedule state (4 * r)) = mixMatrix * fieldSubstituted (toMatrix state) +
      fieldKey (expandedColumn Nk fun j ↦ toGf (key j)) r := by
  rw [round, toMatrix_addRoundKey h hr, toMatrix_mixColumns, ← toMatrix_substituted, substituted]

theorem toMatrix_encryptRounds {schedule : Array UInt32}
    (h : Expanded Nk key (4 * (Nr + 1)) schedule) (state : State) :
    toMatrix (encryptRounds schedule Nr state) =
      fieldEncrypt (expandedColumn Nk fun j ↦ toGf (key j)) Nr (toMatrix state) := by
  have hinner (m : ℕ) (hm : m ≤ Nr - 1) :
      toMatrix (((List.range' 1 m).map (4 * ·)).foldl (round schedule)
        (addRoundKey state schedule 0)) =
      (List.range' 1 m).foldl (fun A i ↦ mixMatrix * fieldSubstituted A +
          fieldKey (expandedColumn Nk fun j ↦ toGf (key j)) i)
        (toMatrix state + fieldKey (expandedColumn Nk fun j ↦ toGf (key j)) 0) := by
    induction m with
    | zero => exact toMatrix_addRoundKey h (Nat.zero_le Nr) state
    | succ m ih =>
      rw [List.range'_concat, List.map_append, List.foldl_append, List.foldl_append,
        ← ih (by omega)]
      exact toMatrix_round h (by omega) _
  rw [fieldEncrypt, ← hinner (Nr - 1) (Nat.le_refl _), ← toMatrix_substituted,
    ← toMatrix_addRoundKey h (Nat.le_refl Nr)]
  rfl

/-- For every key of 128, 192 or 256 bits, every block and whatever was in the array, the two
functions compute the AES that the standard defines over the field. -/
theorem toMatrix_aesEncrypt {keysize : ℤ} (hsize : roundsAndWords keysize = some (Nr, Nk))
    (hw : 4 * (Nr + 1) ≤ w.size) (key : ℕ → UInt8) (block : Block) :
    toMatrix (toState (aesEncrypt (aesKeySetup key w keysize) keysize block)) =
      fieldEncrypt (expandedColumn Nk fun j ↦ toGf (key j)) Nr (toMatrix (toState block)) := by
  have hrounds : roundsOfEncrypt keysize = Nr := by
    unfold roundsAndWords at hsize
    unfold roundsOfEncrypt
    split_ifs at hsize ⊢ <;> simp only [Option.some.injEq, Prod.mk.injEq] at hsize <;> omega
  rw [aesEncrypt, toState_ofState, encryptState_eq, hrounds]
  exact toMatrix_encryptRounds (expanded_aesKeySetup hsize hw) _

/-- A key of 256 bits and what lay on the stack. -/
theorem toMatrix_aesEncrypt_256 : ∃ (key : ℕ → UInt8) (w : Array UInt32) (block : Block),
    toMatrix (toState (aesEncrypt (aesKeySetup key w 256) 256 block)) =
      fieldEncrypt (expandedColumn 8 fun j ↦ toGf (key j)) 14 (toMatrix (toState block)) :=
  ⟨fun j ↦ UInt8.ofNat j, Array.replicate 60 7, fun _ ↦ 1,
    toMatrix_aesEncrypt rfl (by simp) _ _⟩

end QNet.Ctap.Aes
