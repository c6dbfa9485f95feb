import Mathlib.Data.Matrix.Mul
import Mathlib.LinearAlgebra.Matrix.Notation
import QNet.Ctap.Aes
import QNet.Lib.BinaryRing

/-!
# Decryption is the inverse of encryption

The tables are read as what they are made for: `gf_mul` has the products with six constants in the
field with 256 elements, so that `MixColumns` and `InvMixColumns` are products with two matrices,
one the inverse of the other, and `aes_sbox` is an affine map behind the field's inverse. Every
layer of a round can be undone, and `aes_decrypt` undoes them in the reverse order with the same
words of the schedule. The two functions ask for the key size in different ways, however, so that
they count the same rounds only for some key sizes.
-/

namespace QNet

/-- What was done step by step is undone step by step in the reverse order. -/
theorem foldl_reverse_foldl {α β : Type*} {f g : α → β → α} (h : ∀ a b, g (f a b) b = a)
    (l : List β) (a : α) : l.reverse.foldl g (l.foldl f a) = a := by
  induction l generalizing a with
  | nil => rfl
  | cons b l ih =>
    rw [List.foldl_cons, List.reverse_cons, List.foldl_append, ih, List.foldl_cons, List.foldl_nil,
      h]

namespace Ctap.Aes

/-- The field with 256 elements that AES computes in: `X ^ 8 + X ^ 4 + X ^ 3 + X + 1`. -/
abbrev Gf := BinaryRing 0x1B#8

def toGf (byte : UInt8) : Gf := BinaryRing.ofBits byte.toBitVec

theorem toGf_injective : Function.Injective toGf := fun _ _ h ↦ UInt8.toBitVec_inj.mp h

theorem toGf_xor (a b : UInt8) : toGf (a ^^^ b) = toGf a + toGf b := UInt8.toBitVec_xor a b

/-! ## The tables -/

/-- The constants that the columns of `gf_mul` belong to. -/
def coefficient (j : UInt8) : Gf := toGf ([2, 3, 9, 11, 13, 14].getD j.toNat 0)

theorem forall_byte {p : UInt8 → Prop} (h : ∀ i < 256, p (UInt8.ofNat i)) (byte : UInt8) :
    p byte := by
  have hbyte := h byte.toNat byte.toNat_lt
  rwa [UInt8.ofNat_toNat] at hbyte

set_option maxRecDepth 2000 in
theorem length_gfMul : gfMul.length = 256 := rfl

theorem toGf_gfMul : ∀ row ∈ gfMul.zipIdx, ∀ j < 6,
    toGf (row.1.getD j 0) = toGf (UInt8.ofNat row.2) * coefficient (UInt8.ofNat j) := by
  decide +kernel

theorem toGf_product (byte : UInt8) {j : UInt8} (hj : j.toNat < 6) :
    toGf (product byte j) = coefficient j * toGf byte := by
  have hbyte : byte.toNat < gfMul.length := length_gfMul ▸ byte.toNat_lt
  have hrow := toGf_gfMul (gfMul.getD byte.toNat [], byte.toNat)
    (List.mk_mem_zipIdx_iff_getElem?.mpr (by simp [hbyte])) j.toNat hj
  rwa [UInt8.ofNat_toNat, UInt8.ofNat_toNat, mul_comm] at hrow

/-- The affine map of the substitution. -/
def affine (a : Gf) : UInt8 :=
  let b : BitVec 8 := a
  ⟨b ^^^ b.rotateLeft 1 ^^^ b.rotateLeft 2 ^^^ b.rotateLeft 3 ^^^ b.rotateLeft 4 ^^^ 0x63⟩

/-- The affine map backwards. -/
def affineInverse (byte : UInt8) : Gf :=
  let b := byte.toBitVec
  (b.rotateLeft 1 ^^^ b.rotateLeft 3 ^^^ b.rotateLeft 6 ^^^ 0x05 : BitVec 8)

set_option maxRecDepth 8000 in
theorem affine_affineInverse : ∀ byte, affine (affineInverse byte) = byte :=
  forall_byte (by decide)

set_option maxRecDepth 8000 in
theorem toGf_mul_affineInverse : ∀ byte, byte ≠ 0 →
    toGf byte * affineInverse (substitute aesSbox byte) = 1 :=
  forall_byte (by decide)

/-- An entry of the S-box is made from the inverse of the byte, or from zero. -/
theorem sbox_inverse (byte : UInt8) : ∃ a : Gf,
    (byte = 0 → a = 0) ∧ (byte ≠ 0 → toGf byte * a = 1) ∧ substitute aesSbox byte = affine a := by
  have hzero : affineInverse (substitute aesSbox 0) = 0 := by decide
  refine ⟨affineInverse (substitute aesSbox byte), ?_, toGf_mul_affineInverse byte,
    (affine_affineInverse _).symm⟩
  intro h
  rw [h, hzero]

set_option maxRecDepth 8000 in
theorem invSbox_sbox : ∀ byte, substitute aesInvsbox (substitute aesSbox byte) = byte :=
  forall_byte (by decide)

theorem sbox_invSbox : ∀ byte, substitute aesSbox (substitute aesInvsbox byte) = byte := by
  have hfinite : Finite UInt8 := Finite.of_injective UInt8.toFin fun _ _ ↦ UInt8.toFin_inj.mp
  have hsurjective : Function.Surjective (substitute aesSbox) :=
    Finite.surjective_of_injective (Function.LeftInverse.injective invSbox_sbox)
  exact Function.LeftInverse.rightInverse_of_surjective invSbox_sbox hsurjective

/-! ## The columns -/

open Matrix

/-- The state over the field. -/
def toMatrix (state : State) : Matrix (Fin 4) (Fin 4) Gf := fun row column ↦
  toGf (state.get row column)

theorem toMatrix_injective : Function.Injective toMatrix := by
  intro state state' h
  ext row column
  rw [toGf_injective (congrFun (congrFun h row) column)]

def mixMatrix : Matrix (Fin 4) (Fin 4) Gf :=
  let c := fun byte : UInt8 ↦ toGf byte
  !![c 2, c 3, c 1, c 1; c 1, c 2, c 3, c 1; c 1, c 1, c 2, c 3; c 3, c 1, c 1, c 2]

def invMixMatrix : Matrix (Fin 4) (Fin 4) Gf :=
  let c := fun byte : UInt8 ↦ toGf byte
  !![c 14, c 11, c 13, c 9; c 9, c 14, c 11, c 13; c 13, c 9, c 14, c 11; c 11, c 13, c 9, c 14]

theorem invMixMatrix_mul_mixMatrix : invMixMatrix * mixMatrix = 1 := by decide

theorem mixMatrix_mul_invMixMatrix : mixMatrix * invMixMatrix = 1 := by decide

theorem toGf_one : toGf 1 = 1 := rfl

theorem toMatrix_mixColumns (state : State) :
    toMatrix (mixColumns state) = mixMatrix * toMatrix state := by
  have h0 (byte : UInt8) : toGf (product byte 0) = toGf 2 * toGf byte :=
    toGf_product byte (by decide)
  have h1 (byte : UInt8) : toGf (product byte 1) = toGf 3 * toGf byte :=
    toGf_product byte (by decide)
  ext row column : 1
  rw [Matrix.mul_apply, Fin.sum_univ_four]
  simp only [toMatrix, mixColumns, State.get_ofFn]
  fin_cases row <;> simp [mixColumn, mixMatrix, toGf_xor, h0, h1, toGf_one]

theorem toMatrix_invMixColumns (state : State) :
    toMatrix (invMixColumns state) = invMixMatrix * toMatrix state := by
  have h2 (byte : UInt8) : toGf (product byte 2) = toGf 9 * toGf byte :=
    toGf_product byte (by decide)
  have h3 (byte : UInt8) : toGf (product byte 3) = toGf 11 * toGf byte :=
    toGf_product byte (by decide)
  have h4 (byte : UInt8) : toGf (product byte 4) = toGf 13 * toGf byte :=
    toGf_product byte (by decide)
  have h5 (byte : UInt8) : toGf (product byte 5) = toGf 14 * toGf byte :=
    toGf_product byte (by decide)
  ext row column : 1
  rw [Matrix.mul_apply, Fin.sum_univ_four]
  simp only [toMatrix, invMixColumns, State.get_ofFn]
  fin_cases row <;> simp [invMixColumn, invMixMatrix, toGf_xor, h2, h3, h4, h5]

/-! ## Every layer can be undone -/

theorem invMixColumns_mixColumns (state : State) : invMixColumns (mixColumns state) = state := by
  apply toMatrix_injective
  rw [toMatrix_invMixColumns, toMatrix_mixColumns, ← Matrix.mul_assoc, invMixMatrix_mul_mixMatrix,
    Matrix.one_mul]

theorem mixColumns_invMixColumns (state : State) : mixColumns (invMixColumns state) = state := by
  apply toMatrix_injective
  rw [toMatrix_mixColumns, toMatrix_invMixColumns, ← Matrix.mul_assoc, mixMatrix_mul_invMixMatrix,
    Matrix.one_mul]

theorem invSubBytes_subBytes (state : State) : invSubBytes (subBytes state) = state := by
  ext row column
  rw [invSubBytes, State.get_ofFn, subBytes, State.get_ofFn, invSbox_sbox]

theorem subBytes_invSubBytes (state : State) : subBytes (invSubBytes state) = state := by
  ext row column
  rw [subBytes, State.get_ofFn, invSubBytes, State.get_ofFn, sbox_invSbox]

theorem invShiftRows_shiftRows (state : State) : invShiftRows (shiftRows state) = state := by
  have hcancel : ∀ row column : Fin 4, column - row + row = column := by decide
  ext row column
  rw [invShiftRows, State.get_ofFn, shiftRows, State.get_ofFn, hcancel]

theorem shiftRows_invShiftRows (state : State) : shiftRows (invShiftRows state) = state := by
  have hcancel : ∀ row column : Fin 4, column + row - row = column := by decide
  ext row column
  rw [shiftRows, State.get_ofFn, invShiftRows, State.get_ofFn, hcancel]

theorem addRoundKey_addRoundKey (state : State) (key : Array UInt32) (i : ℕ) :
    addRoundKey (addRoundKey state key i) key i = state := by
  ext row column
  rw [addRoundKey, State.get_ofFn, addRoundKey, State.get_ofFn, UInt8.xor_assoc, UInt8.xor_self,
    UInt8.xor_zero]

theorem toState_ofState (state : State) : toState (ofState state) = state := by
  ext row column : 1
  have hrow : (4 * column.val + row.val) % 4 = row.val := by omega
  have hcolumn : (4 * column.val + row.val) / 4 = column.val := by omega
  simp only [toState, State.get_ofFn, ofState, hrow, hcolumn, Fin.eta]

theorem ofState_toState (block : Block) : ofState (toState block) = block := by
  funext i
  have hindex : 4 * (i.val / 4) + i.val % 4 = i.val := Nat.div_add_mod i.val 4
  simp only [toState, State.get_ofFn, ofState, hindex, Fin.eta]

/-! ## The rounds in reverse -/

variable (key : Array UInt32)

/-- `SubBytes` and `ShiftRows`, which every round begins with. -/
def substituted (state : State) : State := shiftRows (subBytes state)

def unsubstituted (state : State) : State := invSubBytes (invShiftRows state)

theorem unsubstituted_substituted (state : State) : unsubstituted (substituted state) = state := by
  rw [unsubstituted, substituted, invShiftRows_shiftRows, invSubBytes_subBytes]

theorem substituted_unsubstituted (state : State) : substituted (unsubstituted state) = state := by
  rw [unsubstituted, substituted, subBytes_invSubBytes, shiftRows_invShiftRows]

/-- The words that the rounds between the first and the last one of `r` rounds begin at. -/
def inner (r : ℕ) : List ℕ := (List.range' 1 (r - 1)).map (4 * ·)

theorem inner_ten : inner 10 = [4, 8, 12, 16, 20, 24, 28, 32, 36] := rfl

theorem inner_twelve : inner 12 = [4, 8, 12, 16, 20, 24, 28, 32, 36] ++ [40, 44] := rfl

theorem inner_fourteen : inner 14 = [4, 8, 12, 16, 20, 24, 28, 32, 36] ++ ([40, 44] ++ [48, 52]) :=
  rfl

/-- Encryption with `r` rounds. -/
def encryptRounds (r : ℕ) (state : State) : State :=
  lastRound key ((inner r).foldl (round key) (addRoundKey state key 0)) (4 * r)

/-- Decryption with `r` rounds. -/
def decryptRounds (r : ℕ) (state : State) : State :=
  addRoundKey (unsubstituted ((inner r).reverse.foldl (invRound key)
    (addRoundKey state key (4 * r)))) key 0

/-- A round that begins behind the substitution and ends behind the next one. -/
def shifted (state : State) (i : ℕ) : State := substituted (addRoundKey (mixColumns state) key i)

theorem invRound_shifted (state : State) (i : ℕ) :
    invRound key (shifted key state i) i = state := by
  have hunsubstituted : invRound key (shifted key state i) i =
      invMixColumns (addRoundKey (unsubstituted (shifted key state i)) key i) := rfl
  rw [hunsubstituted, shifted, unsubstituted_substituted, addRoundKey_addRoundKey,
    invMixColumns_mixColumns]

theorem shifted_invRound (state : State) (i : ℕ) :
    shifted key (invRound key state i) i = state := by
  have hunsubstituted : invRound key state i =
      invMixColumns (addRoundKey (unsubstituted state) key i) := rfl
  rw [hunsubstituted, shifted, mixColumns_invMixColumns, addRoundKey_addRoundKey,
    substituted_unsubstituted]

/-- Encryption with its rounds cut behind the substitution. -/
theorem encryptRounds_eq (r : ℕ) (state : State) : encryptRounds key r state =
    addRoundKey ((inner r).foldl (shifted key) (substituted (addRoundKey state key 0)))
      key (4 * r) := by
  have hshift : substituted ((inner r).foldl (round key) (addRoundKey state key 0)) =
      (inner r).foldl (shifted key) (substituted (addRoundKey state key 0)) :=
    (List.foldl_hom substituted fun _ _ ↦ rfl).symm
  rw [← hshift]
  rfl

theorem decryptRounds_encryptRounds (r : ℕ) (state : State) :
    decryptRounds key r (encryptRounds key r state) = state := by
  rw [decryptRounds, encryptRounds_eq, addRoundKey_addRoundKey,
    foldl_reverse_foldl (invRound_shifted key), unsubstituted_substituted, addRoundKey_addRoundKey]

theorem encryptRounds_decryptRounds (r : ℕ) (state : State) :
    encryptRounds key r (decryptRounds key r state) = state := by
  have hreverse := foldl_reverse_foldl (shifted_invRound key) (inner r).reverse
    (addRoundKey state key (4 * r))
  rw [List.reverse_reverse] at hreverse
  rw [encryptRounds_eq, decryptRounds, addRoundKey_addRoundKey, substituted_unsubstituted, hreverse,
    addRoundKey_addRoundKey]

/-- How many rounds `aes_encrypt` makes. -/
def roundsOfEncrypt (keysize : ℤ) : ℕ :=
  if keysize = 128 then 10 else if keysize = 192 then 12 else 14

/-- How many rounds `aes_decrypt` undoes. -/
def roundsOfDecrypt (keysize : ℤ) : ℕ :=
  if 192 < keysize then 14 else if 128 < keysize then 12 else 10

variable {key} {keysize : ℤ}

theorem encryptState_eq (state : State) :
    encryptState key keysize state = encryptRounds key (roundsOfEncrypt keysize) state := by
  unfold encryptState roundsOfEncrypt encryptRounds
  dsimp only
  by_cases h128 : keysize = 128
  · rw [if_neg (not_not.mpr h128), if_pos h128, inner_ten]
  · rw [if_pos h128, if_neg h128]
    by_cases h192 : keysize = 192
    · rw [if_neg (not_not.mpr h192), if_pos h192, inner_twelve, List.foldl_append]
    · rw [if_pos h192, if_neg h192, inner_fourteen, List.foldl_append, List.foldl_append]

theorem decryptState_eq (state : State) :
    decryptState key keysize state = decryptRounds key (roundsOfDecrypt keysize) state := by
  unfold decryptState roundsOfDecrypt decryptRounds unsubstituted
  split_ifs with h128 h192
  · rw [inner_fourteen, List.reverse_append, List.reverse_append, List.foldl_append,
      List.foldl_append]
    rfl
  · rw [inner_twelve, List.reverse_append, List.foldl_append]
    rfl
  · omega
  · rw [inner_ten]
    rfl

/-- The key sizes that both functions understand alike. -/
def SameRounds (keysize : ℤ) : Prop := keysize = 128 ∨ keysize = 192 ∨ 192 < keysize

theorem rounds_eq_iff : roundsOfEncrypt keysize = roundsOfDecrypt keysize ↔ SameRounds keysize := by
  unfold roundsOfEncrypt roundsOfDecrypt SameRounds
  split_ifs <;> omega

theorem aesDecrypt_aesEncrypt (h : SameRounds keysize) (block : Block) :
    aesDecrypt key keysize (aesEncrypt key keysize block) = block := by
  rw [aesDecrypt, aesEncrypt, toState_ofState, encryptState_eq, decryptState_eq,
    rounds_eq_iff.mpr h, decryptRounds_encryptRounds, ofState_toState]

theorem aesEncrypt_aesDecrypt (h : SameRounds keysize) (block : Block) :
    aesEncrypt key keysize (aesDecrypt key keysize block) = block := by
  rw [aesDecrypt, aesEncrypt, toState_ofState, encryptState_eq, decryptState_eq,
    rounds_eq_iff.mpr h, encryptRounds_decryptRounds, ofState_toState]

/-- With the schedule of zeros the rounds that are undone do not bring the block of zeros back when
there are fewer of them. -/
theorem decryptRounds_fewer :
    decryptRounds #[] 10 (encryptRounds #[] 14 (toState fun _ ↦ 0)) ≠ toState (fun _ ↦ 0) ∧
      decryptRounds #[] 12 (encryptRounds #[] 14 (toState fun _ ↦ 0)) ≠ toState (fun _ ↦ 0) := by
  decide +kernel

/-- Decryption brings back every block under every schedule if and only if the key size is one that
the two functions understand alike: 128, 192, or anything above it. -/
theorem decrypts_iff (keysize : ℤ) :
    (∀ key block, aesDecrypt key keysize (aesEncrypt key keysize block) = block) ↔
      SameRounds keysize := by
  constructor
  · intro hdecrypts
    by_contra hrounds
    have hzero := congrArg toState (hdecrypts #[] fun _ ↦ 0)
    rw [aesDecrypt, toState_ofState, aesEncrypt, toState_ofState, encryptState_eq,
      decryptState_eq] at hzero
    have h14 : roundsOfEncrypt keysize = 14 := by
      unfold SameRounds at hrounds
      unfold roundsOfEncrypt
      split_ifs <;> omega
    have hfewer : roundsOfDecrypt keysize = 10 ∨ roundsOfDecrypt keysize = 12 := by
      unfold SameRounds at hrounds
      unfold roundsOfDecrypt
      split_ifs <;> omega
    rw [h14] at hzero
    rcases hfewer with h10 | h12
    · rw [h10] at hzero
      exact decryptRounds_fewer.1 hzero
    · rw [h12] at hzero
      exact decryptRounds_fewer.2 hzero
  · intro hrounds key block
    exact aesDecrypt_aesEncrypt hrounds block

end Ctap.Aes

end QNet
