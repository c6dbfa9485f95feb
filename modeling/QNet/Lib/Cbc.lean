import Mathlib.Logic.Equiv.Defs
import Mathlib.Tactic.Common

/-!
# Cipher block chaining

A message is a sequence of blocks; a cipher is a permutation of the blocks, and every block is
masked with the ciphertext before it. Ciphertext block `i` depends on the blocks up to `i` only, so
that a part of a message from its beginning can be encrypted alone, and decryption gives every
block back. What is chained on tells two messages apart that differ in their first block.
-/

namespace QNet

/-- How a block is masked with the ciphertext before it. -/
structure Mask (B : Type*) where
  mask : B → B → B
  mask_mask (c p : B) : mask c (mask c p) = p
  comm (c p : B) : mask c p = mask p c

namespace Mask

variable {B : Type*} (M : Mask B)

theorem left_injective (c : B) : Function.Injective (M.mask c) :=
  Function.LeftInverse.injective (M.mask_mask c)

theorem right_injective (p : B) : Function.Injective fun c ↦ M.mask c p := by
  intro c c' h
  dsimp only at h
  rw [M.comm c p, M.comm c' p] at h
  exact M.left_injective p h

end Mask

namespace Cbc

variable {B : Type*} (M : Mask B) (E : Equiv.Perm B) (iv : B)

/-- What block `i` is masked with: the initialization vector, and then the ciphertext before it. -/
def chain (x : ℕ → B) : ℕ → B
  | 0 => iv
  | i + 1 => E (M.mask (chain x i) (x i))

def encrypt (x : ℕ → B) (i : ℕ) : B := chain M E iv x (i + 1)

def decrypt (c : ℕ → B) : ℕ → B
  | 0 => M.mask iv (E.symm (c 0))
  | i + 1 => M.mask (c i) (E.symm (c (i + 1)))

variable {M E iv} {x x' c c' : ℕ → B} {i : ℕ}

theorem encrypt_eq (x : ℕ → B) (i : ℕ) :
    encrypt M E iv x i = E (M.mask (chain M E iv x i) (x i)) := rfl

/-! ## Parts of a message -/

theorem decrypt_congr (h : ∀ j ≤ i, c j = c' j) : decrypt M E iv c i = decrypt M E iv c' i := by
  cases i with
  | zero => rw [decrypt, decrypt, h 0 (Nat.le_refl 0)]
  | succ i => rw [decrypt, decrypt, h i (Nat.le_succ i), h (i + 1) (Nat.le_refl _)]

theorem decrypt_encrypt (x : ℕ → B) (i : ℕ) : decrypt M E iv (encrypt M E iv x) i = x i := by
  cases i with
  | zero => rw [decrypt, encrypt_eq, Equiv.symm_apply_apply, chain, M.mask_mask]
  | succ i => rw [decrypt, encrypt_eq x (i + 1), Equiv.symm_apply_apply, encrypt, M.mask_mask]

/-! ## Messages that differ in the first block -/

/-- The same chain and the same blocks behind the first one come from the same first block. -/
theorem head_eq_of_chain_eq (h : ∀ j, 0 < j → j ≤ i → x j = x' j)
    (hchain : chain M E iv x (i + 1) = chain M E iv x' (i + 1)) : x 0 = x' 0 := by
  induction i with
  | zero => exact M.left_injective iv (E.injective hchain)
  | succ i ih =>
    rw [chain, chain, h (i + 1) (Nat.succ_pos i) (Nat.le_refl _)] at hchain
    exact ih (fun j hpos hj ↦ h j hpos (Nat.le_succ_of_le hj))
      (M.right_injective (x' (i + 1)) (E.injective hchain))

/-- Of two messages that differ in the first block and agree from there to block `i + 1`, at most
one has that block unchanged in its ciphertext. -/
theorem head_eq_of_encrypt_eq (h : ∀ j, 0 < j → j ≤ i + 1 → x j = x' j)
    (hx : encrypt M E iv x (i + 1) = x (i + 1)) (hx' : encrypt M E iv x' (i + 1) = x' (i + 1)) :
    x 0 = x' 0 := by
  have hblock := h (i + 1) (Nat.succ_pos i) (Nat.le_refl _)
  have hmasked : M.mask (chain M E iv x (i + 1)) (x (i + 1)) =
      M.mask (chain M E iv x' (i + 1)) (x (i + 1)) := by
    apply E.injective
    calc
      E (M.mask (chain M E iv x (i + 1)) (x (i + 1))) = x (i + 1) := hx
      _ = x' (i + 1) := hblock
      _ = E (M.mask (chain M E iv x' (i + 1)) (x' (i + 1))) := hx'.symm
      _ = E (M.mask (chain M E iv x' (i + 1)) (x (i + 1))) := by rw [hblock]
  exact head_eq_of_chain_eq (fun j hpos hj ↦ h j hpos (Nat.le_succ_of_le hj))
    (M.right_injective (x (i + 1)) hmasked)

end Cbc

end QNet
