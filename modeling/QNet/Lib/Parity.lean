import Mathlib.Algebra.Order.Ring.Nat
import Mathlib.Data.Nat.Bits
import Mathlib.Tactic.Common
import Mathlib.Tactic.Ring

/-!
# Parity checks and the place of an error

The position `k + 1` of a bit is written in binary, and check `st` is the parity of all bits at
positions with the binary digit `st`. Flipping one bit changes just the checks that are the digits
of its position, so the changed checks spell out where it is.
-/

namespace QNet.Parity

/-- Whether the number of the first `n` bits that are set is odd. -/
def parity (f : ℕ → Bool) : ℕ → Bool
  | 0 => false
  | n + 1 => parity f n ^^ f n

theorem parity_congr {f f' : ℕ → Bool} {n : ℕ} (h : ∀ k < n, f k = f' k) :
    parity f n = parity f' n := by
  induction n with
  | zero => rfl
  | succ n ih =>
    rw [parity, parity, ih fun k hk ↦ h k (Nat.lt_succ_of_lt hk), h n (Nat.lt_succ_self n)]

theorem parity_xor (f f' : ℕ → Bool) (n : ℕ) :
    parity (fun k ↦ f k ^^ f' k) n = (parity f n ^^ parity f' n) := by
  induction n with
  | zero => rfl
  | succ n ih =>
    rw [parity, parity, parity, ih, Bool.xor_assoc, Bool.xor_assoc, Bool.xor_left_comm (f n)]

theorem parity_false (n : ℕ) : parity (fun _ ↦ false) n = false := by
  induction n with
  | zero => rfl
  | succ n ih => rw [parity, ih, Bool.xor_false]

theorem parity_eq_false {f : ℕ → Bool} {n : ℕ} (h : ∀ k < n, f k = false) : parity f n = false :=
  (parity_congr h).trans (parity_false n)

theorem parity_add (f : ℕ → Bool) (m n : ℕ) :
    parity f (m + n) = (parity f m ^^ parity (fun k ↦ f (m + k)) n) := by
  induction n with
  | zero => exact (Bool.xor_false _).symm
  | succ n ih => rw [← Nat.add_assoc, parity, parity, ih, Bool.xor_assoc]

/-- Counting and looking at the last digit. -/
theorem bodd_countP_range (f : ℕ → Bool) (n : ℕ) : ((List.range n).countP f).bodd = parity f n := by
  induction n with
  | zero => simp [parity]
  | succ n ih =>
    rw [List.range_succ, List.countP_append, Nat.bodd_add, ih, parity, List.countP_singleton]
    cases f n <;> rfl

/-- Of bits that are all zero but one, the parity is this one. -/
theorem parity_single {f : ℕ → Bool} {n m : ℕ} (hm : m < n) (h : ∀ k < n, k ≠ m → f k = false) :
    parity f n = f m := by
  induction n with
  | zero => exact absurd hm (Nat.not_lt_zero m)
  | succ n ih =>
    rw [parity]
    rcases Nat.lt_succ_iff_lt_or_eq.mp hm with hlt | rfl
    · rw [ih hlt fun k hk ↦ h k (Nat.lt_succ_of_lt hk), h n (Nat.lt_succ_self n) (Nat.ne_of_gt hlt),
        Bool.xor_false]
    · rw [parity_eq_false fun k hk ↦ h k (Nat.lt_succ_of_lt hk) (Nat.ne_of_lt hk), Bool.false_xor]

/-- Check `st` of the first `n` bits. -/
def check (n : ℕ) (f : ℕ → Bool) (st : ℕ) : Bool := parity (fun k ↦ (k + 1).testBit st && f k) n

theorem check_congr {n : ℕ} {f f' : ℕ → Bool} {st : ℕ}
    (h : ∀ k < n, (k + 1).testBit st = true → f k = f' k) : check n f st = check n f' st := by
  apply parity_congr
  intro k hk
  cases hbit : (k + 1).testBit st with
  | false => rfl
  | true => rw [h k hk hbit]

theorem check_xor (n : ℕ) (f f' : ℕ → Bool) (st : ℕ) :
    check n (fun k ↦ f k ^^ f' k) st = (check n f st ^^ check n f' st) := by
  rw [check, check, check, ← parity_xor]
  apply parity_congr
  intro k _
  exact Bool.and_xor_distrib_left _ _ _

/-- A single bit appears in the checks of its position. -/
theorem check_single {n m : ℕ} {f : ℕ → Bool} (hm : m < n) (h : ∀ k < n, k ≠ m → f k = false)
    (hf : f m = true) (st : ℕ) : check n f st = (m + 1).testBit st := by
  have hzero (k : ℕ) (hk : k < n) (hkm : k ≠ m) : ((k + 1).testBit st && f k) = false := by
    rw [h k hk hkm, Bool.and_false]
  rw [check, parity_single hm hzero, hf, Bool.and_true]

/-- A digit of a position in a block that starts at a multiple of its weight. -/
theorem testBit_block {st j : ℕ} (q : ℕ) (hj : j < 2 ^ st) :
    (2 ^ st * q + j).testBit st = decide (q % 2 = 1) := by
  rw [Nat.testBit_two_pow_mul_add q hj, if_neg (Nat.lt_irrefl st), Nat.sub_self, Nat.testBit_zero]

/-- The number with the given lowest `r` digits. -/
def ofDigits (digit : ℕ → Bool) : ℕ → ℕ
  | 0 => 0
  | r + 1 => ofDigits digit r + if digit r then 2 ^ r else 0

theorem ofDigits_congr {digit digit' : ℕ → Bool} {r : ℕ} (h : ∀ i < r, digit i = digit' i) :
    ofDigits digit r = ofDigits digit' r := by
  induction r with
  | zero => rfl
  | succ r ih =>
    rw [ofDigits, ofDigits, ih fun i hi ↦ h i (Nat.lt_succ_of_lt hi), h r (Nat.lt_succ_self r)]

theorem ofDigits_testBit (n r : ℕ) : ofDigits n.testBit r = n % 2 ^ r := by
  induction r with
  | zero => exact (Nat.mod_one n).symm
  | succ r ih =>
    rw [ofDigits, ih, Nat.mod_pow_succ, Nat.testBit_eq_decide_div_mod_eq]
    rcases Nat.mod_two_eq_zero_or_one (n / 2 ^ r) with hzero | hone
    · simp [hzero]
    · simp [hone]

theorem ofDigits_lt (digit : ℕ → Bool) (r : ℕ) : ofDigits digit r < 2 ^ r := by
  induction r with
  | zero => exact Nat.one_pos
  | succ r ih =>
    rw [ofDigits, Nat.pow_succ]
    split_ifs <;> omega

theorem testBit_ofDigits {digit : ℕ → Bool} {r i : ℕ} (h : i < r) :
    (ofDigits digit r).testBit i = digit i := by
  induction r with
  | zero => exact absurd h (Nat.not_lt_zero i)
  | succ r ih =>
    have hlt := ofDigits_lt digit r
    rw [ofDigits]
    rcases Nat.lt_succ_iff_lt_or_eq.mp h with hi | rfl
    · rw [← ih hi]
      split_ifs
      · rw [Nat.add_comm, Nat.testBit_two_pow_add_gt hi]
      · rfl
    · cases digit i with
      | false =>
        rw [if_neg Bool.false_ne_true, Nat.add_zero, Nat.testBit_lt_two_pow hlt]
      | true => rw [if_pos rfl, Nat.add_comm, Nat.testBit_two_pow_add_eq,
          Nat.testBit_lt_two_pow hlt, Bool.not_false]

end QNet.Parity
