import Mathlib.Algebra.BigOperators.Group.Finset.Sigma
import Mathlib.Algebra.BigOperators.Ring.Finset
import Mathlib.Algebra.Ring.Commute
import Mathlib.Tactic.Abel

/-!
# Bit vectors as residues of binary polynomials

The bits of a vector of width `w` are the coefficients of a polynomial over the field with two
elements, taken modulo `X ^ w + r`. Addition is exclusive or. Multiplication by `X` is a shift, and
`r` is added when a bit is shifted out; a product adds up the shifted copies of one factor that the
bits of the other select. This makes the vectors a commutative ring for every width and every `r`,
so that what is known of matrices over commutative rings can be used of them.
-/

namespace QNet

/-- The bit vectors of width `w`, with the product modulo `X ^ w + r`. -/
def BinaryRing {w : ℕ} (_r : BitVec w) : Type := BitVec w

namespace BinaryRing

variable {w : ℕ} {r : BitVec w}

instance : DecidableEq (BinaryRing r) := inferInstanceAs (DecidableEq (BitVec w))

/-- The residue with these bits. -/
def ofBits (a : BitVec w) : BinaryRing r := a

/-- The coefficient of `X ^ i`. -/
def coeff (a : BinaryRing r) (i : ℕ) : Bool := BitVec.getLsbD a i

instance : Add (BinaryRing r) := ⟨BitVec.xor⟩

instance : Zero (BinaryRing r) := ⟨BitVec.zero w⟩

instance : Neg (BinaryRing r) := ⟨id⟩

instance : AddCommGroup (BinaryRing r) where
  add_assoc := BitVec.xor_assoc
  zero_add _ := BitVec.zero_xor
  add_zero _ := BitVec.xor_zero
  add_comm := BitVec.xor_comm
  neg_add_cancel _ := BitVec.xor_self
  nsmul := nsmulRec
  zsmul := zsmulRec

@[ext]
theorem ext {a b : BinaryRing r} (h : ∀ i < w, coeff a i = coeff b i) : a = b :=
  BitVec.eq_of_getLsbD_eq h

@[simp]
theorem coeff_add (a b : BinaryRing r) (i : ℕ) :
    coeff (a + b) i = (coeff a i ^^ coeff b i) := BitVec.getLsbD_xor

@[simp]
theorem coeff_zero (i : ℕ) : coeff (0 : BinaryRing r) i = false := BitVec.getLsbD_zero

@[simp]
theorem add_self (a : BinaryRing r) : a + a = 0 := BitVec.xor_self

/-! ## Multiplication by the variable -/

/-- The vector if the bit is set. -/
def select (bit : Bool) (a : BinaryRing r) : BinaryRing r := if bit then a else 0

theorem select_xor (b b' : Bool) (a : BinaryRing r) :
    select (b ^^ b') a = select b a + select b' a := by
  cases b <;> cases b' <;> simp [select]

theorem select_add (b : Bool) (a a' : BinaryRing r) :
    select b (a + a') = select b a + select b a' := by
  cases b <;> simp [select]

theorem select_select (b b' : Bool) (a : BinaryRing r) :
    select b (select b' a) = select b' (select b a) := by
  cases b <;> cases b' <;> rfl

@[simp]
theorem select_false (a : BinaryRing r) : select false a = 0 := rfl

/-- The shift without the bit that leaves the vector. -/
def shift (a : BinaryRing r) : BinaryRing r := BitVec.shiftLeft a 1

theorem coeff_shift (a : BinaryRing r) (i : ℕ) :
    coeff (shift a) i = (decide (i < w) && !decide (i < 1) && coeff a (i - 1)) :=
  BitVec.getLsbD_shiftLeft a 1

theorem shift_add (a b : BinaryRing r) : shift (a + b) = shift a + shift b := by
  ext i hi
  simp only [coeff_shift, coeff_add]
  cases decide (i < w) <;> cases decide (i < 1) <;> simp

/-- The product with `X`. -/
def xtime (a : BinaryRing r) : BinaryRing r :=
  shift a + select (coeff a (w - 1)) (ofBits r)

theorem xtime_add (a b : BinaryRing r) : xtime (a + b) = xtime a + xtime b := by
  unfold xtime
  rw [shift_add, coeff_add, select_xor]
  abel

@[simp]
theorem xtime_zero : xtime (0 : BinaryRing r) = 0 := by
  have hzero := xtime_add (0 : BinaryRing r) 0
  rwa [add_zero, left_eq_add] at hzero

/-- The product with `X ^ i`. -/
def xpow : ℕ → BinaryRing r → BinaryRing r
  | 0, a => a
  | i + 1, a => xtime (xpow i a)

theorem xpow_add (i : ℕ) (a b : BinaryRing r) : xpow i (a + b) = xpow i a + xpow i b := by
  induction i with
  | zero => rfl
  | succ i ih => rw [xpow, ih, xtime_add, xpow, xpow]

@[simp]
theorem xpow_zero_right (i : ℕ) : xpow i (0 : BinaryRing r) = 0 := by
  induction i with
  | zero => rfl
  | succ i ih => rw [xpow, ih, xtime_zero]

theorem xpow_xpow (i j : ℕ) (a : BinaryRing r) : xpow i (xpow j a) = xpow (i + j) a := by
  induction i with
  | zero => rw [xpow, Nat.zero_add]
  | succ i ih => rw [xpow, ih, Nat.succ_add, xpow]

theorem xpow_select (i : ℕ) (b : Bool) (a : BinaryRing r) :
    xpow i (select b a) = select b (xpow i a) := by
  cases b
  · exact xpow_zero_right i
  · rfl

theorem xpow_sum (i n : ℕ) (f : ℕ → BinaryRing r) :
    xpow i (∑ j ∈ Finset.range n, f j) = ∑ j ∈ Finset.range n, xpow i (f j) := by
  induction n with
  | zero => exact xpow_zero_right i
  | succ n ih => rw [Finset.sum_range_succ, Finset.sum_range_succ, xpow_add, ih]

theorem select_sum (b : Bool) (n : ℕ) (f : ℕ → BinaryRing r) :
    select b (∑ j ∈ Finset.range n, f j) = ∑ j ∈ Finset.range n, select b (f j) := by
  cases b
  · simp [select]
  · rfl

/-! ## Products -/

/-- The sum of the first copies of `a` that the bits of `b` select. -/
def mulTo (a b : BinaryRing r) : ℕ → BinaryRing r
  | 0 => 0
  | i + 1 => mulTo a b i + select (coeff b i) (xpow i a)

instance : Mul (BinaryRing r) where
  mul a b := mulTo a b w

theorem mul_def (a b : BinaryRing r) :
    a * b = ∑ i ∈ Finset.range w, select (coeff b i) (xpow i a) := by
  have hmulTo (n : ℕ) : mulTo a b n = ∑ i ∈ Finset.range n, select (coeff b i) (xpow i a) := by
    induction n with
    | zero => rfl
    | succ n ih => rw [mulTo, ih, Finset.sum_range_succ]
  exact hmulTo w

instance : One (BinaryRing r) := ⟨BitVec.ofNat w 1⟩

theorem coeff_one (i : ℕ) : coeff (1 : BinaryRing r) i = (decide (i < w) && decide (i = 0)) := by
  change BitVec.getLsbD (BitVec.ofNat w 1) i = _
  rw [BitVec.getLsbD_ofNat]
  cases i <;> simp [Nat.testBit_succ]

/-- The powers of `X` below the width are the vectors with one bit. -/
theorem coeff_xpow_one {i j : ℕ} (hi : i < w) (hj : j < w) :
    coeff (xpow j (1 : BinaryRing r)) i = decide (i = j) := by
  induction j generalizing i with
  | zero => simp [xpow, coeff_one, hi]
  | succ j ih =>
    have htop : coeff (xpow j (1 : BinaryRing r)) (w - 1) = false := by
      rw [ih (by omega) (by omega)]
      simp
      omega
    rw [xpow, xtime, htop, select_false, add_zero, coeff_shift]
    cases i with
    | zero => simp
    | succ i => simp [hi, ih (Nat.lt_of_succ_lt hi) (Nat.lt_of_succ_lt hj)]

/-- Every vector is the sum of the powers of `X` at its bits. -/
theorem eq_sum (a : BinaryRing r) :
    a = ∑ j ∈ Finset.range w, select (coeff a j) (xpow j 1) := by
  have hsum (n : ℕ) (hn : n ≤ w) : ∀ i < w,
      coeff (∑ j ∈ Finset.range n, select (coeff a j) (xpow j (1 : BinaryRing r))) i =
        (decide (i < n) && coeff a i) := by
    induction n with
    | zero => simp
    | succ n ih =>
      intro i hi
      rw [Finset.sum_range_succ, coeff_add, ih (Nat.le_of_succ_le hn) i hi]
      have hbit : coeff (select (coeff a n) (xpow n (1 : BinaryRing r))) i =
          (decide (i = n) && coeff a n) := by
        cases coeff a n
        · simp
        · simpa [select] using coeff_xpow_one hi (Nat.lt_of_succ_le hn)
      rw [hbit]
      rcases Nat.lt_trichotomy i n with hlt | heq | hgt
      · simp [hlt, Nat.ne_of_lt hlt, Nat.lt_succ_of_lt hlt]
      · simp [heq]
      · simp [Nat.not_lt_of_gt hgt, Nat.ne_of_gt hgt, Nat.not_lt_of_ge (Nat.succ_le_of_lt hgt)]
  ext i hi
  rw [hsum w (Nat.le_refl w) i hi]
  simp [hi]

/-- The product by the bits of both factors. -/
theorem mul_eq_sum (a b : BinaryRing r) :
    a * b = ∑ i ∈ Finset.range w, ∑ j ∈ Finset.range w,
      select (coeff b i) (select (coeff a j) (xpow (i + j) 1)) := by
  rw [mul_def]
  apply Finset.sum_congr rfl
  intro i _
  calc
    select (coeff b i) (xpow i a) =
        select (coeff b i)
          (xpow i (∑ j ∈ Finset.range w, select (coeff a j) (xpow j 1))) := by rw [← eq_sum a]
    _ = _ := by
      rw [xpow_sum, select_sum]
      apply Finset.sum_congr rfl
      intro j _
      rw [xpow_select, xpow_xpow]

protected theorem mul_comm (a b : BinaryRing r) : a * b = b * a := by
  rw [mul_eq_sum, mul_eq_sum, Finset.sum_comm]
  apply Finset.sum_congr rfl
  intro i _
  apply Finset.sum_congr rfl
  intro j _
  rw [select_select, Nat.add_comm]

protected theorem add_mul (a a' b : BinaryRing r) : (a + a') * b = a * b + a' * b := by
  simp only [mul_def, xpow_add, select_add, Finset.sum_add_distrib]

theorem xpow_mul (i : ℕ) (a b : BinaryRing r) : xpow i (a * b) = xpow i a * b := by
  simp only [mul_def, xpow_sum, xpow_select, xpow_xpow, Nat.add_comm i]

protected theorem zero_mul (b : BinaryRing r) : 0 * b = 0 := by
  simp [mul_def, select]

theorem select_mul (bit : Bool) (a b : BinaryRing r) : select bit a * b = select bit (a * b) := by
  cases bit
  · exact BinaryRing.zero_mul b
  · rfl

theorem sum_mul_right (n : ℕ) (f : ℕ → BinaryRing r) (b : BinaryRing r) :
    (∑ j ∈ Finset.range n, f j) * b = ∑ j ∈ Finset.range n, f j * b := by
  induction n with
  | zero => exact BinaryRing.zero_mul b
  | succ n ih => rw [Finset.sum_range_succ, Finset.sum_range_succ, BinaryRing.add_mul, ih]

protected theorem mul_assoc (a b c : BinaryRing r) : a * b * c = a * (b * c) := by
  have hright : a * b * c = ∑ i ∈ Finset.range w, select (coeff b i) (xpow i (a * c)) := by
    rw [mul_def a b, sum_mul_right]
    apply Finset.sum_congr rfl
    intro i _
    rw [select_mul, ← xpow_mul]
  have hleft : a * (b * c) = ∑ i ∈ Finset.range w, select (coeff b i) (xpow i (a * c)) := by
    rw [BinaryRing.mul_comm b c, BinaryRing.mul_comm a, mul_def c b, sum_mul_right]
    apply Finset.sum_congr rfl
    intro i _
    rw [select_mul, ← xpow_mul, BinaryRing.mul_comm c a]
  rw [hright, hleft]

protected theorem mul_one (a : BinaryRing r) : a * 1 = a := by
  rw [BinaryRing.mul_comm, mul_def]
  exact (eq_sum a).symm

instance : CommRing (BinaryRing r) where
  left_distrib a b c := by
    rw [BinaryRing.mul_comm, BinaryRing.add_mul, BinaryRing.mul_comm b, BinaryRing.mul_comm c]
  right_distrib := BinaryRing.add_mul
  zero_mul := BinaryRing.zero_mul
  mul_zero a := by rw [BinaryRing.mul_comm, BinaryRing.zero_mul]
  mul_assoc := BinaryRing.mul_assoc
  one_mul a := by rw [BinaryRing.mul_comm, BinaryRing.mul_one]
  mul_one := BinaryRing.mul_one
  mul_comm := BinaryRing.mul_comm
  neg_add_cancel := neg_add_cancel
  zsmul := zsmulRec

end BinaryRing

end QNet
