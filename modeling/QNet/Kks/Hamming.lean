import Mathlib.Data.List.Basic
import Mathlib.Data.List.GetD
import Mathlib.Data.Nat.Log
import QNet.Lib.Parity

/-!
# The Hamming code of the key exchange

`HammingCode` inserts a control bit at every position `2 ^ i`, sets it to the parity of the
positions with the binary digit `i`, and returns the control bits. `HammingDecode` does the same
with the other key, inverts the bit at the position that the changed control bits spell out, and
erases the control bits.

The loops have three slips. The parity loop reads one bit behind the vector. It also runs for a
power of two that is the last position, where a bit of the key stands and no control bit. And the
loop that erases the control bits compares with the size of the vector, which shrinks meanwhile, so
it may leave the last of them.

This module says what each loop does: `Spread` for insertion and erasure, `counter_bodd` and
`setControl_spec` for the parities.
-/

namespace QNet.Kks

open Parity

/-! ## The control bits -/

/-- The loop that inserts the control bits; `fuel` bounds its rounds. -/
def insertControlFuel : ℕ → ℕ → List Bool → List Bool
  | 0, _, key => key
  | fuel + 1, i, key =>
      if 2 ^ i < key.length then
        insertControlFuel fuel (i + 1) (key.insertIdx (2 ^ i - 1) false)
      else key

/-- Shifts by 32 are undefined, so a vector of `2 ^ 31` bits has no meaning. -/
def insertControl (key : List Bool) : Option (List Bool) :=
  let word := insertControlFuel key.length 0 key
  if word.length < 2 ^ 31 then some word else none

/-- The ones among `key[i]`, …, `key[i + 2 ^ st - 1]`, where the loop stops only behind the bit
`behind` that stands behind the vector. -/
def blockOnes (behind : Bool) (key : List Bool) (st i : ℕ) : ℕ :=
  (List.range (2 ^ st)).countP fun j ↦ j + i ≤ key.length && key.getD (i + j) behind

/-- `counter` for one control bit. -/
def counterFuel (behind : Bool) (key : List Bool) (st : ℕ) : ℕ → ℕ → ℕ
  | 0, _ => 0
  | fuel + 1, i =>
      if i ≤ key.length - 1 then
        blockOnes behind key st i + counterFuel behind key st fuel (i + 2 * 2 ^ st)
      else 0

def counter (behind : Bool) (key : List Bool) (st : ℕ) : ℕ :=
  counterFuel behind key st key.length (2 ^ st - 1)

/-- The loop that sets the control bits. -/
def setControlFuel (behind : Bool) : ℕ → ℕ → List Bool → List Bool
  | 0, _, key => key
  | fuel + 1, st, key =>
      if 2 ^ st ≤ key.length then
        setControlFuel behind fuel (st + 1)
          (if counter behind key st % 2 ≠ 0 then key.set (2 ^ st - 1) true else key)
      else key

def setControl (behind : Bool) (key : List Bool) : List Bool :=
  setControlFuel behind key.length 0 key

/-- The loop that puts the control bits out. -/
def controlBitsFuel (key : List Bool) : ℕ → ℕ → List Bool
  | 0, _ => []
  | fuel + 1, i =>
      if 2 ^ i < key.length then key.getD (2 ^ i - 1) false :: controlBitsFuel key fuel (i + 1)
      else []

def controlBits (key : List Bool) : List Bool := controlBitsFuel key key.length 0

/-- `HammingCode`; `behind` is the bit behind the vector. -/
def hammingCode (behind : Bool) (key : List Bool) : Option (List Bool) :=
  (insertControl key).map fun word ↦ controlBits (setControl behind word)

/-! ## Decoding -/

/-- `pos`: the sum of the powers of two where the control bits differ. -/
def errorPos (input output : List Bool) : ℕ :=
  ofDigits (fun i ↦ input.getD i false ^^ output.getD i false) input.length

/-- The bit at a position is inverted. -/
def invertAt (word : List Bool) (pos : ℕ) : List Bool :=
  if pos ≠ 0 then word.modify (pos - 1) not else word

/-- The loop that erases the control bits. -/
def eraseControlFuel : ℕ → ℕ → List Bool → List Bool
  | 0, _, key => key
  | fuel + 1, i, key =>
      if 2 ^ i < key.length then eraseControlFuel fuel (i + 1) (key.eraseIdx (2 ^ i - 1 - i))
      else key

def eraseControl (key : List Bool) : List Bool := eraseControlFuel key.length 0 key

/-- `HammingDecode`. -/
def hammingDecode (behind : Bool) (key cbits : List Bool) : Option (List Bool) :=
  (insertControl key).map fun word ↦
    let word := setControl behind word
    eraseControl (invertAt word (errorPos cbits (controlBits word)))

/-! ## The number of control bits -/

/-- The number of control bits for a key of `n` bits: the first `i` with `n + i ≤ 2 ^ i`. -/
def controlCountFuel (n : ℕ) : ℕ → ℕ → ℕ
  | 0, i => i
  | fuel + 1, i => if 2 ^ i < n + i then controlCountFuel n fuel (i + 1) else i

def controlCount (n : ℕ) : ℕ := controlCountFuel n n 0

theorem two_mul_le_two_pow (i : ℕ) : 2 * i ≤ 2 ^ i := by
  cases i with
  | zero => exact Nat.zero_le _
  | succ i =>
    have hlt := Nat.lt_two_pow_self (n := i)
    rw [Nat.pow_succ]
    omega

theorem controlCount_spec (n : ℕ) :
    (∀ i < controlCount n, 2 ^ i < n + i) ∧ n + controlCount n ≤ 2 ^ controlCount n := by
  have hfuel (fuel i : ℕ) (hn : n ≤ i + fuel) (hbelow : ∀ j < i, 2 ^ j < n + j) :
      (∀ j < controlCountFuel n fuel i, 2 ^ j < n + j) ∧
        n + controlCountFuel n fuel i ≤ 2 ^ controlCountFuel n fuel i := by
    induction fuel generalizing i with
    | zero =>
      have hi := two_mul_le_two_pow i
      exact ⟨hbelow, by rw [controlCountFuel]; omega⟩
    | succ fuel ih =>
      rw [controlCountFuel]
      split_ifs with hnext
      · apply ih _ (by omega)
        intro j hj
        rcases Nat.lt_succ_iff_lt_or_eq.mp hj with hlt | rfl
        · exact hbelow j hlt
        · exact hnext
      · exact ⟨hbelow, Nat.not_lt.mp hnext⟩
  exact hfuel n 0 (Nat.le_add_left n 0) nofun

/-- Powers of two below the size of the vector with control bits. -/
theorem two_pow_lt_iff (n i : ℕ) : 2 ^ i < n + controlCount n ↔ i < controlCount n := by
  obtain ⟨hbelow, hle⟩ := controlCount_spec n
  constructor
  · intro hlt
    by_contra hge
    have hpow := Nat.pow_le_pow_right Nat.zero_lt_two (Nat.not_lt.mp hge)
    omega
  · intro hi
    have hnext := hbelow i hi
    omega

/-! ## Where the bits of the key are -/

/-- The bit is one of the first `r` control bits. -/
def IsControl (r k : ℕ) : Prop := ∃ j < r, k + 1 = 2 ^ j

/-- The number of the first `r` control bits up to a bit. -/
def controlsUpTo (k : ℕ) : ℕ → ℕ
  | 0 => 0
  | r + 1 => controlsUpTo k r + if 2 ^ r ≤ k + 1 then 1 else 0

theorem not_isControl_succ {r k : ℕ} : ¬IsControl (r + 1) k ↔ ¬IsControl r k ∧ k + 1 ≠ 2 ^ r := by
  constructor
  · exact fun h ↦ ⟨fun ⟨j, hj, heq⟩ ↦ h ⟨j, Nat.lt_succ_of_lt hj, heq⟩,
      fun heq ↦ h ⟨r, Nat.lt_succ_self r, heq⟩⟩
  · rintro ⟨h, hr⟩ ⟨j, hj, heq⟩
    rcases Nat.lt_succ_iff_lt_or_eq.mp hj with hlt | rfl
    · exact h ⟨j, hlt, heq⟩
    · exact hr heq

theorem controlsUpTo_eq {k r : ℕ} (h : 2 ^ r ≤ k + 1) : controlsUpTo k r = r := by
  induction r with
  | zero => rfl
  | succ r ih =>
    have hle : 2 ^ r ≤ k + 1 := by
      rw [Nat.pow_succ] at h
      omega
    rw [controlsUpTo, ih hle, if_pos hle]

theorem controlsUpTo_le {k r : ℕ} (h : ¬IsControl r k) : controlsUpTo k r ≤ k := by
  induction r with
  | zero => exact Nat.zero_le k
  | succ r ih =>
    obtain ⟨hr, hne⟩ := not_isControl_succ.mp h
    have hrest := ih hr
    rw [controlsUpTo]
    split_ifs with hle
    · have hlt := Nat.lt_two_pow_self (n := r)
      rw [controlsUpTo_eq hle]
      omega
    · exact hrest

/-- In front of position `2 ^ r` there is room for the bits of the key. -/
theorem lt_of_lt_two_pow {k r : ℕ} (h : ¬IsControl r k) (hk : k + 1 < 2 ^ r) :
    k + 1 + r < 2 ^ r + controlsUpTo k r := by
  induction r with
  | zero => exact absurd hk (by simp)
  | succ r ih =>
    obtain ⟨hr, hne⟩ := not_isControl_succ.mp h
    rw [Nat.pow_succ] at hk ⊢
    rw [controlsUpTo]
    split_ifs with hle
    · rw [controlsUpTo_eq hle]
      omega
    · have hrest := ih hr (Nat.not_le.mp hle)
      omega

theorem place_lt {k k' r : ℕ} (hk : ¬IsControl r k) (hk' : ¬IsControl r k') (hlt : k < k') :
    k + controlsUpTo k' r < k' + controlsUpTo k r := by
  induction r with
  | zero => exact hlt
  | succ r ih =>
    obtain ⟨hr, hne⟩ := not_isControl_succ.mp hk
    obtain ⟨hr', hne'⟩ := not_isControl_succ.mp hk'
    have hrest := ih hr hr'
    rw [controlsUpTo, controlsUpTo]
    rcases Nat.lt_or_ge (k + 1) (2 ^ r) with hbelow | hge
    · rw [if_neg (Nat.not_le.mpr hbelow)]
      split_ifs with hle
      · have hroom := lt_of_lt_two_pow hr hbelow
        rw [controlsUpTo_eq hle]
        omega
      · exact hrest
    · rw [if_pos hge, if_pos (by omega)]
      omega

/-- Different places belong to different bits of the key. -/
theorem place_inj {k k' r : ℕ} (hk : ¬IsControl r k) (hk' : ¬IsControl r k')
    (heq : k - controlsUpTo k r = k' - controlsUpTo k' r) : k = k' := by
  have hle := controlsUpTo_le hk
  have hle' := controlsUpTo_le hk'
  rcases Nat.lt_trichotomy k k' with hlt | rfl | hlt
  · have hplace := place_lt hk hk' hlt
    omega
  · rfl
  · have hplace := place_lt hk' hk hlt
    omega

/-- Every bit of the key has a place. -/
theorem exists_place (r m : ℕ) : ∃ k, ¬IsControl r k ∧ k - controlsUpTo k r = m := by
  induction r with
  | zero => exact ⟨m, fun ⟨_, hj, _⟩ ↦ absurd hj (Nat.not_lt_zero _), rfl⟩
  | succ r ih =>
    obtain ⟨k, hk, hm⟩ := ih
    rcases Nat.lt_or_ge (k + 1) (2 ^ r) with hlt | hge
    · refine ⟨k, not_isControl_succ.mpr ⟨hk, Nat.ne_of_lt hlt⟩, ?_⟩
      rw [controlsUpTo, if_neg (Nat.not_le.mpr hlt)]
      exact hm
    · have hnext : ¬IsControl (r + 1) (k + 1) := by
        rintro ⟨j, hj, heq⟩
        have hpow := Nat.pow_le_pow_right (Nat.zero_lt_two) (Nat.le_of_lt_succ hj)
        omega
      refine ⟨k + 1, hnext, ?_⟩
      rw [controlsUpTo_eq hge] at hm
      rw [controlsUpTo, controlsUpTo_eq (Nat.le_succ_of_le hge), if_pos (Nat.le_succ_of_le hge)]
      omega

/-- `long` is `short` with `r` bits inserted at the places of the control bits. -/
structure Spread (r : ℕ) (short long : List Bool) : Prop where
  length : long.length = short.length + r
  data : ∀ k, ¬IsControl r k → long[k]? = short[k - controlsUpTo k r]?

theorem Spread.zero (key : List Bool) : Spread 0 key key := ⟨rfl, fun _ _ ↦ rfl⟩

/-- Insertion of the next control bit. -/
theorem Spread.insertIdx {r : ℕ} {short long : List Bool} (h : Spread r short long)
    (hr : 2 ^ r ≤ long.length + 1) :
    Spread (r + 1) short (long.insertIdx (2 ^ r - 1) false) := by
  have hpos := Nat.two_pow_pos r
  constructor
  · rw [List.length_insertIdx, if_pos (by omega), h.length]
    omega
  · intro k hk
    obtain ⟨hold, hne⟩ := not_isControl_succ.mp hk
    rw [List.getElem?_insertIdx, controlsUpTo]
    rcases Nat.lt_or_ge (k + 1) (2 ^ r) with hlt | hge
    · rw [if_pos (by omega), if_neg (by omega)]
      exact h.data k hold
    · obtain ⟨k, rfl⟩ : ∃ m, k = m + 1 := ⟨k - 1, by omega⟩
      have hbefore : ¬IsControl r k := by
        rintro ⟨j, hj, heq⟩
        have hpow := Nat.pow_lt_pow_right (Nat.one_lt_two) hj
        omega
      rw [if_neg (by omega), if_neg (by omega), if_pos hge, controlsUpTo_eq hge,
        Nat.add_sub_cancel, h.data k hbefore, controlsUpTo_eq (by omega)]
      congr 1
      omega

/-- Erasure of the first control bit that is left. -/
theorem Spread.eraseIdx {r : ℕ} {short long : List Bool} (h : Spread r short long)
    (hr : 2 ^ r ≤ long.length) : Spread (r + 1) (short.eraseIdx (2 ^ r - 1 - r)) long := by
  have hpos := Nat.two_pow_pos r
  have hlt := Nat.lt_two_pow_self (n := r)
  constructor
  · have hlength := h.length
    rw [List.length_eraseIdx, if_pos (by omega)]
    omega
  · intro k hk
    obtain ⟨hold, hne⟩ := not_isControl_succ.mp hk
    rw [h.data k hold, List.getElem?_eraseIdx, controlsUpTo]
    rcases Nat.lt_or_ge (k + 1) (2 ^ r) with hbelow | hge
    · have hroom := lt_of_lt_two_pow hold hbelow
      have hle := controlsUpTo_le hold
      rw [if_neg (Nat.not_le.mpr hbelow), if_pos (by omega), Nat.add_zero]
    · rw [if_pos hge, controlsUpTo_eq hge, if_neg (by omega)]
      congr 1
      omega

/-- The data are what the control bits were inserted into, if nothing else was changed. -/
theorem Spread.eq_iff {r : ℕ} {short short' long long' : List Bool} (h : Spread r short long)
    (h' : Spread r short' long') :
    short = short' ↔ ∀ k, ¬IsControl r k → long[k]? = long'[k]? := by
  constructor
  · intro heq k hk
    rw [h.data k hk, h'.data k hk, heq]
  · intro hdata
    apply List.ext_getElem?
    intro m
    obtain ⟨k, hk, rfl⟩ := exists_place r m
    rw [← h.data k hk, ← h'.data k hk, hdata k hk]

/-! ## What the loops do -/

/-- The vector with control bits. -/
structure Inserted (key word : List Bool) : Prop where
  spread : Spread (controlCount key.length) key word
  control : ∀ k, IsControl (controlCount key.length) k → word[k]? = some false

theorem insertControlFuel_spec (key : List Bool) :
    Inserted key (insertControlFuel key.length 0 key) := by
  have hfuel (fuel i : ℕ) (word : List Bool) (hspread : Spread i key word)
      (hcontrol : ∀ k, IsControl i k → word[k]? = some false) :
      Spread (controlCountFuel key.length fuel i) key (insertControlFuel fuel i word) ∧
        ∀ k, IsControl (controlCountFuel key.length fuel i) k →
          (insertControlFuel fuel i word)[k]? = some false := by
    induction fuel generalizing i word with
    | zero => exact ⟨hspread, hcontrol⟩
    | succ fuel ih =>
      rw [insertControlFuel, controlCountFuel, hspread.length]
      split_ifs with hnext
      · have hle : 2 ^ i ≤ word.length + 1 := by
          rw [hspread.length]
          omega
        apply ih _ _ (hspread.insertIdx hle)
        rintro k ⟨j, hj, heq⟩
        have hpos := Nat.two_pow_pos i
        rw [List.getElem?_insertIdx]
        rcases Nat.lt_succ_iff_lt_or_eq.mp hj with hlt | rfl
        · have hpow := Nat.pow_lt_pow_right Nat.one_lt_two hlt
          rw [if_pos (by omega)]
          exact hcontrol k ⟨j, hlt, heq⟩
        · rw [if_neg (by omega), if_pos (by omega), if_pos (by omega)]
      · exact ⟨hspread, hcontrol⟩
  obtain ⟨hspread, hcontrol⟩ := hfuel key.length 0 key (Spread.zero key)
    fun k ⟨j, hj, _⟩ ↦ absurd hj (Nat.not_lt_zero j)
  exact ⟨hspread, hcontrol⟩

/-- The bits of a vector, zero behind it. -/
def bit (word : List Bool) (k : ℕ) : Bool := word.getD k false

theorem Spread.bit_eq {r : ℕ} {short long : List Bool} (h : Spread r short long) {k : ℕ}
    (hk : ¬IsControl r k) : bit long k = bit short (k - controlsUpTo k r) := by
  rw [bit, bit, List.getD_eq_getElem?_getD, List.getD_eq_getElem?_getD, h.data k hk]

theorem Spread.lt_iff {r : ℕ} {short long : List Bool} (h : Spread r short long) {k : ℕ}
    (hk : ¬IsControl r k) : k < long.length ↔ k - controlsUpTo k r < short.length := by
  rw [← not_iff_not, Nat.not_lt, Nat.not_lt, ← List.getElem?_eq_none_iff,
    ← List.getElem?_eq_none_iff, h.data k hk]

theorem Inserted.bit_eq_false {key word : List Bool} (h : Inserted key word) {k : ℕ}
    (hk : IsControl (controlCount key.length) k) : bit word k = false := by
  rw [bit, List.getD_eq_getElem?_getD, h.control k hk]
  rfl

/-- The loop erases all control bits if the key is long enough. -/
theorem eraseControl_spread {n : ℕ} {word : List Bool} (hlength : word.length = n + controlCount n)
    (hlong : 2 ^ controlCount n / 2 ≤ n) :
    Spread (controlCount n) (eraseControl word) word := by
  have hfuel (fuel i : ℕ) (key : List Bool) (hspread : Spread i key word)
      (hi : i ≤ controlCount n) (henough : controlCount n ≤ i + fuel) :
      Spread (controlCount n) (eraseControlFuel fuel i key) word := by
    induction fuel generalizing i key with
    | zero =>
      have heq : controlCount n = i := by omega
      rw [heq]
      exact hspread
    | succ fuel ih =>
      have hsize := hspread.length
      rw [eraseControlFuel]
      rcases Nat.lt_or_eq_of_le hi with hlt | rfl
      · have hpow : 2 ^ i ≤ 2 ^ controlCount n / 2 := by
          rw [Nat.le_div_iff_mul_le (by decide), ← Nat.pow_succ]
          exact Nat.pow_le_pow_right (by decide) hlt
        rw [if_pos (by omega)]
        exact ih _ _ (hspread.eraseIdx (by omega)) hlt (by omega)
      · have hle := (controlCount_spec n).2
        rw [if_neg (by omega)]
        exact hspread
  exact hfuel word.length 0 word (Spread.zero word) (Nat.zero_le _) (by omega)

/-- It leaves the last control bit if not. -/
theorem lt_length_eraseControl {n : ℕ} {word : List Bool}
    (hlength : word.length = n + controlCount n) (hshort : n < 2 ^ controlCount n / 2) :
    n < (eraseControl word).length := by
  have hfuel (fuel i : ℕ) (key : List Bool) (hsize : word.length = key.length + i)
      (hi : i < controlCount n) : n < (eraseControlFuel fuel i key).length := by
    induction fuel generalizing i key with
    | zero =>
      rw [eraseControlFuel]
      omega
    | succ fuel ih =>
      rw [eraseControlFuel]
      split_ifs with hnext
      · have hlast : i + 1 ≠ controlCount n := by
          intro heq
          rw [← heq, Nat.pow_succ] at hshort
          omega
        apply ih _ _ _ (by omega)
        rw [List.length_eraseIdx, if_pos (by omega)]
        omega
      · omega
  have hpos : 0 < controlCount n := by
    rcases Nat.eq_zero_or_pos (controlCount n) with hzero | hpos
    · rw [hzero] at hshort
      exact absurd hshort (Nat.not_lt_zero n)
    · exact hpos
  exact hfuel word.length 0 word rfl hpos

/-- The parity for a control bit, with the bit behind the vector where the loop reads it. -/
def parityBit (behind : Bool) (word : List Bool) (st : ℕ) : Bool :=
  check word.length (bit word) st ^^ ((word.length &&& (word.length + 1)).testBit st && behind)

/-- The ones that a control bit counts, without the one behind the vector. -/
def counted (word : List Bool) (st k : ℕ) : Bool :=
  (k + 1).testBit st && (k < word.length && bit word k)

/-- A block that starts within the vector: its bits, and the bit behind the vector if it is long
enough. -/
theorem blockOnes_bodd (behind : Bool) (word : List Bool) {st i t : ℕ}
    (hi : i + 1 = 2 ^ st * (2 * t + 1)) (hlt : i < word.length) :
    (blockOnes behind word st i).bodd =
      (parity (fun j ↦ counted word st (i + j)) (2 ^ st) ^^
        (word.length < i + 2 ^ st && behind)) := by
  have hblock (j : ℕ) (hj : j < 2 ^ st) :
      (decide (j + i ≤ word.length) && word.getD (i + j) behind) =
        (counted word st (i + j) ^^ (i + j = word.length && behind)) := by
    have hbit : (i + j + 1).testBit st = true := by
      have hsum : i + j + 1 = 2 ^ st * (2 * t + 1) + j := by omega
      rw [hsum, testBit_block _ hj, decide_eq_true_eq]
      omega
    rw [counted, hbit, Bool.true_and, bit]
    rcases Nat.lt_trichotomy (i + j) word.length with hinside | heq | houtside
    · rw [List.getD_eq_getElem _ _ hinside, List.getD_eq_getElem _ _ hinside,
        decide_eq_true hinside, decide_eq_false (Nat.ne_of_lt hinside),
        decide_eq_true (show j + i ≤ word.length by omega)]
      simp
    · rw [List.getD_eq_default _ _ (Nat.le_of_eq heq.symm), heq,
        decide_eq_true (show j + i ≤ word.length by omega)]
      simp
    · rw [decide_eq_false (show ¬j + i ≤ word.length by omega),
        decide_eq_false (Nat.lt_asymm houtside), decide_eq_false (Nat.ne_of_gt houtside)]
      simp
  have hlast : parity (fun j ↦ i + j = word.length && behind) (2 ^ st) =
      (word.length < i + 2 ^ st && behind) := by
    by_cases hlong : word.length < i + 2 ^ st
    · have hzero (j : ℕ) (_ : j < 2 ^ st) (hne : j ≠ word.length - i) :
          (decide (i + j = word.length) && behind) = false := by
        rw [decide_eq_false (by omega), Bool.false_and]
      rw [parity_single (show word.length - i < 2 ^ st by omega) hzero, decide_eq_true hlong,
        decide_eq_true (by omega)]
    · rw [decide_eq_false hlong, Bool.false_and]
      apply parity_eq_false
      intro j hj
      rw [decide_eq_false (by omega), Bool.false_and]
  rw [blockOnes, bodd_countP_range, parity_congr hblock, parity_xor, hlast]

/-- The bit behind the vector is counted if it is in a block that starts before it. -/
theorem testBit_size (size : ℕ) {st i t : ℕ} (hi : i + 1 = 2 ^ st * (2 * t + 1)) :
    (i < size → size < i + 2 ^ st → (size &&& (size + 1)).testBit st = true) ∧
      (i + 2 ^ st ≤ size → size < i + 2 * 2 ^ st → (size &&& (size + 1)).testBit st = false) ∧
      (size = i → (size &&& (size + 1)).testBit st = false) := by
  have hpos := Nat.two_pow_pos st
  refine ⟨fun hlt hin ↦ ?_, fun hge hgap ↦ ?_, fun heq ↦ ?_⟩
  · have hsize : size = 2 ^ st * (2 * t + 1) + (size - (i + 1)) := by omega
    have hnext : size + 1 = 2 ^ st * (2 * t + 1) + (size - i) := by omega
    rw [Nat.testBit_and, hnext, testBit_block _ (by omega), hsize, testBit_block _ (by omega)]
    rw [Bool.and_self, decide_eq_true_eq]
    omega
  · have hnext : size + 1 = 2 ^ st * (2 * t + 2) + (size - (i + 2 ^ st)) := by
      have hmul : 2 ^ st * (2 * t + 2) = 2 ^ st * (2 * t + 1) + 2 ^ st := Nat.mul_succ _ _
      omega
    rw [Nat.testBit_and, hnext, testBit_block _ (by omega), Bool.and_eq_false_iff,
      decide_eq_false_iff_not]
    omega
  · have hsize : size = 2 ^ st * (2 * t) + (2 ^ st - 1) := by
      have hmul : 2 ^ st * (2 * t + 1) = 2 ^ st * (2 * t) + 2 ^ st := Nat.mul_succ _ _
      omega
    rw [Nat.testBit_and, hsize, testBit_block _ (by omega), Bool.and_eq_false_iff,
      decide_eq_false_iff_not]
    omega

/-- The start of the next block. -/
theorem next_block {st i t : ℕ} (hi : i + 1 = 2 ^ st * (2 * t + 1)) :
    i + 2 * 2 ^ st + 1 = 2 ^ st * (2 * (t + 1) + 1) := by
  have hmul : 2 ^ st * (2 * (t + 1) + 1) = 2 ^ st * (2 * t + 1) + 2 ^ st * 2 :=
    Nat.mul_add _ (2 * t + 1) 2
  omega

theorem parity_counted_of_le {word : List Bool} (st : ℕ) {i : ℕ} (h : word.length ≤ i) :
    parity (counted word st) i = parity (counted word st) word.length := by
  obtain ⟨m, rfl⟩ := Nat.exists_eq_add_of_le h
  have hzero : parity (fun k ↦ counted word st (word.length + k)) m = false := by
    apply parity_eq_false
    intro k _
    rw [counted, decide_eq_false (by omega), Bool.false_and, Bool.and_false]
  rw [parity_add, hzero, Bool.xor_false]

/-- Between two blocks nothing is counted. -/
theorem parity_counted_next {word : List Bool} {st i t : ℕ}
    (hi : i + 1 = 2 ^ st * (2 * t + 1)) :
    parity (counted word st) (i + 2 * 2 ^ st) =
      (parity (counted word st) i ^^ parity (fun j ↦ counted word st (i + j)) (2 ^ st)) := by
  have hgap : parity (fun j ↦ counted word st (i + 2 ^ st + j)) (2 ^ st) = false := by
    apply parity_eq_false
    intro j hj
    have hsum : i + 2 ^ st + j + 1 = 2 ^ st * (2 * t + 2) + j := by
      have hmul : 2 ^ st * (2 * t + 2) = 2 ^ st * (2 * t + 1) + 2 ^ st := Nat.mul_succ _ _
      omega
    rw [counted, hsum, testBit_block _ hj, decide_eq_false (by omega), Bool.false_and]
  rw [Nat.two_mul, ← Nat.add_assoc, parity_add, parity_add, hgap, Bool.xor_false]

/-- What the blocks from `i` on count: the rest of the parity, and the bit behind the vector if a
block that is still to come reads it. -/
def restParity (behind : Bool) (word : List Bool) (st i : ℕ) : Bool :=
  parity (counted word st) word.length ^^ parity (counted word st) i ^^
    (i ≤ word.length && ((word.length &&& (word.length + 1)).testBit st && behind))

theorem restParity_of_le (behind : Bool) {word : List Bool} {st i t : ℕ}
    (hi : i + 1 = 2 ^ st * (2 * t + 1)) (hge : word.length ≤ i) :
    restParity behind word st i = false := by
  rw [restParity, parity_counted_of_le st hge, Bool.xor_self, Bool.false_xor]
  rcases Nat.lt_or_eq_of_le hge with hlt | heq
  · rw [decide_eq_false (Nat.not_le.mpr hlt), Bool.false_and]
  · rw [(testBit_size word.length hi).2.2 heq, Bool.false_and, Bool.and_false]

/-- The bit behind the vector is in the block at `i`, in the gap behind the block, or further on. -/
theorem behind_split (behind : Bool) {size st i t : ℕ} (hi : i + 1 = 2 ^ st * (2 * t + 1))
    (hlt : i < size) :
    ((size < i + 2 ^ st && behind) ^^
        (i + 2 * 2 ^ st ≤ size && ((size &&& (size + 1)).testBit st && behind))) =
      ((size &&& (size + 1)).testBit st && behind) := by
  obtain ⟨hin, hgap, _⟩ := testBit_size size hi
  rcases Nat.lt_or_ge size (i + 2 ^ st) with hblock | hblock
  · rw [hin hlt hblock, decide_eq_true hblock,
      decide_eq_false (show ¬i + 2 * 2 ^ st ≤ size by omega), Bool.false_and, Bool.xor_false]
  · rw [decide_eq_false (Nat.not_lt.mpr hblock), Bool.false_and, Bool.false_xor]
    rcases Nat.lt_or_ge size (i + 2 * 2 ^ st) with hlast | hlast
    · rw [hgap hblock hlast, Bool.false_and, Bool.and_false]
    · rw [decide_eq_true hlast, Bool.true_and]

/-- One block and the blocks behind it. -/
theorem restParity_next (behind : Bool) {word : List Bool} {st i t : ℕ}
    (hi : i + 1 = 2 ^ st * (2 * t + 1)) (hlt : i < word.length) :
    restParity behind word st i =
      (parity (fun j ↦ counted word st (i + j)) (2 ^ st) ^^
        (word.length < i + 2 ^ st && behind) ^^ restParity behind word st (i + 2 * 2 ^ st)) := by
  have hxor : ∀ block first all before extra : Bool, (all ^^ before ^^ (first ^^ extra)) =
      (block ^^ first ^^ (all ^^ (before ^^ block) ^^ extra)) := by
    decide
  rw [restParity, restParity, parity_counted_next hi, decide_eq_true (Nat.le_of_lt hlt),
    Bool.true_and]
  nth_rewrite 1 [← behind_split behind hi hlt]
  exact hxor _ _ _ _ _

theorem counterFuel_bodd (behind : Bool) {word : List Bool} (hword : word ≠ []) {st fuel i t : ℕ}
    (hi : i + 1 = 2 ^ st * (2 * t + 1)) (henough : word.length ≤ i + fuel) :
    (counterFuel behind word st fuel i).bodd = restParity behind word st i := by
  have hpos := Nat.two_pow_pos st
  have hsize := List.length_pos_iff.mpr hword
  induction fuel generalizing i t with
  | zero =>
    rw [restParity_of_le behind hi henough, counterFuel, Nat.bodd_zero]
  | succ fuel ih =>
    rw [counterFuel]
    split_ifs with hnext
    · have hlt : i < word.length := by omega
      have hi' := next_block hi
      rw [Nat.bodd_add, blockOnes_bodd behind word hi hlt, ih hi' (by omega),
        restParity_next behind hi hlt]
    · rw [restParity_of_le behind hi (by omega), Nat.bodd_zero]

theorem counter_bodd (behind : Bool) {word : List Bool} (hword : word ≠ []) (st : ℕ) :
    (counter behind word st).bodd = parityBit behind word st := by
  have hpos := Nat.two_pow_pos st
  have hstart : 2 ^ st - 1 + 1 = 2 ^ st * (2 * 0 + 1) := by omega
  have hall : parity (counted word st) word.length = check word.length (bit word) st := by
    apply parity_congr
    intro k hk
    rw [counted, decide_eq_true hk, Bool.true_and]
  have hnone : parity (counted word st) (2 ^ st - 1) = false := by
    apply parity_eq_false
    intro k hk
    rw [counted, Nat.testBit_lt_two_pow (by omega), Bool.false_and]
  rw [counter, counterFuel_bodd behind hword hstart (by omega), restParity, hall, hnone,
    Bool.xor_false, parityBit]
  congr 1
  by_cases hle : 2 ^ st - 1 ≤ word.length
  · rw [decide_eq_true hle, Bool.true_and]
  · rw [decide_eq_false hle, Bool.false_and, Nat.testBit_and,
      Nat.testBit_lt_two_pow (show word.length + 1 < 2 ^ st by omega), Bool.and_false,
      Bool.false_and]

/-- `after` is `before` with the control bits from `2 ^ st` on set to their parities. -/
structure SetFrom (behind : Bool) (st : ℕ) (before after : List Bool) : Prop where
  length : after.length = before.length
  other : ∀ k, (∀ j, st ≤ j → k + 1 ≠ 2 ^ j) → bit after k = bit before k
  control : ∀ j, st ≤ j → 2 ^ j ≤ before.length →
    bit after (2 ^ j - 1) = (bit before (2 ^ j - 1) || parityBit behind before j)

theorem bit_set {word : List Bool} {i k : ℕ} (hi : i < word.length) :
    bit (word.set i true) k = if i = k then true else bit word k := by
  rw [bit, bit, List.getD_eq_getElem?_getD, List.getD_eq_getElem?_getD, List.getElem?_set]
  split_ifs <;> rfl

/-- One round of the loop. -/
theorem SetFrom.step {behind : Bool} {st : ℕ} {word after : List Bool} (hword : word ≠ [])
    (hst : 2 ^ st ≤ word.length)
    (h : SetFrom behind (st + 1)
      (if counter behind word st % 2 ≠ 0 then word.set (2 ^ st - 1) true else word) after) :
    SetFrom behind st word after := by
  have hpos := Nat.two_pow_pos st
  generalize hnext : (if counter behind word st % 2 ≠ 0 then word.set (2 ^ st - 1) true
    else word) = next at h
  have hlength : next.length = word.length := by
    rw [← hnext]
    split_ifs
    · exact List.length_set
    · rfl
  have hother (k : ℕ) (hk : k + 1 ≠ 2 ^ st) : bit next k = bit word k := by
    rw [← hnext]
    split_ifs
    · rw [bit_set (by omega), if_neg (by omega)]
    · rfl
  have hown : bit next (2 ^ st - 1) = (bit word (2 ^ st - 1) || parityBit behind word st) := by
    have hmod := Nat.mod_two_of_bodd (counter behind word st)
    rw [counter_bodd behind hword] at hmod
    rw [← hnext, hmod]
    cases parityBit behind word st with
    | false => exact (Bool.or_false _).symm
    | true =>
      rw [if_pos (by decide), bit_set (by omega), if_pos rfl, Bool.or_true]
  have hparity (j : ℕ) (hj : st < j) : parityBit behind next j = parityBit behind word j := by
    have hcheck : check word.length (bit next) j = check word.length (bit word) j := by
      apply check_congr
      intro k _ hbit
      apply hother
      intro heq
      rw [heq, Nat.testBit_two_pow_of_ne (Nat.ne_of_lt hj)] at hbit
      exact absurd hbit Bool.false_ne_true
    rw [parityBit, parityBit, hlength, hcheck]
  refine ⟨h.length.trans hlength, fun k hk ↦ ?_, fun j hj hle ↦ ?_⟩
  · rw [h.other k fun j hj ↦ hk j (Nat.le_of_succ_le hj), hother k (hk st (Nat.le_refl st))]
  · rcases Nat.lt_or_eq_of_le hj with hlt | rfl
    · have hne := Nat.pow_lt_pow_right Nat.one_lt_two hlt
      rw [h.control j hlt (hlength ▸ hle), hparity j hlt, hother _ (by omega)]
    · rw [h.other _ (fun i hi ↦ ?_), hown]
      have hne := Nat.pow_lt_pow_right Nat.one_lt_two hi
      omega

theorem setControl_spec (behind : Bool) {word : List Bool} (hword : word ≠ []) :
    SetFrom behind 0 word (setControl behind word) := by
  have hfuel (fuel st : ℕ) (word : List Bool) (hword : word ≠ [])
      (henough : word.length < 2 ^ (st + fuel)) :
      SetFrom behind st word (setControlFuel behind fuel st word) := by
    induction fuel generalizing st word with
    | zero =>
      refine ⟨rfl, fun _ _ ↦ rfl, fun j hj hle ↦ ?_⟩
      have hpow := Nat.pow_le_pow_right Nat.zero_lt_two hj
      rw [Nat.add_zero] at henough
      omega
    | succ fuel ih =>
      rw [setControlFuel]
      by_cases hst : 2 ^ st ≤ word.length
      · rw [if_pos hst]
        apply SetFrom.step hword hst
        apply ih
        · split_ifs
          · exact mt (List.set_eq_nil_iff _ _).mp hword
          · exact hword
        · have hsum : st + 1 + fuel = st + (fuel + 1) := by omega
          rw [hsum]
          split_ifs
          · rwa [List.length_set]
          · exact henough
      · rw [if_neg hst]
        refine ⟨rfl, fun _ _ ↦ rfl, fun j hj hle ↦ ?_⟩
        have hpow := Nat.pow_le_pow_right Nat.zero_lt_two hj
        omega
  apply hfuel word.length 0 word hword
  rw [Nat.zero_add]
  exact Nat.lt_two_pow_self

/-- The control bits that are put out. -/
theorem controlBits_eq {r : ℕ} {word : List Bool} (hr : ∀ i, 2 ^ i < word.length ↔ i < r) :
    controlBits word = (List.range r).map fun i ↦ bit word (2 ^ i - 1) := by
  have hfuel (fuel i : ℕ) (hi : i ≤ r) (henough : r ≤ i + fuel) :
      controlBitsFuel word fuel i = (List.range' i (r - i)).map fun i ↦ bit word (2 ^ i - 1) := by
    induction fuel generalizing i with
    | zero =>
      have hzero : r - i = 0 := by omega
      rw [hzero]
      rfl
    | succ fuel ih =>
      rw [controlBitsFuel]
      rcases Nat.lt_or_eq_of_le hi with hlt | rfl
      · obtain ⟨m, hm⟩ : ∃ m, r - i = m + 1 := ⟨r - i - 1, by omega⟩
        have hrest : r - (i + 1) = m := by omega
        rw [if_pos ((hr i).mpr hlt), ih (i + 1) hlt (by omega), hm, hrest, List.range'_succ]
        rfl
      · rw [if_neg (mt (hr i).mp (Nat.lt_irrefl i)), Nat.sub_self]
        rfl
  have henough : r ≤ 0 + word.length := by
    rw [Nat.zero_add]
    by_contra hlt
    have hpow := (hr _).mpr (Nat.not_le.mp hlt)
    exact absurd hpow (Nat.not_lt.mpr (Nat.le_of_lt Nat.lt_two_pow_self))
  rw [controlBits, hfuel word.length 0 (Nat.zero_le r) henough, Nat.sub_zero,
    List.range_eq_range']

end QNet.Kks
