import QNet.Kks.HammingDecode

/-!
# When the Hamming routines stay within their vectors

The routines once more, with every element access, insertion and erasure checked against the vector
as it is then, and every loop against its rounds. Where the checked routines have a result it is
the one of the plain routines, whatever stands behind the vector.

The parity loop reads behind the vector unless the vector with control bits has one bit less than a
power of two. For these lengths nothing else goes wrong either, whatever control bits are received:
`safe_iff`.
-/

namespace QNet.Kks

open Parity

namespace Checked

/-! ## The checked routines -/

/-- `pw << i`. A shift by 32 is undefined. -/
def pw (i : ℕ) : Option ℕ := if i < 32 then some (2 ^ i) else none

/-- `key.insert(key.begin() + k, 0)`. -/
def insert (key : List Bool) (k : ℕ) : Option (List Bool) :=
  if k ≤ key.length then some (key.insertIdx k false) else none

/-- `key.erase(key.begin() + k)`. -/
def erase (key : List Bool) (k : ℕ) : Option (List Bool) :=
  if k < key.length then some (key.eraseIdx k) else none

/-- `key[k] = b`. -/
def assign (key : List Bool) (k : ℕ) (b : Bool) : Option (List Bool) :=
  if k < key.length then some (key.set k b) else none

/-- A loop that is still running when the fuel is used up has no result. -/
def insertControlFuel : ℕ → ℕ → List Bool → Option (List Bool)
  | 0, _, _ => none
  | fuel + 1, i, key => do
      let pw ← pw i
      if pw < key.length then
        let key ← insert key (pw - 1)
        insertControlFuel fuel (i + 1) key
      else some key

def insertControl (key : List Bool) : Option (List Bool) :=
  insertControlFuel (key.length + 1) 0 key

def blockOnes (key : List Bool) (st i : ℕ) : Option ℕ :=
  (((List.range (2 ^ st)).filter (· + i ≤ key.length)).mapM fun j ↦ key[i + j]?).map (·.count true)

def counterFuel (key : List Bool) (st : ℕ) : ℕ → ℕ → Option ℕ
  | 0, _ => none
  | fuel + 1, i =>
      if i ≤ key.length - 1 then do
        let ones ← blockOnes key st i
        let rest ← counterFuel key st fuel (i + 2 * 2 ^ st)
        some (ones + rest)
      else some 0

def counter (key : List Bool) (st : ℕ) : Option ℕ :=
  counterFuel key st (key.length + 1) (2 ^ st - 1)

def setParity (key : List Bool) (pw counter : ℕ) : Option (List Bool) :=
  if counter % 2 ≠ 0 then assign key (pw - 1) true else some key

def setControlFuel : ℕ → ℕ → List Bool → Option (List Bool)
  | 0, _, _ => none
  | fuel + 1, st, key => do
      let pw ← pw st
      if pw ≤ key.length then
        let counter ← counter key st
        let key ← setParity key pw counter
        setControlFuel fuel (st + 1) key
      else some key

def setControl (key : List Bool) : Option (List Bool) := setControlFuel (key.length + 1) 0 key

def controlBitsFuel (key : List Bool) : ℕ → ℕ → Option (List Bool)
  | 0, _ => none
  | fuel + 1, i => do
      let pw ← pw i
      if pw < key.length then
        let b ← key[pw - 1]?
        let rest ← controlBitsFuel key fuel (i + 1)
        some (b :: rest)
      else some []

def controlBits (key : List Bool) : Option (List Bool) := controlBitsFuel key (key.length + 1) 0

def hammingCode (key : List Bool) : Option (List Bool) := do
  let key ← insertControl key
  let key ← setControl key
  controlBits key

/-- `pos` after the first control bits. -/
def errorPosFuel (input output : List Bool) : ℕ → Option ℕ
  | 0 => some 0
  | i + 1 => do
      let pos ← errorPosFuel input output i
      let b ← input[i]?
      let b' ← output[i]?
      let pw ← pw i
      some (if b ≠ b' then pos + pw else pos)

def errorPos (input output : List Bool) : Option ℕ := errorPosFuel input output input.length

def invertAt (key : List Bool) (pos : ℕ) : Option (List Bool) :=
  if pos ≠ 0 then do
    let b ← key[pos - 1]?
    assign key (pos - 1) !b
  else some key

def eraseControlFuel : ℕ → ℕ → List Bool → Option (List Bool)
  | 0, _, _ => none
  | fuel + 1, i, key => do
      let pw ← pw i
      if pw < key.length then
        let key ← erase key (pw - 1 - i)
        eraseControlFuel fuel (i + 1) key
      else some key

def eraseControl (key : List Bool) : Option (List Bool) := eraseControlFuel (key.length + 1) 0 key

def hammingDecode (key input : List Bool) : Option (List Bool) := do
  let key ← insertControl key
  let key ← setControl key
  let output ← controlBits key
  let pos ← errorPos input output
  let key ← invertAt key pos
  eraseControl key

/-- Both routines stay within their vectors and end, and the decoded key is as long as the other,
whatever control bits are received. -/
def Safe (key : List Bool) : Prop :=
  ∃ cbits, hammingCode key = some cbits ∧ ∀ input : List Bool, input.length = cbits.length →
    ∃ decoded, hammingDecode key input = some decoded ∧ decoded.length = key.length

/-! ## The loops -/

theorem pw_of_lt {i : ℕ} (h : i < 32) : pw i = some (2 ^ i) := if_pos h

theorem bind_pw {β : Type} {i : ℕ} (h : i < 32) (next : ℕ → Option β) :
    (pw i >>= next) = next (2 ^ i) := by
  rw [pw_of_lt h]
  rfl

theorem pw_eq_some_iff {i power : ℕ} : pw i = some power ↔ i < 32 ∧ 2 ^ i = power := by
  rw [pw, Option.ite_none_right_eq_some, Option.some_inj]

/-- The next power has a meaning if this one is not behind a vector of less than `2 ^ 31` bits. -/
theorem succ_lt_of_two_pow_le {i size : ℕ} (hle : 2 ^ i ≤ size) (hsize : size < 2 ^ 31) :
    i + 1 < 32 :=
  Nat.succ_lt_succ ((Nat.pow_lt_pow_iff_right Nat.one_lt_two).mp (Nat.lt_of_le_of_lt hle hsize))

theorem mapM_getElem? {α : Type*} (xs : List α) (d : α) (i : ℕ) (js : List ℕ) :
    (js.mapM fun j ↦ xs[i + j]?) =
      if ∀ j ∈ js, i + j < xs.length then some (js.map fun j ↦ xs.getD (i + j) d) else none := by
  induction js with
  | nil => rfl
  | cons j js ih =>
    rw [List.mapM_cons, ih]
    by_cases hj : i + j < xs.length
    · have hcons : (∀ k ∈ j :: js, i + k < xs.length) ↔ ∀ k ∈ js, i + k < xs.length := by
        rw [List.forall_mem_cons, and_iff_right hj]
      rw [List.getElem?_eq_getElem hj, List.map_cons, List.getD_eq_getElem _ _ hj]
      simp only [hcons]
      split_ifs <;> rfl
    · rw [List.getElem?_eq_none (Nat.not_lt.mp hj)]
      exact (if_neg fun h ↦ hj (h j List.mem_cons_self)).symm

/-- A block must not reach over the end of the vector. -/
theorem blockOnes_eq (behind : Bool) (key : List Bool) (st i : ℕ) :
    blockOnes key st i =
      if i ≤ key.length → i + 2 ^ st ≤ key.length then some (Kks.blockOnes behind key st i)
      else none := by
  have hinside : (∀ j ∈ (List.range (2 ^ st)).filter (· + i ≤ key.length), i + j < key.length) ↔
      (i ≤ key.length → i + 2 ^ st ≤ key.length) := by
    simp only [List.mem_filter, List.mem_range, decide_eq_true_eq, and_imp]
    constructor
    · intro h hi
      by_contra hover
      have hend := h (key.length - i) (by omega) (by omega)
      omega
    · intro h j hj hle
      have hend := h (by omega)
      omega
  rw [blockOnes, mapM_getElem? key behind]
  simp only [hinside]
  split_ifs
  · rw [Option.map_some, List.count_eq_countP, List.countP_map, List.countP_filter, Kks.blockOnes]
    congr 2
    funext j
    rw [Function.comp_apply, Bool.and_comm, beq_true]
  · rfl

/-- The blocks of a control bit stay within the vector if none of them is cut off by its end. -/
theorem counterFuel_eq_some (behind : Bool) {key : List Bool} (hkey : key ≠ []) {st fuel i t : ℕ}
    (hbit : (key.length &&& (key.length + 1)).testBit st = false)
    (hi : i + 1 = 2 ^ st * (2 * t + 1)) (henough : key.length ≤ i + fuel) :
    counterFuel key st (fuel + 1) i = some (Kks.counterFuel behind key st fuel i) := by
  have hsize := List.length_pos_iff.mpr hkey
  have hpos := Nat.two_pow_pos st
  induction fuel generalizing i t with
  | zero => rw [counterFuel, Kks.counterFuel, if_neg (by omega)]
  | succ fuel ih =>
    rw [counterFuel, Kks.counterFuel]
    split_ifs with hnext
    · have hblock : i + 2 ^ st ≤ key.length := by
        by_contra hover
        have hcut := (testBit_size key.length hi).1 (by omega) (by omega)
        exact absurd (hbit.symm.trans hcut) Bool.false_ne_true
      have hi' := next_block hi
      rw [blockOnes_eq behind, if_pos fun _ ↦ hblock, ih hi' (by omega)]
      rfl
    · rfl

theorem counterFuel_eq_none {key : List Bool} {st fuel i t : ℕ}
    (hbit : (key.length &&& (key.length + 1)).testBit st = true)
    (hi : i + 1 = 2 ^ st * (2 * t + 1)) (hlt : i < key.length) :
    counterFuel key st fuel i = none := by
  induction fuel generalizing i t with
  | zero => rfl
  | succ fuel ih =>
    obtain ⟨_, hgap, hend⟩ := testBit_size key.length hi
    rw [counterFuel, if_pos (Nat.le_sub_one_of_lt hlt), blockOnes_eq false]
    split_ifs with hblock
    · -- The end is in a later block, as it is neither in this one nor in a gap.
      have hi' := next_block hi
      have hlater : i + 2 * 2 ^ st < key.length := by
        have hnot : ¬ key.length < i + 2 * 2 ^ st := by
          intro hcut
          rw [hgap (hblock (by omega)) hcut] at hbit
          exact absurd hbit Bool.false_ne_true
        have hne : key.length ≠ i + 2 * 2 ^ st := by
          intro heq
          rw [(testBit_size key.length hi').2.2 heq] at hbit
          exact absurd hbit Bool.false_ne_true
        omega
      rw [ih hi' hlater]
      rfl
    · rfl

theorem counter_eq (behind : Bool) {key : List Bool} {st : ℕ} (hst : 2 ^ st ≤ key.length) :
    counter key st = if (key.length &&& (key.length + 1)).testBit st then none
      else some (Kks.counter behind key st) := by
  have hpos := Nat.two_pow_pos st
  have hstart : 2 ^ st - 1 + 1 = 2 ^ st * (2 * 0 + 1) := by omega
  split_ifs with hbit
  · exact counterFuel_eq_none hbit hstart (by omega)
  · have hkey : key ≠ [] := by
      rw [← List.length_pos_iff]
      omega
    exact counterFuel_eq_some behind hkey (Bool.eq_false_iff.mpr hbit) hstart (by omega)

/-- A parity is set within the vector. -/
theorem setParity_eq {key : List Bool} {st : ℕ} (hst : 2 ^ st ≤ key.length) (counter : ℕ) :
    setParity key (2 ^ st) counter =
      some (if counter % 2 ≠ 0 then key.set (2 ^ st - 1) true else key) := by
  have hpos := Nat.two_pow_pos st
  rw [setParity]
  split_ifs
  · exact if_pos (by omega)
  · rfl

theorem length_set_ite (p : Prop) [Decidable p] (key : List Bool) (k : ℕ) :
    (if p then key.set k true else key).length = key.length := by
  split_ifs
  · exact List.length_set
  · rfl

/-- The lengths for which the parity loop has a result. -/
def InRange (size : ℕ) : Prop := size < 2 ^ 31 ∧ size &&& (size + 1) = 0

theorem setControl_eq_some (behind : Bool) {key : List Bool} (h : InRange key.length) :
    setControl key = some (Kks.setControl behind key) := by
  have hfuel (fuel st : ℕ) (key : List Bool) (h : InRange key.length) (hst : st < 32)
      (henough : key.length < 2 ^ (st + fuel)) :
      setControlFuel (fuel + 1) st key = some (Kks.setControlFuel behind fuel st key) := by
    induction fuel generalizing st key with
    | zero =>
      rw [Nat.add_zero] at henough
      rw [setControlFuel, bind_pw hst, if_neg (Nat.not_le.mpr henough), Kks.setControlFuel]
    | succ fuel ih =>
      rw [setControlFuel, bind_pw hst, Kks.setControlFuel]
      by_cases hle : 2 ^ st ≤ key.length
      · have hbit : ¬ (key.length &&& (key.length + 1)).testBit st = true := by
          rw [h.2, Nat.zero_testBit]
          exact Bool.false_ne_true
        have hlength := length_set_ite (Kks.counter behind key st % 2 ≠ 0) key (2 ^ st - 1)
        have hsum : st + 1 + fuel = st + (fuel + 1) := by omega
        rw [if_pos hle, if_pos hle, counter_eq behind hle, if_neg hbit, Option.bind_eq_bind,
          Option.bind_some, setParity_eq hle, Option.bind_eq_bind, Option.bind_some]
        apply ih
        · rwa [hlength]
        · exact succ_lt_of_two_pow_le hle h.1
        · rwa [hlength, hsum]
      · rw [if_neg hle, if_neg hle]
  apply hfuel key.length 0 key h (by decide)
  rw [Nat.zero_add]
  exact Nat.lt_two_pow_self

theorem inRange_of_setControl {key word : List Bool} (h : setControl key = some word) :
    InRange key.length := by
  have hfuel (fuel st : ℕ) (key : List Bool) (h : setControlFuel fuel st key = some word) :
      key.length < 2 ^ 31 ∧ ∀ j ≥ st, (key.length &&& (key.length + 1)).testBit j = false := by
    induction fuel generalizing st key with
    | zero => cases h
    | succ fuel ih =>
      rw [setControlFuel] at h
      obtain ⟨power, hpower, h⟩ := Option.bind_eq_some_iff.mp h
      obtain ⟨hst, rfl⟩ := pw_eq_some_iff.mp hpower
      split_ifs at h with hle
      · rw [counter_eq false hle] at h
        split_ifs at h with hbit
        · cases h
        · rw [Option.bind_eq_bind, Option.bind_some, setParity_eq hle, Option.bind_eq_bind,
            Option.bind_some] at h
          obtain ⟨hsize, hrest⟩ := ih _ _ h
          rw [length_set_ite] at hsize hrest
          refine ⟨hsize, fun j hj ↦ ?_⟩
          rcases Nat.lt_or_eq_of_le hj with hlt | rfl
          · exact hrest j hlt
          · exact Bool.eq_false_iff.mpr hbit
      · have hlt := Nat.not_le.mp hle
        refine ⟨Nat.lt_of_lt_of_le hlt (Nat.pow_le_pow_right Nat.zero_lt_two (by omega)),
          fun j hj ↦ ?_⟩
        have hpow := Nat.pow_le_pow_right Nat.zero_lt_two hj
        rw [Nat.testBit_and, Nat.testBit_lt_two_pow (Nat.lt_of_lt_of_le hlt hpow), Bool.false_and]
  obtain ⟨hsize, hbits⟩ := hfuel _ 0 key h
  refine ⟨hsize, Nat.eq_of_testBit_eq fun j ↦ ?_⟩
  rw [hbits j (Nat.zero_le j), Nat.zero_testBit]

/-- Insertion never leaves the vector; only the shifts may lose their meaning. -/
theorem insertControl_eq_some {key : List Bool}
    (h : (Kks.insertControlFuel key.length 0 key).length < 2 ^ 31) :
    insertControl key = some (Kks.insertControlFuel key.length 0 key) := by
  have hgrow (fuel i : ℕ) (word : List Bool) :
      word.length ≤ (Kks.insertControlFuel fuel i word).length := by
    induction fuel generalizing i word with
    | zero => exact Nat.le_refl _
    | succ fuel ih =>
      rw [Kks.insertControlFuel]
      split_ifs
      · exact (List.length_le_length_insertIdx).trans (ih _ _)
      · exact Nat.le_refl _
  have hfuel (fuel i : ℕ) (word : List Bool) (hlength : word.length = key.length + i) (hi : i < 32)
      (henough : key.length ≤ i + fuel)
      (hsize : (Kks.insertControlFuel fuel i word).length < 2 ^ 31) :
      insertControlFuel (fuel + 1) i word = some (Kks.insertControlFuel fuel i word) := by
    induction fuel generalizing i word with
    | zero =>
      have hpow := two_mul_le_two_pow i
      rw [insertControlFuel, bind_pw hi, if_neg (by omega), Kks.insertControlFuel]
    | succ fuel ih =>
      rw [insertControlFuel, bind_pw hi]
      rw [Kks.insertControlFuel] at hsize ⊢
      split_ifs at hsize ⊢ with hnext
      · have hinside : 2 ^ i - 1 ≤ word.length := by omega
        have hshort := Nat.lt_of_le_of_lt (hgrow _ _ _) hsize
        have hinsert : (word.insertIdx (2 ^ i - 1) false).length = word.length + 1 := by
          rw [List.length_insertIdx, if_pos hinside]
        rw [hinsert] at hshort
        rw [insert, if_pos hinside, Option.bind_eq_bind, Option.bind_some]
        apply ih _ _ (by omega)
        · exact succ_lt_of_two_pow_le (Nat.le_of_lt hnext) (by omega)
        · omega
        · exact hsize
      · rfl
  exact hfuel key.length 0 key rfl (by decide) (by omega) h

theorem eq_of_insertControl {key word : List Bool} (h : insertControl key = some word) :
    word = Kks.insertControlFuel key.length 0 key := by
  have hfuel (fuel i : ℕ) (before : List Bool) (hlength : before.length = key.length + i)
      (henough : key.length ≤ i + fuel) (h : insertControlFuel (fuel + 1) i before = some word) :
      word = Kks.insertControlFuel fuel i before := by
    induction fuel generalizing i before with
    | zero =>
      have hpow := two_mul_le_two_pow i
      rw [insertControlFuel] at h
      obtain ⟨power, hpower, h⟩ := Option.bind_eq_some_iff.mp h
      obtain ⟨_, rfl⟩ := pw_eq_some_iff.mp hpower
      rw [if_neg (by omega)] at h
      exact (Option.some.inj h).symm
    | succ fuel ih =>
      rw [insertControlFuel] at h
      obtain ⟨power, hpower, h⟩ := Option.bind_eq_some_iff.mp h
      obtain ⟨_, rfl⟩ := pw_eq_some_iff.mp hpower
      rw [Kks.insertControlFuel]
      split_ifs at h ⊢ with hnext
      · have hinside : 2 ^ i - 1 ≤ before.length := by omega
        rw [insert, if_pos hinside, Option.bind_eq_bind, Option.bind_some] at h
        apply ih _ _ _ (by omega) h
        rw [List.length_insertIdx, if_pos hinside]
        omega
      · exact (Option.some.inj h).symm
  exact hfuel key.length 0 key rfl (by omega) h

theorem controlBits_eq_some {key : List Bool} (hsize : key.length < 2 ^ 31) :
    controlBits key = some (Kks.controlBits key) := by
  have hfuel (fuel i : ℕ) (hi : i < 32) (henough : key.length < 2 ^ (i + fuel)) :
      controlBitsFuel key (fuel + 1) i = some (Kks.controlBitsFuel key fuel i) := by
    induction fuel generalizing i with
    | zero =>
      rw [Nat.add_zero] at henough
      rw [controlBitsFuel, bind_pw hi, if_neg (Nat.lt_asymm henough), Kks.controlBitsFuel]
    | succ fuel ih =>
      have hsum : i + 1 + fuel = i + (fuel + 1) := by omega
      rw [controlBitsFuel, bind_pw hi, Kks.controlBitsFuel]
      split_ifs with hnext
      · have hpos := Nat.two_pow_pos i
        have hinside : 2 ^ i - 1 < key.length := by omega
        rw [ih (i + 1) (succ_lt_of_two_pow_le (Nat.le_of_lt hnext) hsize) (hsum ▸ henough),
          List.getElem?_eq_getElem hinside, List.getD_eq_getElem _ _ hinside]
        rfl
      · rfl
  apply hfuel key.length 0 (by decide)
  rw [Nat.zero_add]
  exact Nat.lt_two_pow_self

theorem errorPos_eq_some {input output : List Bool} (hlength : input.length = output.length)
    (hshort : input.length ≤ 32) : errorPos input output = some (Kks.errorPos input output) := by
  have hfuel (r : ℕ) (hr : r ≤ input.length) : errorPosFuel input output r =
      some (ofDigits (fun i ↦ input.getD i false ^^ output.getD i false) r) := by
    induction r with
    | zero => rfl
    | succ r ih =>
      have hin : r < input.length := hr
      have hout : r < output.length := hlength ▸ hr
      rw [errorPosFuel, ih (Nat.le_of_lt hr), pw_of_lt (by omega), List.getElem?_eq_getElem hin,
        List.getElem?_eq_getElem hout, ofDigits, List.getD_eq_getElem _ _ hin,
        List.getD_eq_getElem _ _ hout]
      cases input[r] <;> cases output[r] <;> rfl
  exact hfuel _ (Nat.le_refl _)

theorem invertAt_eq_some {key : List Bool} {pos : ℕ} (h : pos ≤ key.length) :
    invertAt key pos = some (Kks.invertAt key pos) := by
  rw [invertAt, Kks.invertAt]
  split_ifs with hpos
  · have hinside : pos - 1 < key.length := by omega
    rw [List.getElem?_eq_getElem hinside, List.modify_eq_set, List.getElem?_eq_getElem hinside]
    exact if_pos hinside
  · rfl

theorem eraseControl_eq_some {key : List Bool} (hsize : key.length < 2 ^ 31) :
    eraseControl key = some (Kks.eraseControl key) := by
  have hfuel (fuel i : ℕ) (word : List Bool) (hi : i < 32) (hword : word.length < 2 ^ 31)
      (henough : word.length < 2 ^ (i + fuel)) :
      eraseControlFuel (fuel + 1) i word = some (Kks.eraseControlFuel fuel i word) := by
    induction fuel generalizing i word with
    | zero =>
      rw [Nat.add_zero] at henough
      rw [eraseControlFuel, bind_pw hi, if_neg (Nat.lt_asymm henough), Kks.eraseControlFuel]
    | succ fuel ih =>
      have hsum : i + 1 + fuel = i + (fuel + 1) := by omega
      rw [eraseControlFuel, bind_pw hi, Kks.eraseControlFuel]
      split_ifs with hnext
      · have hshrink := List.length_eraseIdx_le word (2 ^ i - 1 - i)
        have hpos := Nat.two_pow_pos i
        rw [erase, if_pos (by omega), Option.bind_eq_bind, Option.bind_some]
        apply ih
        · exact succ_lt_of_two_pow_le (Nat.le_of_lt hnext) hword
        · omega
        · rw [hsum]
          omega
      · rfl
  apply hfuel key.length 0 key (by decide) hsize
  rw [Nat.zero_add]
  exact Nat.lt_two_pow_self

/-! ## The lengths -/

/-- The loops before the control bits are put out have a result for these keys only. -/
theorem inRange_of_hammingCode {key cbits : List Bool} (h : hammingCode key = some cbits) :
    InRange (key.length + controlCount key.length) := by
  obtain ⟨word, hinsert, h⟩ := Option.bind_eq_some_iff.mp h
  obtain ⟨_, hset, _⟩ := Option.bind_eq_some_iff.mp h
  have hrange := inRange_of_setControl hset
  rwa [eq_of_insertControl hinsert, (insertControlFuel_spec key).spread.length] at hrange

theorem exists_of_inRange {size : ℕ} (h : InRange size) : ∃ q ≤ 31, size + 1 = 2 ^ q := by
  obtain ⟨q, hq⟩ := (Nat.and_sub_one_eq_zero_iff_isPowerOfTwo (Nat.succ_ne_zero size)).mp
    ((Nat.and_comm _ _).trans h.2)
  have hle : 2 ^ q ≤ 2 ^ 31 := hq ▸ h.1
  exact ⟨q, (Nat.pow_le_pow_iff_right Nat.one_lt_two).mp hle, hq⟩

theorem inRange_of_eq {size q : ℕ} (hq : q ≤ 31) (h : size + 1 = 2 ^ q) : InRange size := by
  have hpow := Nat.pow_le_pow_right Nat.zero_lt_two hq
  refine ⟨by omega, ?_⟩
  have hand := (Nat.and_sub_one_eq_zero_iff_isPowerOfTwo (Nat.succ_ne_zero size)).mpr ⟨q, h⟩
  exact (Nat.and_comm _ _).trans hand

theorem two_pow_add_le {i m : ℕ} (h : i ≤ m) : 2 ^ i + m ≤ 2 ^ m + i := by
  induction m, h using Nat.le_induction with
  | base => exact Nat.le_refl _
  | succ m _ ih =>
    have hpos := Nat.two_pow_pos m
    rw [Nat.pow_succ]
    omega

/-- The number of control bits that make up one bit less than a power of two. -/
theorem controlCount_eq {n m : ℕ} (hm : 3 ≤ m) (h : n + m + 1 = 2 ^ m) : controlCount n = m := by
  obtain ⟨hbelow, hle⟩ := controlCount_spec n
  rcases Nat.lt_trichotomy (controlCount n) m with hlt | heq | hlt
  · -- Below `m` the powers grow too slowly to reach the key.
    obtain ⟨k, rfl⟩ : ∃ k, m = k + 1 := ⟨m - 1, by omega⟩
    have hgrow := two_pow_add_le (Nat.le_of_lt_succ hlt)
    have hfour : 2 ^ 2 ≤ 2 ^ k := Nat.pow_le_pow_right Nat.zero_lt_two (by omega)
    rw [Nat.pow_succ] at h
    omega
  · exact heq
  · have hnext := hbelow m hlt
    omega

/-- The key is empty, a single bit, or as long as the data of a perfect code. -/
theorem inRange_iff (n : ℕ) : InRange (n + controlCount n) ↔ ∃ m ≤ 31, n + m + 1 = 2 ^ m := by
  constructor
  · intro h
    obtain ⟨q, hq, hsize⟩ := exists_of_inRange h
    have hle : controlCount n ≤ q := by
      by_contra hlt
      have hpow := (two_pow_lt_iff n q).mpr (Nat.not_le.mp hlt)
      omega
    rcases Nat.lt_trichotomy q 1 with hzero | rfl | hlong
    · obtain rfl : q = 0 := by omega
      exact ⟨0, by decide, by omega⟩
    · have hne : n ≠ 0 := by
        rintro rfl
        exact absurd hsize (by decide)
      exact ⟨2, by decide, by omega⟩
    · obtain ⟨k, rfl⟩ : ∃ k, q = k + 1 := ⟨q - 1, by omega⟩
      have hpow : 2 ^ 1 ≤ 2 ^ k := Nat.pow_le_pow_right Nat.zero_lt_two (by omega)
      have hlast : k < controlCount n := by
        rw [← two_pow_lt_iff]
        rw [Nat.pow_succ] at hsize
        omega
      have hcount : controlCount n = k + 1 := by omega
      exact ⟨k + 1, hq, hcount ▸ hsize⟩
  · rintro ⟨m, hm, h⟩
    rcases Nat.lt_or_ge m 3 with hlt | hge
    · have hn : n = 0 ∨ n = 1 := by
        obtain rfl | rfl | rfl : m = 0 ∨ m = 1 ∨ m = 2 := by omega
        all_goals omega
      rcases hn with rfl | rfl <;> exact ⟨by decide, by decide⟩
    · rw [controlCount_eq hge h]
      exact inRange_of_eq hm h

theorem length_setControl (behind : Bool) (word : List Bool) :
    (Kks.setControl behind word).length = word.length := by
  by_cases hword : word = []
  · rw [hword]
    rfl
  · exact (setControl_spec behind hword).length

/-- The vector from which the control bits are put out. -/
theorem length_setControl_insertControl (behind : Bool) (key : List Bool) :
    (Kks.setControl behind (Kks.insertControlFuel key.length 0 key)).length =
      key.length + controlCount key.length :=
  (length_setControl behind _).trans (insertControlFuel_spec key).spread.length

theorem length_cbits (behind : Bool) (key : List Bool) :
    (Kks.controlBits (Kks.setControl behind (Kks.insertControlFuel key.length 0 key))).length =
      controlCount key.length := by
  have hlt (i : ℕ) :
      2 ^ i < (Kks.setControl behind (Kks.insertControlFuel key.length 0 key)).length ↔
        i < controlCount key.length := by
    rw [length_setControl_insertControl]
    exact two_pow_lt_iff key.length i
  rw [controlBits_eq hlt, List.length_map, List.length_range]

section InRange

variable {key : List Bool} (h : InRange (key.length + controlCount key.length))
include h

theorem two_pow_controlCount_le :
    2 ^ controlCount key.length ≤ key.length + controlCount key.length + 1 := by
  obtain ⟨q, _, hq⟩ := exists_of_inRange h
  have hnot : ¬ q < controlCount key.length := by
    rw [← two_pow_lt_iff]
    omega
  exact (Nat.pow_le_pow_right Nat.zero_lt_two (Nat.not_lt.mp hnot)).trans hq.ge

/-- The key is long enough for all control bits to be erased. -/
theorem half_two_pow_le : 2 ^ controlCount key.length / 2 ≤ key.length := by
  have hle := two_pow_controlCount_le h
  have hbelow := (controlCount_spec key.length).1
  rcases Nat.eq_zero_or_pos (controlCount key.length) with hzero | hpos
  · rw [hzero]
    exact Nat.zero_le _
  · have hfirst := hbelow 0 hpos
    obtain ⟨k, hk⟩ : ∃ k, controlCount key.length = k + 1 := ⟨controlCount key.length - 1, by omega⟩
    rw [hk, Nat.pow_succ] at hle ⊢
    rcases Nat.lt_or_ge k 2 with hlt | hge
    · obtain rfl | rfl : k = 0 ∨ k = 1 := by omega
      all_goals omega
    · have hgrow := two_pow_add_le hge
      omega

theorem inRange_insertControl : InRange (Kks.insertControlFuel key.length 0 key).length :=
  (insertControlFuel_spec key).spread.length ▸ h

/-- In range the checked routines are the plain ones. -/
theorem hammingCode_eq (behind : Bool) : hammingCode key = Kks.hammingCode behind key := by
  have hword := inRange_insertControl h
  have hset := length_setControl_insertControl behind key
  rw [hammingCode, insertControl_eq_some hword.1, Kks.hammingCode, Kks.insertControl,
    if_pos hword.1, Option.map_some, Option.bind_eq_bind, Option.bind_some,
    setControl_eq_some behind hword, Option.bind_some, controlBits_eq_some (hset.trans_lt h.1)]

variable {input : List Bool} (hinput : input.length = controlCount key.length)
include hinput

/-- The position that the control bits spell out is in the vector, whatever they are. -/
theorem errorPos_le (output : List Bool) :
    Kks.errorPos input output ≤ key.length + controlCount key.length := by
  have hlt := ofDigits_lt (fun i ↦ input.getD i false ^^ output.getD i false) input.length
  have hle := two_pow_controlCount_le h
  rw [Kks.errorPos]
  rw [hinput] at hlt ⊢
  omega

theorem hammingDecode_eq (behind : Bool) :
    hammingDecode key input = Kks.hammingDecode behind key input := by
  have hword := inRange_insertControl h
  have hset := length_setControl_insertControl behind key
  have hcbits := hinput.trans (length_cbits behind key).symm
  have hshort : input.length ≤ 32 := by
    obtain ⟨q, hq, hsize⟩ := exists_of_inRange h
    have hpow := two_pow_controlCount_le h
    rw [hsize, Nat.pow_le_pow_iff_right Nat.one_lt_two] at hpow
    omega
  rw [hammingDecode, insertControl_eq_some hword.1, Kks.hammingDecode, Kks.insertControl,
    if_pos hword.1, Option.map_some, Option.bind_eq_bind, Option.bind_some,
    setControl_eq_some behind hword, Option.bind_some, controlBits_eq_some (hset.trans_lt h.1),
    Option.bind_some, errorPos_eq_some hcbits hshort, Option.bind_eq_bind, Option.bind_some,
    invertAt_eq_some, Option.bind_some, eraseControl_eq_some]
  · rw [length_invertAt, hset]
    exact h.1
  · rw [hset]
    exact errorPos_le h hinput _

theorem length_hammingDecode {decoded : List Bool}
    (hdecoded : hammingDecode key input = some decoded) : decoded.length = key.length := by
  rw [hammingDecode_eq h hinput false, Kks.hammingDecode, Kks.insertControl,
    if_pos (inRange_insertControl h).1, Option.map_some] at hdecoded
  have herased (pos : ℕ) : (Kks.eraseControl (Kks.invertAt
      (Kks.setControl false (Kks.insertControlFuel key.length 0 key)) pos)).length =
        key.length := by
    have hfinal := (length_invertAt (Kks.setControl false
      (Kks.insertControlFuel key.length 0 key)) pos).trans
        (length_setControl_insertControl false key)
    have hspread := (eraseControl_spread hfinal (half_two_pow_le h)).length
    omega
  rw [← Option.some.inj hdecoded]
  exact herased _

end InRange

/-- Safe are the keys with 0, 1, 4, 11, 26, 57, … bits, as long as the data of a perfect code. -/
theorem safe_iff (key : List Bool) : Safe key ↔ ∃ m ≤ 31, key.length + m + 1 = 2 ^ m := by
  rw [← inRange_iff]
  constructor
  · rintro ⟨cbits, hcbits, _⟩
    exact inRange_of_hammingCode hcbits
  · intro h
    have hinsert : Kks.insertControl key = some (Kks.insertControlFuel key.length 0 key) :=
      if_pos (inRange_insertControl h).1
    refine ⟨_, (hammingCode_eq h false).trans (congrArg (Option.map _) hinsert),
      fun input hinput ↦ ?_⟩
    rw [length_cbits] at hinput
    have hdecode := (hammingDecode_eq h hinput false).trans (congrArg (Option.map _) hinsert)
    exact ⟨_, hdecode, length_hammingDecode h hinput hdecode⟩

/-- Of two bits the parity for the third control bit reads behind the vector. -/
theorem not_safe_twoBits : ¬ Safe [true, false] := by
  rintro ⟨_, hcbits, _⟩
  exact absurd hcbits nofun

end Checked

end QNet.Kks
