import Mathlib.Data.List.NodupEquivFin
import QNet.Kks.Hamming

/-!
# Which errors are corrected

The control bits of the two ends differ in the binary digits of the error's position, and, if the
bits behind the two vectors differ, in those digits whose parity reads behind the vector. So an
error is corrected if nothing is read there, or the same at both ends; but not in the last position
if this is a power of two, and not at all if the last control bit is not erased: `corrected_iff`.
-/

namespace QNet.Kks

open Parity

/-- The exact condition for a key of `n` bits with `r` control bits. -/
def Correctable (behind behind' : Bool) (key e : List Bool) : Prop :=
  let r := controlCount key.length
  let size := key.length + r
  size < 2 ^ 31 ∧ 2 ^ r / 2 ≤ key.length ∧
    if size = 2 ^ r then
      ((List.zipWith xor key e).getLast?.getD false || behind' && r ≠ 0) =
        key.getLast?.getD false
    else
      behind = behind' ∨ size &&& (size + 1) = 0 ∨
        true ∉ e ∧ ∃ i < r, size &&& (size + 1) = 2 ^ i

instance decidableCorrectable (behind behind' : Bool) (key e : List Bool) :
    Decidable (Correctable behind behind' key e) :=
  inferInstanceAs (Decidable (_ ∧ _ ∧ ite _ _ _))

/-- `key` with the error `e` is decoded with the control bits of `key`. -/
def Corrected (behind behind' : Bool) (key e : List Bool) : Prop :=
  ∃ cbits ∈ hammingCode behind key, hammingDecode behind' (List.zipWith xor key e) cbits = some key

instance decidableCorrected (behind behind' : Bool) (key e : List Bool) :
    Decidable (Corrected behind behind' key e) :=
  inferInstanceAs (Decidable (∃ cbits ∈ hammingCode behind key, _))

/-! ## The error -/

theorem bit_zipWith {key e : List Bool} (he : e.length = key.length) {i : ℕ}
    (hi : i < key.length) : bit (List.zipWith xor key e) i = (bit key i ^^ bit e i) := by
  have hie : i < e.length := he ▸ hi
  have hzip : i < (List.zipWith xor key e).length := by
    rw [List.length_zipWith]
    omega
  rw [bit, bit, bit, List.getD_eq_getElem _ _ hzip, List.getD_eq_getElem _ _ hi,
    List.getD_eq_getElem _ _ hie, List.getElem_zipWith]

/-- Where the only error is. -/
theorem exists_error {e : List Bool} (hone : e.count true ≤ 1) (hmem : true ∈ e) :
    ∃ m < e.length, ∀ i < e.length, bit e i = decide (i = m) := by
  obtain ⟨m, hm⟩ := List.mem_iff_get.mp hmem
  refine ⟨m, m.isLt, fun i hi ↦ ?_⟩
  rw [bit, List.getD_eq_getElem _ _ hi]
  by_cases heq : i = m
  · subst heq
    rw [decide_eq_true rfl]
    exact hm
  · rw [decide_eq_false heq, Bool.eq_false_iff]
    intro htrue
    -- A second error would be counted.
    have htwice : List.Duplicate true e := by
      rw [List.duplicate_iff_exists_distinct_get]
      rcases Nat.lt_or_gt_of_ne heq with hlt | hlt
      · exact ⟨⟨i, hi⟩, m, hlt, htrue.symm, hm.symm⟩
      · exact ⟨m, ⟨i, hi⟩, hlt, hm.symm, htrue.symm⟩
    rw [List.duplicate_iff_two_le_count] at htwice
    omega

/-- The position of the error in the vector with control bits, zero if there is none. -/
structure ErrorAt (key e word word' : List Bool) (p : ℕ) : Prop where
  le : p ≤ word.length
  data : p ≠ 0 → ¬IsControl (controlCount key.length) (p - 1)
  none_iff : p = 0 ↔ true ∉ e
  bit_eq : ∀ k < word.length, bit word' k = (bit word k ^^ decide (k + 1 = p))

theorem length_zipWith_xor {key e : List Bool} (he : e.length = key.length) :
    (List.zipWith xor key e).length = key.length := by
  rw [List.length_zipWith, he, Nat.min_self]

theorem zipWith_xor_ne_nil {key e : List Bool} (hkey : key ≠ []) (he : e.length = key.length) :
    List.zipWith xor key e ≠ [] := by
  rwa [← List.length_pos_iff, length_zipWith_xor he, List.length_pos_iff]

/-- Control bits are inserted in the same places; elsewhere stand the bits of the error. -/
theorem Inserted.bit_xor {key e word word' : List Bool} (hword : Inserted key word)
    (hword' : Inserted (List.zipWith xor key e) word') (he : e.length = key.length) {k : ℕ}
    (hk : k < word.length) :
    IsControl (controlCount key.length) k ∧ bit word' k = bit word k ∨
      ¬IsControl (controlCount key.length) k ∧
        bit word' k = (bit word k ^^ bit e (k - controlsUpTo k (controlCount key.length))) := by
  have hlength := length_zipWith_xor he
  have hspread' := hword'.spread
  rw [hlength] at hspread'
  by_cases hcontrol : IsControl (controlCount key.length) k
  · refine .inl ⟨hcontrol, ?_⟩
    rw [hword.bit_eq_false hcontrol, hword'.bit_eq_false (hlength.symm ▸ hcontrol)]
  · refine .inr ⟨hcontrol, ?_⟩
    rw [hspread'.bit_eq hcontrol, hword.spread.bit_eq hcontrol,
      bit_zipWith he ((hword.spread.lt_iff hcontrol).mp hk)]

theorem bit_of_not_mem {e : List Bool} (hmem : true ∉ e) (i : ℕ) : bit e i = false := by
  rw [bit, List.getD_eq_getElem?_getD]
  cases hi : e[i]? with
  | none => rfl
  | some b =>
    cases b with
    | false => rfl
    | true => exact absurd (List.mem_of_getElem? hi) hmem

theorem exists_errorAt {key e word word' : List Bool} (he : e.length = key.length)
    (hone : e.count true ≤ 1) (hword : Inserted key word)
    (hword' : Inserted (List.zipWith xor key e) word') : ∃ p, ErrorAt key e word word' p := by
  by_cases hmem : true ∈ e
  · obtain ⟨m, hm, herror⟩ := exists_error hone hmem
    obtain ⟨place, hplace, heq⟩ := exists_place (controlCount key.length) m
    have hlt : place < word.length := by
      rw [hword.spread.lt_iff hplace, heq, ← he]
      exact hm
    refine ⟨place + 1, hlt, fun _ ↦ hplace, iff_of_false (Nat.succ_ne_zero _) (not_not.mpr hmem),
      fun k hk ↦ ?_⟩
    rcases hword.bit_xor hword' he hk with ⟨hcontrol, hsame⟩ | ⟨hcontrol, hxor⟩
    · have hne : k + 1 ≠ place + 1 := fun h ↦ hplace (Nat.succ.inj h ▸ hcontrol)
      rw [hsame, decide_eq_false hne, Bool.xor_false]
    · have hinside : k - controlsUpTo k (controlCount key.length) < e.length :=
        he ▸ (hword.spread.lt_iff hcontrol).mp hk
      rw [hxor, herror _ hinside]
      congr 1
      rw [decide_eq_decide, ← heq]
      exact ⟨fun h ↦ congrArg (· + 1) (place_inj hcontrol hplace h), fun h ↦ by
        rw [Nat.succ.inj h]⟩
  · refine ⟨0, Nat.zero_le _, fun h ↦ absurd rfl h, iff_of_true rfl hmem, fun k hk ↦ ?_⟩
    rw [decide_eq_false (Nat.succ_ne_zero k), Bool.xor_false]
    rcases hword.bit_xor hword' he hk with ⟨_, hsame⟩ | ⟨_, hxor⟩
    · exact hsame
    · rw [hxor, bit_of_not_mem hmem, Bool.xor_false]

/-! ## The decoded key -/

section Decode

variable {behind behind' : Bool} {key e word word' : List Bool} {p : ℕ}

/-- What the two ends' garbage adds to the position. -/
def shift (behind behind' : Bool) (size : ℕ) : ℕ :=
  if behind = behind' then 0 else size &&& (size + 1)

theorem ErrorAt.parityBit_xor (h : ErrorAt key e word word' p) (hsize : word'.length = word.length)
    (i : ℕ) : (parityBit behind word i ^^ parityBit behind' word' i) =
      (p ^^^ shift behind behind' word.length).testBit i := by
  have hcheck : (check word.length (bit word) i ^^ check word.length (bit word') i) =
      p.testBit i := by
    rw [← check_xor]
    have hdiff : check word.length (fun k ↦ bit word k ^^ bit word' k) i =
        check word.length (fun k ↦ decide (k + 1 = p)) i := by
      apply check_congr
      intro k hk _
      rw [h.bit_eq k hk, ← Bool.xor_assoc, Bool.xor_self, Bool.false_xor]
    rw [hdiff]
    cases p with
    | zero =>
      rw [Nat.zero_testBit, check, parity_eq_false]
      intro k _
      rw [decide_eq_false (Nat.succ_ne_zero k), Bool.and_false]
    | succ m =>
      apply check_single h.le
      · intro k _ hne
        exact decide_eq_false fun heq ↦ hne (Nat.succ.inj heq)
      · exact decide_eq_true rfl
  have hshift : (shift behind behind' word.length).testBit i =
      ((word.length &&& (word.length + 1)).testBit i && (behind ^^ behind')) := by
    unfold shift
    cases behind <;> cases behind' <;> simp
  rw [Nat.testBit_xor, ← hcheck, hshift, parityBit, parityBit, hsize]
  generalize (word.length &&& (word.length + 1)).testBit i = digit
  cases digit <;> cases behind <;> cases behind' <;> simp

theorem Inserted.word_ne_nil (h : Inserted key word) (hkey : key ≠ []) : word ≠ [] := by
  have hpos := List.length_pos_iff.mpr hkey
  have hsize := h.spread.length
  rw [← List.length_pos_iff]
  omega

/-- The control bits are the parities. -/
theorem controlBits_setControl (behind : Bool) (h : Inserted key word) (hkey : key ≠ []) :
    controlBits (setControl behind word) =
      (List.range (controlCount key.length)).map (parityBit behind word) := by
  have hset := setControl_spec behind (h.word_ne_nil hkey)
  have hlt (i : ℕ) : 2 ^ i < (setControl behind word).length ↔ i < controlCount key.length := by
    rw [hset.length, h.spread.length]
    exact two_pow_lt_iff key.length i
  rw [controlBits_eq hlt, List.map_inj_left]
  intro i hi
  have hcontrol : IsControl (controlCount key.length) (2 ^ i - 1) :=
    ⟨i, List.mem_range.mp hi, Nat.sub_add_cancel (Nat.two_pow_pos i)⟩
  have hinside := (hlt i).mpr (List.mem_range.mp hi)
  rw [hset.length] at hinside
  rw [hset.control i (Nat.zero_le i) (Nat.le_of_lt hinside), h.bit_eq_false hcontrol,
    Bool.false_or]

/-- The place that is spelled out is the one of the error, shifted if the bits behind the vectors
differ. -/
theorem ErrorAt.errorPos_eq (behind behind' : Bool) (h : ErrorAt key e word word' p)
    (hkey : key ≠ []) (he : e.length = key.length) (hword : Inserted key word)
    (hword' : Inserted (List.zipWith xor key e) word') :
    errorPos (controlBits (setControl behind word)) (controlBits (setControl behind' word')) =
      (p ^^^ shift behind behind' word.length) % 2 ^ controlCount key.length := by
  have hlength := length_zipWith_xor he
  have hkey' := zipWith_xor_ne_nil hkey he
  have hsize : word'.length = word.length := by
    rw [hword'.spread.length, hword.spread.length, hlength]
  rw [controlBits_setControl behind hword hkey, controlBits_setControl behind' hword' hkey',
    errorPos, List.length_map, List.length_range, hlength, ← ofDigits_testBit]
  apply ofDigits_congr
  intro i hi
  rw [← h.parityBit_xor hsize i]
  simp [List.getD_eq_getElem?_getD, hi]

theorem length_invertAt (word : List Bool) (pos : ℕ) :
    (invertAt word pos).length = word.length := by
  unfold invertAt
  split_ifs
  · exact List.length_modify _ _ _
  · rfl

theorem bit_invertAt {pos k : ℕ} (hk : k < word.length) :
    bit (invertAt word pos) k = (bit word k ^^ decide (k + 1 = pos)) := by
  unfold invertAt
  rcases Nat.eq_zero_or_pos pos with rfl | hpos
  · rw [if_neg (not_not.mpr rfl), decide_eq_false (Nat.succ_ne_zero k), Bool.xor_false]
  · have hmodify : k < (word.modify (pos - 1) not).length := by rwa [List.length_modify]
    rw [if_pos (Nat.ne_of_gt hpos), bit, bit, List.getD_eq_getElem _ _ hmodify,
      List.getD_eq_getElem _ _ hk, List.getElem_modify]
    by_cases heq : k + 1 = pos
    · rw [decide_eq_true heq, if_pos (by omega), Bool.xor_true]
    · rw [decide_eq_false heq, if_neg (by omega), Bool.xor_false]

/-- The key comes out if the control bits are all erased and the bits of the key are right. -/
theorem eraseControl_eq_iff {final : List Bool} (hword : Inserted key word)
    (hfinal : final.length = word.length) :
    eraseControl final = key ↔ 2 ^ controlCount key.length / 2 ≤ key.length ∧
      ∀ k < word.length, ¬IsControl (controlCount key.length) k → bit final k = bit word k := by
  have hlength := hword.spread.length
  rcases Nat.lt_or_ge key.length (2 ^ controlCount key.length / 2) with hshort | hlong
  · have hlt := lt_length_eraseControl (hfinal.trans hlength) hshort
    refine iff_of_false (fun heq ↦ ?_) fun h ↦ Nat.not_le.mpr hshort h.1
    rw [heq] at hlt
    exact Nat.lt_irrefl _ hlt
  · have hspread := eraseControl_spread (hfinal.trans hlength) hlong
    rw [hspread.eq_iff hword.spread, and_iff_right hlong]
    apply forall_congr'
    intro k
    constructor
    · intro h _ hk
      rw [bit, bit, List.getD_eq_getElem?_getD, List.getD_eq_getElem?_getD, h hk]
    · intro h hk
      rcases Nat.lt_or_ge k word.length with hlt | hge
      · have hbit := h hlt hk
        rw [bit, bit, List.getD_eq_getElem _ _ hlt, List.getD_eq_getElem _ _ (hfinal ▸ hlt)] at hbit
        rw [List.getElem?_eq_getElem hlt, List.getElem?_eq_getElem (hfinal ▸ hlt), hbit]
      · rw [List.getElem?_eq_none hge, List.getElem?_eq_none (hfinal ▸ hge)]

end Decode

/-! ## Both kinds of lengths -/

theorem shift_le (behind behind' : Bool) (size : ℕ) : shift behind behind' size ≤ size := by
  unfold shift
  split_ifs
  · exact Nat.zero_le _
  · exact Nat.and_le_left

/-- With a free position behind the vector: inverting at the shifted place instead of `p` changes
no bit of the key. -/
theorem inverts_iff {size r p place : ℕ} (hp : p ≤ size) (hdata : p ≠ 0 → ¬IsControl r (p - 1))
    (hplace : place ≤ size) (hsize : size < 2 ^ r) :
    (∀ k < size, ¬IsControl r k → (k + 1 = p ↔ k + 1 = (p ^^^ place) % 2 ^ r)) ↔
      place = 0 ∨ p = 0 ∧ ∃ i < r, place = 2 ^ i := by
  have hlt : p ^^^ place < 2 ^ r :=
    Nat.xor_lt_two_pow (Nat.lt_of_le_of_lt hp hsize) (Nat.lt_of_le_of_lt hplace hsize)
  rw [Nat.mod_eq_of_lt hlt]
  constructor
  · intro h
    rcases Nat.eq_zero_or_pos p with rfl | hpos
    · rw [Nat.zero_xor] at h
      rcases Nat.eq_zero_or_pos place with hzero | hpos
      · exact .inl hzero
      · refine .inr ⟨rfl, ?_⟩
        by_contra hpower
        have hfree : ¬IsControl r (place - 1) := by
          rintro ⟨i, hi, heq⟩
          exact hpower ⟨i, hi, by omega⟩
        have hfalse := (h (place - 1) (by omega) hfree).mpr (by omega)
        omega
    · have heq := (h (p - 1) (by omega) (hdata (Nat.ne_of_gt hpos))).mp (by omega)
      left
      rw [Nat.sub_add_cancel hpos] at heq
      have hcancel := congrArg (p ^^^ ·) heq
      rw [← Nat.xor_assoc, Nat.xor_self, Nat.zero_xor] at hcancel
      exact hcancel.symm
  · rintro (rfl | ⟨rfl, i, hi, rfl⟩) k hk hfree
    · rw [Nat.xor_zero]
    · rw [Nat.zero_xor]
      exact iff_of_false (Nat.succ_ne_zero k) fun heq ↦ hfree ⟨i, hi, heq⟩

theorem shift_eq_zero_iff {behind behind' : Bool} {size : ℕ} :
    shift behind behind' size = 0 ↔ behind = behind' ∨ size &&& (size + 1) = 0 := by
  unfold shift
  split_ifs with heq
  · exact iff_of_true rfl (.inl heq)
  · exact ⟨.inr, fun h ↦ h.resolve_left heq⟩

/-- The decoded bits when no bit of the key is at a power of two. -/
theorem decoded_iff_of_lt {behind behind' : Bool} {key e word word' : List Bool} {p : ℕ}
    (h : ErrorAt key e word word' p) (hset : SetFrom behind' 0 word' (setControl behind' word'))
    (hlt : word.length < 2 ^ controlCount key.length) :
    (∀ k < word.length, ¬IsControl (controlCount key.length) k →
        (bit (setControl behind' word') k ^^ decide (k + 1 =
          (p ^^^ shift behind behind' word.length) % 2 ^ controlCount key.length)) = bit word k) ↔
      behind = behind' ∨ word.length &&& (word.length + 1) = 0 ∨
        true ∉ e ∧ ∃ i < controlCount key.length, word.length &&& (word.length + 1) = 2 ^ i := by
  have hbits (k : ℕ) (hk : k < word.length) (hfree : ¬IsControl (controlCount key.length) k) :
      bit (setControl behind' word') k = (bit word k ^^ decide (k + 1 = p)) := by
    rw [hset.other k ?_, h.bit_eq k hk]
    intro j _ heq
    rcases Nat.lt_or_ge j (controlCount key.length) with hj | hj
    · exact hfree ⟨j, hj, heq⟩
    · have hpow := Nat.pow_le_pow_right Nat.zero_lt_two hj
      omega
  have hiff := inverts_iff h.le h.data (shift_le behind behind' word.length) hlt
  have hxor (a b c : Bool) : (a ^^ b ^^ c) = a ↔ b = c := by
    cases a <;> cases b <;> cases c <;> decide
  calc
    _ ↔ ∀ k < word.length, ¬IsControl (controlCount key.length) k → (k + 1 = p ↔ k + 1 =
        (p ^^^ shift behind behind' word.length) % 2 ^ controlCount key.length) := by
      apply forall₃_congr
      intro k hk hfree
      rw [hbits k hk hfree, hxor, decide_eq_decide]
    _ ↔ _ := by
      rw [hiff, shift_eq_zero_iff, h.none_iff, or_assoc]
      apply or_congr_right'
      intro hne
      rw [shift, if_neg hne]

/-- The parity of the last position, where no control bit stands. -/
theorem parityBit_last {behind : Bool} {word : List Bool} {r : ℕ} (hsize : word.length = 2 ^ r) :
    parityBit behind word r = (bit word (2 ^ r - 1) ^^ (behind && r ≠ 0)) := by
  have hpos := Nat.two_pow_pos r
  have hcheck : check word.length (bit word) r = bit word (2 ^ r - 1) := by
    have hzero (k : ℕ) (hk : k < word.length) (hne : k ≠ 2 ^ r - 1) :
        ((k + 1).testBit r && bit word k) = false := by
      rw [Nat.testBit_lt_two_pow (by omega), Bool.false_and]
    rw [check, parity_single (by omega) hzero, Nat.sub_add_cancel hpos, Nat.testBit_two_pow_self,
      Bool.true_and]
  have hdigit : (word.length &&& (word.length + 1)).testBit r = decide (r ≠ 0) := by
    rw [hsize]
    rcases Nat.eq_zero_or_pos r with rfl | hr
    · rfl
    · have hnext : 2 ^ r + 1 = 2 ^ r * 1 + 1 := by omega
      rw [Nat.testBit_and, Nat.testBit_two_pow_self, hnext,
        testBit_block 1 (Nat.one_lt_two_pow (Nat.ne_of_gt hr)), decide_eq_true (Nat.ne_of_gt hr)]
      rfl
  rw [parityBit, hcheck, hdigit, Bool.and_comm]

/-- The decoded bits when the last bit of the key is at a power of two. -/
theorem decoded_iff_of_eq {behind behind' : Bool} {key e word word' : List Bool} {p : ℕ}
    (h : ErrorAt key e word word' p) (hlength : word'.length = word.length)
    (hset : SetFrom behind' 0 word' (setControl behind' word'))
    (hsize : word.length = 2 ^ controlCount key.length) :
    (∀ k < word.length, ¬IsControl (controlCount key.length) k →
        (bit (setControl behind' word') k ^^ decide (k + 1 =
          (p ^^^ shift behind behind' word.length) % 2 ^ controlCount key.length)) = bit word k) ↔
      (bit word' (word.length - 1) || behind' && controlCount key.length ≠ 0) =
        bit word (word.length - 1) := by
  generalize controlCount key.length = r at *
  have hpos := Nat.two_pow_pos r
  have hplace : (p ^^^ shift behind behind' word.length) % 2 ^ r = p % 2 ^ r := by
    have hshift : shift behind behind' word.length % 2 ^ r = 0 := by
      unfold shift
      split_ifs
      · exact Nat.zero_mod _
      · rw [Nat.and_mod_two_pow, hsize, Nat.mod_self, Nat.zero_and]
    rw [Nat.xor_mod_two_pow, hshift, Nat.xor_zero]
  have hlast : (bit (setControl behind' word') (2 ^ r - 1) ^^ decide (2 ^ r - 1 + 1 = p % 2 ^ r)) =
      (bit word' (2 ^ r - 1) || behind' && r ≠ 0) := by
    have hor (a b : Bool) : (a || (a ^^ b)) = (a || b) := by cases a <;> cases b <;> rfl
    have hne : 2 ^ r - 1 + 1 ≠ p % 2 ^ r := by
      have hmod := Nat.mod_lt p hpos
      omega
    rw [hset.control r (Nat.zero_le r) (Nat.le_of_eq (hlength.trans hsize).symm),
      parityBit_last (hlength.trans hsize), hor, decide_eq_false hne, Bool.xor_false]
  rw [hplace, hsize]
  constructor
  · intro hall
    have hfree : ¬IsControl r (2 ^ r - 1) := by
      rintro ⟨j, hj, heq⟩
      have hpow := Nat.pow_lt_pow_right Nat.one_lt_two hj
      omega
    rw [← hlast]
    exact hall (2 ^ r - 1) (by omega) hfree
  · intro heq k hk hfree
    rcases Nat.lt_or_eq_of_le (Nat.le_sub_one_of_lt hk) with hlt | rfl
    · have hother (j : ℕ) (_ : 0 ≤ j) : k + 1 ≠ 2 ^ j := by
        intro hpower
        rcases Nat.lt_or_ge j r with hj | hj
        · exact hfree ⟨j, hj, hpower⟩
        · have hpow := Nat.pow_le_pow_right Nat.zero_lt_two hj
          omega
      have hsame : decide (k + 1 = p) = decide (k + 1 = p % 2 ^ r) := by
        have hle := h.le
        rw [decide_eq_decide]
        rcases Nat.lt_or_eq_of_le (hsize ▸ hle) with hp | rfl
        · rw [Nat.mod_eq_of_lt hp]
        · rw [Nat.mod_self]
          omega
      rw [hset.other k hother, h.bit_eq k (hsize ▸ hk), hsame, Bool.xor_assoc, Bool.xor_self,
        Bool.xor_false]
    · rw [hlast]
      exact heq

theorem bit_last (key : List Bool) : bit key (key.length - 1) = key.getLast?.getD false := by
  rw [bit, List.getD_eq_getElem?_getD, List.getLast?_eq_getElem?]

/-- At a power of two the last bit of the vector is the last bit of the key. -/
theorem Inserted.bit_last {key word : List Bool} (h : Inserted key word)
    (hsize : word.length = 2 ^ controlCount key.length) :
    bit word (word.length - 1) = key.getLast?.getD false := by
  have hpos := Nat.two_pow_pos (controlCount key.length)
  have hlength := h.spread.length
  have hfree : ¬IsControl (controlCount key.length) (word.length - 1) := by
    rintro ⟨j, hj, heq⟩
    have hpow := Nat.pow_lt_pow_right Nat.one_lt_two hj
    omega
  rw [h.spread.bit_eq hfree, controlsUpTo_eq (by omega), hlength, Nat.sub_right_comm,
    Nat.add_sub_cancel, Kks.bit_last]

/-- For every key, every error vector of its length with at most one error, and all bits behind
the vectors: `HammingDecode` gives back the key if and only if the lengths are right and the bits
behind do no harm. -/
theorem corrected_iff (behind behind' : Bool) (key e : List Bool) (hkey : key ≠ [])
    (he : e.length = key.length) (hone : e.count true ≤ 1) :
    Corrected behind behind' key e ↔ Correctable behind behind' key e := by
  have hword := insertControlFuel_spec key
  have hword' := insertControlFuel_spec (List.zipWith xor key e)
  have hlength := length_zipWith_xor he
  have hkey' := zipWith_xor_ne_nil hkey he
  generalize hw : insertControlFuel key.length 0 key = word at hword
  generalize hw' : insertControlFuel (List.zipWith xor key e).length 0 (List.zipWith xor key e) =
    word' at hword'
  have hsize := hword.spread.length
  have hsame : word'.length = word.length := by
    rw [hword'.spread.length, hword.spread.length, hlength]
  have hset := setControl_spec behind' (hword'.word_ne_nil hkey')
  obtain ⟨p, hp⟩ := exists_errorAt he hone hword hword'
  have hpos := hp.errorPos_eq behind behind' hkey he hword hword'
  generalize hplace : errorPos (controlBits (setControl behind word))
    (controlBits (setControl behind' word')) = place at hpos
  have hfinal : (invertAt (setControl behind' word') place).length = word.length := by
    rw [length_invertAt, hset.length, hsame]
  have hcorrected : Corrected behind behind' key e ↔
      word.length < 2 ^ 31 ∧ eraseControl (invertAt (setControl behind' word') place) = key := by
    unfold Corrected hammingCode hammingDecode insertControl
    rw [hw, hw']
    dsimp only
    rw [hsame]
    split_ifs with hlt
    · rw [and_iff_right hlt]
      simp [hplace]
    · refine iff_of_false ?_ fun h ↦ hlt h.1
      simp
  have hbits : (∀ k < word.length, ¬IsControl (controlCount key.length) k →
      bit (invertAt (setControl behind' word') place) k = bit word k) ↔
      if word.length = 2 ^ controlCount key.length then
        ((List.zipWith xor key e).getLast?.getD false || behind' && controlCount key.length ≠ 0) =
          key.getLast?.getD false
      else
        behind = behind' ∨ word.length &&& (word.length + 1) = 0 ∨
          true ∉ e ∧ ∃ i < controlCount key.length, word.length &&& (word.length + 1) = 2 ^ i := by
    have hinvert : (∀ k < word.length, ¬IsControl (controlCount key.length) k →
        bit (invertAt (setControl behind' word') place) k = bit word k) ↔
        ∀ k < word.length, ¬IsControl (controlCount key.length) k →
          (bit (setControl behind' word') k ^^ decide (k + 1 = place)) = bit word k := by
      apply forall₂_congr
      intro k hk
      rw [bit_invertAt (by rwa [hset.length, hsame])]
    rw [hinvert, hpos]
    split_ifs with hlast
    · rw [decoded_iff_of_eq hp hsame hset hlast, hword.bit_last hlast]
      rw [← hsame, ← hlength] at hlast
      rw [← hsame, hword'.bit_last hlast]
    · have hle := (controlCount_spec key.length).2
      exact decoded_iff_of_lt hp hset (by omega)
  rw [hcorrected, eraseControl_eq_iff hword hfinal, hbits, Correctable, hsize]

/-- Four bits with an error in the third, and whatever is behind the vectors. -/
theorem corrected_iff_fourBits :
    Corrected false true [true, false, true, true] [false, false, true, false] :=
  (corrected_iff false true [true, false, true, true] [false, false, true, false] (by decide)
    (by decide) (by decide)).mpr (by decide)

/-- Three bits without an error come out as four. -/
theorem not_corrected_threeBits :
    ¬∃ behind behind', Corrected behind behind' [true, false, true] [false, false, false] := by
  decide

end QNet.Kks
