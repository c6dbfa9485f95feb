import Mathlib.Data.List.TakeWhile
import QNet.Lib.Memory

/-!
# C strings

The text behind a `char *` is the list of the bytes that can be read from there on; behind the last
of them a NUL is assumed. The list may have NULs itself, where the functions below stop.
-/

namespace QNet.CString

/-- The bytes of a word. -/
def ascii (word : List Char) : List UInt8 := word.map Char.toUInt8

def isSpace (c : UInt8) : Bool := c = 32 || (9 ≤ c && c ≤ 13)

/-- What `strncpy(dest, src, src.length)` leaves in `dest`. -/
def strncpy (src : List UInt8) : List UInt8 :=
  let copied := src.takeWhile (· ≠ 0)
  copied ++ List.replicate (src.length - copied.length) 0

/-- `strncmp(text, word, strlen(word)) == 0`. -/
def startsWith (text word : List UInt8) : Bool := word.isPrefixOf text

/-- `strncmp(a, b, n) == 0` for two arrays of `n` bytes: what lies behind a NUL is not compared. -/
def strncmpEq (a b : List UInt8) : Bool := a.takeWhile (· ≠ 0) = b.takeWhile (· ≠ 0)

/-! ## Numbers -/

/-- `strtoul(text, NULL, 10)` with a 64-bit `unsigned long`. -/
def strtoul (text : List UInt8) : ℕ :=
  let field := text.dropWhile isSpace
  let negative := field.head? = some 45
  let digits := (if negative || field.head? = some 43 then field.tail else field).takeWhile
    fun c ↦ 48 ≤ c && c ≤ 57
  let value := digits.foldl (fun n c ↦ 10 * n + (c.toNat - 48)) 0
  if value ≥ 2 ^ 64 then 2 ^ 64 - 1 else if negative then (2 ^ 64 - value) % 2 ^ 64 else value

/-- What `sscanf` with `"%d"` makes of a text. -/
inductive Scan
  | eof
  | failure
  | value (n : ℤ)
  deriving DecidableEq

/-- `sscanf(text, "%d", ...)`. -/
def scanInt (text : List UInt8) : Scan :=
  match (text.takeWhile (· ≠ 0)).dropWhile isSpace with
  | [] => .eof
  | c :: rest =>
      let digits := (if c = 43 || c = 45 then rest else c :: rest).takeWhile
        fun c ↦ 48 ≤ c && c ≤ 57
      let value : ℤ := digits.foldl (fun n c ↦ 10 * n + (c.toNat - 48)) 0
      if digits.isEmpty then .failure else .value (if c = 45 then -value else value)

def hexDigit (c : UInt8) : Option ℕ :=
  if 48 ≤ c ∧ c ≤ 57 then some (c.toNat - 48)
  else if 65 ≤ c ∧ c ≤ 70 then some (c.toNat - 55)
  else if 97 ≤ c ∧ c ≤ 102 then some (c.toNat - 87)
  else none

/-- `sscanf(text, "%02X", ...)`: blanks are skipped, then at most two characters are read, a sign
counting as one. `none` when nothing is stored. -/
def scanHex (text : List UInt8) : Option UInt32 :=
  match text.dropWhile isSpace with
  | [] => none
  | c :: rest =>
      let second := rest.head?.bind hexDigit
      if c = 43 then second.map UInt32.ofNat
      else if c = 45 then second.map fun value ↦ 0 - UInt32.ofNat value
      else (hexDigit c).map fun value ↦ UInt32.ofNat (second.elim value (16 * value + ·))

/-- An `unsigned int` in memory. -/
def le32 (n : UInt32) : List UInt8 :=
  [n.toUInt8, (n >>> 8).toUInt8, (n >>> 16).toUInt8, (n >>> 24).toUInt8]

/-- `sprintf(dest, "%02X", byte)`, without the NUL. -/
def printHex (byte : UInt8) : List UInt8 :=
  let digit (n : ℕ) := UInt8.ofNat (if n < 10 then n + 48 else n + 55)
  [digit (byte.toNat / 16), digit (byte.toNat % 16)]

/-! ## Facts -/

/-- The arrays agree as far as a NUL. -/
def AgreeToNul (a b : List UInt8) : Prop :=
  ∃ common rest rest', a = common ++ 0 :: rest ∧ b = common ++ 0 :: rest'

theorem agreeToNul_cons_iff (c c' : UInt8) (a b : List UInt8) :
    AgreeToNul (c :: a) (c' :: b) ↔ c = c' ∧ (c = 0 ∨ AgreeToNul a b) := by
  constructor
  · rintro ⟨common, rest, rest', ha, hb⟩
    cases common with
    | nil =>
      cases ha
      cases hb
      exact ⟨rfl, .inl rfl⟩
    | cons first common =>
      cases ha
      cases hb
      exact ⟨rfl, .inr ⟨common, rest, rest', rfl, rfl⟩⟩
  · rintro ⟨rfl, rfl | ⟨common, rest, rest', rfl, rfl⟩⟩
    · exact ⟨[], a, b, rfl, rfl⟩
    · exact ⟨c :: common, rest, rest', rfl, rfl⟩

/-- Different arrays of the same length count as equal if they agree as far as a NUL. -/
theorem strncmpEq_iff {a b : List UInt8} (hlength : a.length = b.length) :
    strncmpEq a b = true ↔ a = b ∨ AgreeToNul a b := by
  unfold strncmpEq
  rw [decide_eq_true_eq]
  induction a generalizing b with
  | nil =>
    rw [List.length_eq_zero_iff.mp hlength.symm]
    exact iff_of_true rfl (.inl rfl)
  | cons c a ih =>
    cases b with
    | nil => cases hlength
    | cons c' b =>
      rw [agreeToNul_cons_iff, List.cons_eq_cons, List.takeWhile_cons, List.takeWhile_cons]
      have htail := ih (Nat.succ.inj hlength)
      by_cases hzero : c = 0 <;> by_cases hzero' : c' = 0
      · simp [hzero, hzero']
      · simp [hzero, hzero', Ne.symm hzero']
      · simp [hzero, hzero']
      · simp only [hzero, hzero', ne_eq, not_false_eq_true, decide_true, if_true,
          List.cons_eq_cons, htail, false_or, and_or_left]

theorem strncpy_of_ne_zero {src : List UInt8} (h : ∀ c ∈ src, c ≠ 0) : strncpy src = src := by
  have hall : src.takeWhile (· ≠ 0) = src := by
    rw [List.takeWhile_eq_self_iff]
    exact fun c hc ↦ decide_eq_true (h c hc)
  rw [strncpy, hall, Nat.sub_self, List.replicate_zero, List.append_nil]

/-- What stands before the first NUL is copied. -/
theorem strncpy_append {src rest : List UInt8} (h : ∀ c ∈ src, c ≠ 0) :
    strncpy (src ++ rest) = src ++ strncpy rest := by
  have hcopied : (src ++ rest).takeWhile (· ≠ 0) = src ++ rest.takeWhile (· ≠ 0) :=
    List.takeWhile_append_of_pos fun c hc ↦ decide_eq_true (h c hc)
  simp only [strncpy, hcopied, List.length_append, Nat.add_sub_add_left, List.append_assoc]

theorem strncpy_singleton (c : UInt8) : strncpy [c] = [c] := by
  by_cases hc : c = 0
  · rw [hc]
    rfl
  · exact strncpy_of_ne_zero (by simpa using hc)

/-- A word without NULs that begins the copy begins the text. -/
theorem isPrefix_of_isPrefix_strncpy {word src : List UInt8} (hword : ∀ c ∈ word, c ≠ 0)
    (h : word <+: strncpy src) : word <+: src := by
  refine List.IsPrefix.trans ?_ (List.takeWhile_prefix (p := (· ≠ 0)) (l := src))
  rw [strncpy] at h
  rcases List.prefix_or_prefix_of_prefix h (List.prefix_append _ _) with hle | ⟨rest, hrest⟩
  · exact hle
  · -- What is left of the word would have to be NULs.
    rw [← hrest, List.prefix_append_right_inj] at h
    have hnil : rest = [] := by
      rw [List.eq_nil_iff_forall_not_mem]
      intro c hc
      have hzero := List.eq_of_mem_replicate (h.subset hc)
      exact hword c (hrest ▸ List.mem_append_right _ hc) hzero
    rw [← hrest, hnil, List.append_nil]

theorem isPrefix_strncpy {word src : List UInt8} (hword : ∀ c ∈ word, c ≠ 0)
    (h : word <+: src) : word <+: strncpy src := by
  obtain ⟨rest, rfl⟩ := h
  have hall : word.takeWhile (· ≠ 0) = word := by
    rw [List.takeWhile_eq_self_iff]
    exact fun c hc ↦ decide_eq_true (hword c hc)
  rw [strncpy, List.takeWhile_append, hall, if_pos rfl, List.append_assoc]
  exact List.prefix_append _ _

/-- A copy that begins a word without NULs is complete. -/
theorem isPrefix_of_strncpy {word src : List UInt8} (hword : ∀ c ∈ word, c ≠ 0)
    (h : strncpy src <+: word) : src <+: word := by
  have hcopied : src.takeWhile (· ≠ 0) <+: src := List.takeWhile_prefix _
  have hle : src.length ≤ (src.takeWhile (· ≠ 0)).length := by
    by_contra hlt
    have hzero : 0 ∈ strncpy src := by
      rw [strncpy, List.mem_append, List.mem_replicate]
      exact Or.inr ⟨by omega, rfl⟩
    exact hword 0 (h.subset hzero) rfl
  have hcopy : strncpy src = src := by
    rw [strncpy, hcopied.eq_of_length_le hle, Nat.sub_self, List.replicate_zero, List.append_nil]
  rwa [hcopy] at h

theorem hexDigit_bounds {c : UInt8} {value : ℕ} (h : hexDigit c = some value) :
    48 ≤ c.toNat ∧ value < 16 := by
  unfold hexDigit at h
  simp only [UInt8.le_iff_toNat_le] at h
  have h48 : (48 : UInt8).toNat = 48 := rfl
  have h57 : (57 : UInt8).toNat = 57 := rfl
  have h65 : (65 : UInt8).toNat = 65 := rfl
  have h70 : (70 : UInt8).toNat = 70 := rfl
  have h97 : (97 : UInt8).toNat = 97 := rfl
  have h102 : (102 : UInt8).toNat = 102 := rfl
  split_ifs at h <;> cases h <;> omega

/-- Two digits are read as they are written. -/
theorem scanHex_of_digits {c c' : UInt8} {value value' : ℕ} (rest : List UInt8)
    (h : hexDigit c = some value) (h' : hexDigit c' = some value') :
    scanHex (c :: c' :: rest) = some (UInt32.ofNat (16 * value + value')) := by
  have hc : 48 ≤ c.toNat := (hexDigit_bounds h).1
  have hne (other : UInt8) (hother : other.toNat < 48) : c ≠ other := by
    rintro rfl
    omega
  have hspace : isSpace c = false := by
    have hle : ¬c ≤ 13 := by
      rw [UInt8.le_iff_toNat_le]
      exact Nat.not_le.mpr (lt_of_lt_of_le (by decide) hc)
    simp [isSpace, hne 32 (by decide), hle]
  rw [scanHex, List.dropWhile_cons_of_neg (by simp [hspace])]
  simp only [if_neg (hne 43 (by decide)), if_neg (hne 45 (by decide)), h, List.head?_cons,
    Option.bind_some, h', Option.map_some, Option.elim_some]

/-- What is printed are two digits, and they spell the byte. -/
theorem exists_printHex (byte : UInt8) :
    ∃ c c' value value', printHex byte = [c, c'] ∧ hexDigit c = some value ∧
      hexDigit c' = some value' ∧ UInt8.ofNat (16 * value + value') = byte := by
  have hdigit : ∀ n < 16,
      hexDigit (UInt8.ofNat (if n < 10 then n + 48 else n + 55)) = some n := by decide
  have hlt := byte.toNat_lt
  refine ⟨_, _, byte.toNat / 16, byte.toNat % 16, rfl, hdigit _ (by omega), hdigit _ (by omega), ?_⟩
  rw [Nat.div_add_mod]
  exact UInt8.ofNat_toNat

theorem length_flatMap_printHex (bytes : List UInt8) :
    (bytes.flatMap printHex).length = 2 * bytes.length := by
  induction bytes with
  | nil => rfl
  | cons byte rest ih =>
    rw [List.flatMap_cons, List.length_append, ih, List.length_cons]
    change 2 + _ = _
    omega

end QNet.CString
