import QNet.Http.Upload
import QNet.Lib.Parity

/-!
# How the key comes to keyworker

Alice, Bob and the emulator `qkdemu` hand their keys over as text, one character for four bits.
`qkdemu` puts out an `int`, which gives a hex digit, and `keyworker` stores the keys from which all
bits can be read (`qkdemu_delivers`). Alice and Bob put out a `uint8_t`, which is a character for
the stream, so their text has control characters where it should have digits (`delivers_iff_nil`).
-/

namespace QNet.Kks

open CString Http Mem Parity

/-! ## The text -/

/-- `val`: four bits of the key, the first one lowest. -/
def nibble (key : List Bool) (i : ℕ) : ℕ := ofDigits (fun j ↦ key.getD (i * 4 + j) false) 4

/-- `ss << hex << val` for an `int`. -/
def putInt (val : ℕ) : List UInt8 := ascii (Nat.toDigits 16 val)

/-- `ss << hex << val` for a `uint8_t`, which is an `unsigned char`. -/
def putUInt8 (val : ℕ) : List UInt8 := [UInt8.ofNat val]

/-- The loop over the key. -/
def keyText (put : ℕ → List UInt8) (key : List Bool) : List UInt8 :=
  (List.range (key.length / 4)).flatMap fun i ↦ put (nibble key i)

/-- The text of `generation` and of `generation_key`. -/
def generationText (key : List Bool) : List UInt8 :=
  keyText putUInt8 (key.take (key.length / 4 * 4))

def qkdemuText (key : List Bool) : List UInt8 := keyText putInt key

/-! ## The keys -/

/-- The keys that the upload branch of `keyworker` stores when a text arrives in one part. -/
def storedKeys (stack : Mem) (behind text : List UInt8) : List Bytes32 :=
  uploadKeys (text.length / 64) (text ++ behind) stack

/-- The bits of a stored key: of every byte the upper four bits come first. -/
def keyBits (key : Bytes32) : List Bool :=
  (List.range 256).map fun i ↦ (key (Fin.ofNat 32 (i / 8))).toNat.testBit ((i + 4) % 8)

/-- The text has hex digits only, and all bits can be read from the keys that are stored. -/
structure Readable (text : List UInt8) (key : List Bool) : Prop where
  digits : ∀ c ∈ text, (hexDigit c).isSome
  length : ∀ stack behind, (storedKeys stack behind text).length = key.length / 256
  bits : ∀ stack behind, (storedKeys stack behind text).flatMap keyBits = key

/-- The text of Alice and Bob can be read, and it is the one `qkdemu` makes. -/
structure Delivers (key : List Bool) : Prop where
  readable : Readable (generationText key) key
  qkdemu : generationText key = qkdemuText key

theorem nibble_lt (key : List Bool) (i : ℕ) : nibble key i < 16 := ofDigits_lt _ 4

theorem testBit_nibble (key : List Bool) (i : ℕ) {j : ℕ} (hj : j < 4) :
    (nibble key i).testBit j = key.getD (i * 4 + j) false := testBit_ofDigits hj

/-! ## Alice and Bob -/

/-- The character for the first four bits is no digit. -/
theorem not_delivers_of_le {key : List Bool} (hlength : 4 ≤ key.length) : ¬ Delivers key := by
  intro h
  have hmem : UInt8.ofNat (nibble (key.take (key.length / 4 * 4)) 0) ∈ generationText key := by
    apply List.mem_flatMap.mpr
    refine ⟨0, ?_, List.mem_singleton.mpr rfl⟩
    rw [List.mem_range, List.length_take]
    omega
  obtain ⟨value, hvalue⟩ := Option.isSome_iff_exists.mp (h.readable.digits _ hmem)
  have hge := (hexDigit_bounds hvalue).1
  have hlt := nibble_lt (key.take (key.length / 4 * 4)) 0
  rw [UInt8.toNat_ofNat', Nat.mod_eq_of_lt (hlt.trans (by decide))] at hge
  omega

/-- For keys that make up whole keys of `keyworker`: only the empty one is delivered. -/
theorem delivers_iff_nil (key : List Bool) (hlength : 256 ∣ key.length) :
    Delivers key ↔ key = [] := by
  constructor
  · intro h
    by_contra hne
    have hpos := List.length_pos_iff.mpr hne
    have hle := Nat.le_of_dvd hpos hlength
    exact not_delivers_of_le ((by decide : 4 ≤ 256).trans hle) h
  · rintro rfl
    exact ⟨⟨nofun, fun _ _ ↦ rfl, fun _ _ ↦ rfl⟩, rfl⟩

/-- The empty key, and a whole key, whose text is 64 times the character 15. -/
theorem delivers_iff_nil_ones : Delivers [] ∧ ¬ Delivers (List.replicate 256 true) := by
  refine ⟨(delivers_iff_nil [] ⟨0, rfl⟩).mpr rfl, fun h ↦ ?_⟩
  have hnil := (delivers_iff_nil (List.replicate 256 true) ⟨1, List.length_replicate ..⟩).mp h
  exact List.cons_ne_nil _ _ hnil

/-- A key of zeros gives NULs. -/
theorem not_delivers_zeros : ¬ Delivers (List.replicate 256 false) := by
  apply not_delivers_of_le
  rw [List.length_replicate]
  decide

/-! ## The emulator -/

/-- The digit for a number below 16. -/
def hexChar (val : ℕ) : UInt8 := (putInt val).headD 0

theorem putInt_of_lt :
    ∀ val < 16, putInt val = [hexChar val] ∧ hexDigit (hexChar val) = some val := by
  decide

theorem flatMap_range_map {α : Type*} (f : ℕ → α) (width n : ℕ) :
    (List.range n).flatMap (fun j ↦ (List.range width).map fun i ↦ f (width * j + i)) =
      (List.range (width * n)).map f := by
  induction n with
  | zero => rfl
  | succ n ih =>
    rw [List.range_succ, List.flatMap_append, ih, List.flatMap_singleton, Nat.mul_succ,
      List.range_add, List.map_append, List.map_map]
    rfl

theorem qkdemuText_eq (key : List Bool) :
    qkdemuText key = (List.range (key.length / 4)).map fun i ↦ hexChar (nibble key i) := by
  rw [qkdemuText, keyText, ← List.flatMap_singleton' ((List.range (key.length / 4)).map _),
    List.flatMap_map]
  apply List.flatMap_congr
  intro i _
  exact (putInt_of_lt _ (nibble_lt key i)).1

theorem isSome_of_mem_qkdemuText {key : List Bool} {c : UInt8} (hc : c ∈ qkdemuText key) :
    (hexDigit c).isSome := by
  rw [qkdemuText_eq] at hc
  obtain ⟨i, _, rfl⟩ := List.mem_map.mp hc
  rw [(putInt_of_lt _ (nibble_lt key i)).2]
  rfl

/-- The digit at a place of the text. -/
theorem hexDigit_getD_qkdemuText {key : List Bool} {i : ℕ} (hi : i < key.length / 4) :
    (hexDigit ((qkdemuText key).getD i 0)).getD 0 = nibble key i := by
  have hlt : i < (qkdemuText key).length := by
    rwa [qkdemuText_eq, List.length_map, List.length_range]
  rw [List.getD_eq_getElem _ _ hlt]
  simp only [qkdemuText_eq, List.getElem_map, List.getElem_range]
  rw [(putInt_of_lt _ (nibble_lt key i)).2, Option.getD_some]

/-- Every bit of a block of 256 is found in the key that is stored. -/
theorem keyBits_hexKey {key : List Bool} {j : ℕ} (hj : 256 * (j + 1) ≤ key.length) :
    keyBits (hexKey ((qkdemuText key).drop (64 * j))) =
      (List.range 256).map fun i ↦ key.getD (256 * j + i) false := by
  apply List.map_congr_left
  intro i hi
  have hlt : i < 256 := List.mem_range.mp hi
  have hbyte : (Fin.ofNat 32 (i / 8)).val = i / 8 := Nat.mod_eq_of_lt (by omega)
  have hdigit (n : ℕ) (hn : n < 64) :
      (hexDigit (((qkdemuText key).drop (64 * j)).getD n 0)).getD 0 = nibble key (64 * j + n) := by
    rw [List.getD_eq_getElem?_getD, List.getElem?_drop, ← List.getD_eq_getElem?_getD,
      hexDigit_getD_qkdemuText (by omega)]
  have hhigh := nibble_lt key (64 * j + 2 * (i / 8))
  have hlow := nibble_lt key (64 * j + (2 * (i / 8) + 1))
  rw [hexKey, hbyte]
  dsimp only
  rw [hdigit _ (by omega), hdigit _ (by omega), UInt8.toNat_ofNat', Nat.mod_eq_of_lt (by omega),
    show 16 = 2 ^ 4 from rfl, Nat.testBit_two_pow_mul_add _ hlow]
  split_ifs with hupper
  · rw [testBit_nibble key _ hupper]
    congr 1
    omega
  · rw [testBit_nibble key _ (by omega)]
    congr 1
    omega

/-- What the text is for: `keyworker` stores all bits that `qkdemu` sends. -/
theorem qkdemu_delivers (key : List Bool) (hlength : 256 ∣ key.length) :
    Readable (qkdemuText key) key := by
  obtain ⟨n, hn⟩ := hlength
  have htext : (qkdemuText key).length = 64 * n := by
    rw [qkdemuText_eq, List.length_map, List.length_range]
    omega
  have hstored (stack : Mem) (behind : List UInt8) : storedKeys stack behind (qkdemuText key) =
      (List.range n).map fun j ↦ hexKey ((qkdemuText key).drop (64 * j)) := by
    rw [storedKeys, htext, Nat.mul_div_cancel_left n (by decide : 0 < 64),
      uploadKeys_of_digits n behind stack (fun c ↦ isSome_of_mem_qkdemuText) htext.ge]
  refine ⟨fun c ↦ isSome_of_mem_qkdemuText, fun stack behind ↦ ?_, fun stack behind ↦ ?_⟩
  · rw [hstored, List.length_map, List.length_range, hn, Nat.mul_div_cancel_left n (by decide)]
  · have hkey : key = (List.range (256 * n)).map fun i ↦ key.getD i false := by
      apply List.ext_getElem
      · rw [List.length_map, List.length_range, hn]
      · intro i hi _
        rw [List.getElem_map, List.getElem_range, List.getD_eq_getElem _ _ hi]
    rw [hstored, List.flatMap_map]
    conv_rhs => rw [hkey, ← flatMap_range_map]
    apply List.flatMap_congr
    intro j hj
    have hlt : j < n := List.mem_range.mp hj
    exact keyBits_hexKey (by omega)

end QNet.Kks
