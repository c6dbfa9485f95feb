import Mathlib.Logic.Function.Basic
import QNet.Lib.ByteStream

/-!
# What a pad can hide

A message is combined byte by byte with a key text, each byte with the byte of the text at some
address; the text at the addresses in `clear` is sent too. All texts have zeros in the bits of
`mask`. Another message could have given the same stream if and only if some other text of this
kind explains it: `exists_text_iff`. The places where two messages differ are pairs of an address
and the difference there.
-/

namespace QNet.Pad

/-- The message under the text. -/
def cipher (text : ℕ → UInt8) (addresses : List ℕ) (message : List UInt8) : List UInt8 :=
  List.zipWith (fun byte a ↦ byte ^^^ text a) message addresses

/-- Consecutive addresses make the pad from the first one on. -/
theorem cipher_range (text : ℕ → UInt8) (start : ℕ) (message : List UInt8) :
    cipher text ((List.range message.length).map (start + ·)) message =
      ByteStream.xorPad (fun i ↦ text (start + i)) message := by
  apply List.ext_getElem
  · simp [cipher]
  · intro i hi hi'
    rw [ByteStream.getElem_xorPad hi' (by simpa using hi')]
    simp [cipher]

/-- The parts of a message can be looked at one by one. -/
theorem cipher_flatMap {β : Type*} {text : ℕ → UInt8} {addresses : β → List ℕ}
    {data : β → List UInt8} {l : List β} (h : ∀ b ∈ l, (data b).length = (addresses b).length) :
    cipher text (l.flatMap addresses) (l.flatMap data) =
      l.flatMap fun b ↦ cipher text (addresses b) (data b) := by
  induction l with
  | nil => rfl
  | cons b l ih =>
    obtain ⟨hb, hl⟩ := List.forall_mem_cons.mp h
    rw [List.flatMap_cons, List.flatMap_cons, List.flatMap_cons, ← ih hl, cipher,
      List.zipWith_append hb]
    rfl

/-- For each byte its address and what distinguishes the messages there. -/
def differences (addresses : List ℕ) (m1 m2 : List UInt8) : List (ℕ × UInt8) :=
  addresses.zip (List.zipWith (· ^^^ ·) m1 m2)

/-- The messages agree in the bits all texts have in common, they agree where the text is known,
and they differ in the same way where the same byte of the text is used. -/
def Explained (mask : UInt8) (clear : List ℕ) (uses : List (ℕ × UInt8)) : Prop :=
  ∀ use ∈ uses, use.2 &&& mask = 0 ∧ (use.1 ∈ clear → use.2 = 0) ∧
    ∀ other ∈ uses, other.1 = use.1 → other.2 = use.2

instance decidableExplained (mask : UInt8) (clear : List ℕ) (uses : List (ℕ × UInt8)) :
    Decidable (Explained mask clear uses) := inferInstanceAs (Decidable (∀ use ∈ uses, _))

theorem xor_eq_iff {a b c d : UInt8} : a ^^^ b = c ^^^ d ↔ b = d ^^^ (c ^^^ a) := by
  rw [← UInt8.xor_right_inj a (a := b)]
  have hswap : a ^^^ (d ^^^ (c ^^^ a)) = c ^^^ d := calc
    a ^^^ (d ^^^ (c ^^^ a)) = a ^^^ a ^^^ (c ^^^ d) := by ac_rfl
    _ = c ^^^ d := by rw [UInt8.xor_self, UInt8.zero_xor]
  rw [hswap]

theorem xor_and_distrib (a b mask : UInt8) :
    (a ^^^ b) &&& mask = (a &&& mask) ^^^ (b &&& mask) := by
  apply UInt8.toBitVec_inj.mp
  ext i hi
  simp [Bool.and_xor_distrib_right]

/-- Two messages have the same cipher when the texts differ as the messages do. -/
theorem cipher_eq_iff {text text' : ℕ → UInt8} {addresses : List ℕ} {m1 m2 : List UInt8}
    (h1 : m1.length = addresses.length) (h2 : m2.length = addresses.length) :
    cipher text' addresses m2 = cipher text addresses m1 ↔
      ∀ use ∈ differences addresses m1 m2, text' use.1 = text use.1 ^^^ use.2 := by
  induction addresses generalizing m1 m2 with
  | nil =>
    rw [List.length_eq_zero_iff.mp h1, List.length_eq_zero_iff.mp h2]
    exact iff_of_true rfl nofun
  | cons a addresses ih =>
    obtain ⟨byte1, m1, rfl⟩ := List.exists_cons_of_length_eq_add_one h1
    obtain ⟨byte2, m2, rfl⟩ := List.exists_cons_of_length_eq_add_one h2
    rw [List.length_cons, List.length_cons, Nat.succ_inj] at h1 h2
    simp only [cipher, differences, List.zipWith_cons_cons, List.zip_cons_cons,
      List.cons.injEq, List.forall_mem_cons]
    exact and_congr xor_eq_iff (ih h1 h2)

/-- The text changed where it is used, as the messages differ there. -/
def explain (text : ℕ → UInt8) (uses : List (ℕ × UInt8)) (a : ℕ) : UInt8 :=
  match uses.find? fun use ↦ use.1 = a with
  | some use => text a ^^^ use.2
  | none => text a

theorem explain_cases (text : ℕ → UInt8) (uses : List (ℕ × UInt8)) (a : ℕ) :
    explain text uses a = text a ∧ (∀ use ∈ uses, use.1 ≠ a) ∨
      ∃ use ∈ uses, use.1 = a ∧ explain text uses a = text a ^^^ use.2 := by
  unfold explain
  cases hfind : uses.find? fun use ↦ use.1 = a with
  | none =>
    refine .inl ⟨rfl, fun use huse haddress ↦ ?_⟩
    exact List.find?_eq_none.mp hfind use huse (decide_eq_true haddress)
  | some use =>
    have haddress := List.find?_some hfind
    exact .inr ⟨use, List.mem_of_find?_eq_some hfind, of_decide_eq_true haddress, rfl⟩

/-- Some text explains the other message exactly when the differences are such that one can. -/
theorem exists_text_iff (text : ℕ → UInt8) (mask : UInt8) (clear : List ℕ) {addresses : List ℕ}
    {m1 m2 : List UInt8} (htext : ∀ a, text a &&& mask = 0)
    (h1 : m1.length = addresses.length) (h2 : m2.length = addresses.length) :
    (∃ text' : ℕ → UInt8, (∀ a, text' a &&& mask = 0) ∧ (∀ a ∈ clear, text' a = text a) ∧
        cipher text' addresses m2 = cipher text addresses m1) ↔
      Explained mask clear (differences addresses m1 m2) := by
  constructor
  · rintro ⟨text', hmask, hclear, hcipher⟩ use huse
    have hexplains := (cipher_eq_iff h1 h2).mp hcipher
    have hdifference : text use.1 ^^^ text' use.1 = use.2 := by
      rw [hexplains use huse, ← UInt8.xor_assoc, UInt8.xor_self, UInt8.zero_xor]
    refine ⟨?_, fun hmem ↦ ?_, fun other hother haddress ↦ ?_⟩
    · rw [← hdifference, xor_and_distrib, htext, hmask, UInt8.xor_self]
    · rw [← hdifference, hclear _ hmem, UInt8.xor_self]
    · rw [← hdifference, ← haddress, hexplains other hother, ← UInt8.xor_assoc, UInt8.xor_self,
        UInt8.zero_xor]
  · intro hexplained
    refine ⟨explain text (differences addresses m1 m2), fun a ↦ ?_, fun a hmem ↦ ?_,
      (cipher_eq_iff h1 h2).mpr fun use huse ↦ ?_⟩
    · rcases explain_cases text (differences addresses m1 m2) a with ⟨h, _⟩ | ⟨use, huse, _, h⟩
      · rw [h, htext]
      · rw [h, xor_and_distrib, htext, (hexplained use huse).1, UInt8.xor_self]
    · rcases explain_cases text (differences addresses m1 m2) a with ⟨h, _⟩ | ⟨use, huse, rfl, h⟩
      · exact h
      · rw [h, (hexplained use huse).2.1 hmem, UInt8.xor_zero]
    · rcases explain_cases text (differences addresses m1 m2) use.1 with
        ⟨_, hunused⟩ | ⟨other, hother, haddress, h⟩
      · exact absurd rfl (hunused use huse)
      · rw [h, (hexplained use huse).2.2 other hother haddress]

/-! ## Where a stream stands in a ring of keys -/

/-- Where a block stands: its key's index in the ring, the position there and the length. -/
structure Place where
  key : ℕ
  curpos : ℕ
  length : ℕ
  deriving DecidableEq

variable (full : ℕ → ℕ → Prop) [DecidableRel full] (sizes : List ℕ)

/-- The place of a block behind what is used of the current key or, when a key of this size is full
with the end of the block, at the start of the next one. -/
def place (key curpos length : ℕ) : Place :=
  if full (sizes.getD key 0) (curpos + length) then ⟨(key + 1) % sizes.length, 0, length⟩
  else ⟨key, curpos, length⟩

/-- The places of blocks of the given lengths. -/
def layout : ℕ → ℕ → List ℕ → List Place
  | _, _, [] => []
  | key, curpos, length :: rest =>
      let p := place full sizes key curpos length
      p :: layout p.key (p.curpos + length) rest

variable {full sizes}

theorem length_place (key curpos length : ℕ) :
    (place full sizes key curpos length).length = length := by
  unfold place
  split_ifs <;> rfl

theorem map_eq_map_iff_forall₂ {β γ δ : Type*} {g : β → δ} {g' : γ → δ} {l : List β} {l' : List γ} :
    l.map g = l'.map g' ↔ List.Forall₂ (fun b c ↦ g b = g' c) l l' := by
  rw [← List.forall₂_eq_eq_eq, List.forall₂_map_left_iff, List.forall₂_map_right_iff]

/-- The blocks lie in their keys. -/
def Fits (sizes : List ℕ) (places : List Place) : Prop :=
  ∀ p ∈ places, p.curpos + p.length ≤ sizes.getD p.key 0

instance decidableFits (sizes : List ℕ) (places : List Place) : Decidable (Fits sizes places) :=
  inferInstanceAs (Decidable (∀ p ∈ places, _))

/-- Where each byte stands within its key. -/
def offsets (places : List Place) : List ℕ :=
  places.flatMap fun p ↦ (List.range p.length).map (p.curpos + ·)

/-- Where each byte stands in a text of keys of one size. -/
def addresses (size : ℕ) (places : List Place) : List ℕ :=
  places.flatMap fun p ↦ (List.range p.length).map (p.key * size + p.curpos + ·)

/-- Where in this text the first eight bytes of the used keys stand. -/
def numbers (size : ℕ) (places : List Place) : List ℕ :=
  places.flatMap fun p ↦ (List.range 8).map (p.key * size + ·)

/-- Without keys only blocks without data fit. -/
theorem Fits.length_eq_zero {places : List Place} (h : Fits [] places) {p : Place}
    (hp : p ∈ places) : p.length = 0 :=
  Nat.eq_zero_of_add_eq_zero_left (Nat.le_zero.mp (h p hp))

theorem Fits.offsets_eq_nil {places : List Place} (h : Fits [] places) : offsets places = [] := by
  rw [offsets, List.flatMap_eq_nil_iff]
  intro p hp
  rw [h.length_eq_zero hp]
  rfl

theorem Fits.addresses_eq_nil {places : List Place} (h : Fits [] places) {size : ℕ} :
    addresses size places = [] := by
  rw [addresses, List.flatMap_eq_nil_iff]
  intro p hp
  rw [h.length_eq_zero hp]
  rfl

end QNet.Pad
