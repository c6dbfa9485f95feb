import Mathlib.LinearAlgebra.Lagrange

/-!
# Systematic erasure codes

A `(k, m)` erasure code adds `m` recovery blocks to `k` original blocks. The decoder is given
what arrived: `none` marks a lost block. It answers as soon as at least as many recovery blocks
arrived as originals were lost, and restores every lost original when all blocks it was given
belong to one codeword. Nothing is promised about blocks of different codewords.

The laws are fields of `ErasureCode`, so a code comes with its correctness. Polynomial
interpolation over a large enough field gives such a code for all `k` and `m`.
-/

open Polynomial

namespace QNet

variable {k m : ℕ} {β γ : Type*}

/-- The blocks a decoder is given. -/
structure Slots (k m : ℕ) (β : Type*) where
  original : Fin k → Option β
  recovery : Fin m → Option β

namespace Slots

def none : Slots k m β := ⟨fun _ ↦ .none, fun _ ↦ .none⟩

def map (f : β → γ) (slots : Slots k m β) : Slots k m γ :=
  ⟨fun i ↦ (slots.original i).map f, fun j ↦ (slots.recovery j).map f⟩

/-- Number of lost originals. -/
def lossCount (slots : Slots k m β) : ℕ :=
  (Finset.univ.filter fun i ↦ slots.original i = .none).card

/-- Number of recovery blocks that arrived. -/
def gotCount (slots : Slots k m β) : ℕ :=
  (Finset.univ.filter fun j ↦ (slots.recovery j).isSome).card

/-- Every block present is the block of the codeword of `data` at its position. -/
def Consistent (encode : (Fin k → β) → Fin m → β) (data : Fin k → β) (slots : Slots k m β) :
    Prop :=
  (∀ i b, slots.original i = some b → b = data i) ∧
    ∀ j b, slots.recovery j = some b → b = encode data j

/-- The originals a receiver reads: those that arrived and, for the lost ones, the decoder's. -/
def fill (slots : Slots k m β) (work : Fin k → β) : Fin k → β :=
  fun i ↦ (slots.original i).getD (work i)

/-- Where all originals arrived nothing of the decoder is read. -/
theorem fill_of_original {slots : Slots k m β} {data : Fin k → β}
    (horiginal : ∀ i, slots.original i = some (data i)) (work : Fin k → β) :
    slots.fill work = data := by
  funext i
  rw [fill, horiginal i, Option.getD_some]

@[simp]
theorem original_map (f : β → γ) (slots : Slots k m β) (i : Fin k) :
    (slots.map f).original i = (slots.original i).map f := rfl

@[simp]
theorem recovery_map (f : β → γ) (slots : Slots k m β) (j : Fin m) :
    (slots.map f).recovery j = (slots.recovery j).map f := rfl

@[simp]
theorem map_none (f : β → γ) : (none : Slots k m β).map f = none := rfl

end Slots

/-- A systematic erasure code together with what its decoder guarantees. -/
structure ErasureCode (k m : ℕ) (β : Type*) where
  encode : (Fin k → β) → Fin m → β
  /-- The restored originals, or `none` where the decoder reports failure. -/
  decode : Slots k m β → Option (Fin k → β)
  /-- The decoder succeeds exactly when enough blocks arrived. -/
  decode_isSome : ∀ slots, (decode slots).isSome ↔ slots.lossCount ≤ slots.gotCount
  /-- On blocks of one codeword it restores what was lost. -/
  decode_restores : ∀ data slots work, slots.Consistent encode data →
    decode slots = some work → ∀ i, slots.original i = none → work i = data i

namespace ErasureCode

/-- Reading originals where they arrived and restored blocks elsewhere gives the encoded data. -/
theorem fill_eq (code : ErasureCode k m β) {data : Fin k → β} {slots : Slots k m β}
    {work : Fin k → β} (hslots : slots.Consistent code.encode data)
    (hdecode : code.decode slots = some work) : slots.fill work = data := by
  funext i
  unfold Slots.fill
  cases horiginal : slots.original i with
  | none => exact code.decode_restores data slots work hslots hdecode i horiginal
  | some b => exact hslots.1 i b horiginal

/-- With all originals the decoder succeeds. -/
theorem exists_decode (code : ErasureCode k m β) {data : Fin k → β} {slots : Slots k m β}
    (horiginal : ∀ i, slots.original i = some (data i)) :
    ∃ work, code.decode slots = some work := by
  have hloss : slots.lossCount = 0 := by
    rw [Slots.lossCount, Finset.card_eq_zero, Finset.filter_eq_empty_iff]
    intro i _
    rw [horiginal i]
    exact Option.some_ne_none _
  apply Option.isSome_iff_exists.mp
  rw [code.decode_isSome, hloss]
  exact Nat.zero_le _

/-- The same code over another block type. -/
def congr (code : ErasureCode k m β) (e : β ≃ γ) : ErasureCode k m γ where
  encode data j := e (code.encode (fun i ↦ e.symm (data i)) j)
  decode slots := (code.decode (slots.map e.symm)).map fun work i ↦ e (work i)
  decode_isSome slots := by
    rw [Option.isSome_map, code.decode_isSome]
    simp [Slots.lossCount, Slots.gotCount]
  decode_restores data slots work hslots hdecode i hlost := by
    obtain ⟨work', hwork', rfl⟩ := Option.map_eq_some_iff.mp hdecode
    have hconsistent : (slots.map e.symm).Consistent code.encode fun i ↦ e.symm (data i) := by
      refine ⟨fun i b hb ↦ ?_, fun j b hb ↦ ?_⟩
      · obtain ⟨b', hb', rfl⟩ := Option.map_eq_some_iff.mp hb
        rw [hslots.1 i b' hb']
      · obtain ⟨b', hb', rfl⟩ := Option.map_eq_some_iff.mp hb
        rw [hslots.2 j b' hb', e.symm_apply_apply]
    have hrestored := code.decode_restores _ _ work' hconsistent hwork' i (by simp [hlost])
    change e (work' i) = data i
    rw [hrestored, e.apply_symm_apply]

/-! ## Codes from polynomial interpolation -/

section Interpolation

variable {F : Type*} [Field F]

/-- The block at a position of the codeword, where it arrived. -/
def blockAt (slots : Slots k m β) : Fin k ⊕ Fin m → Option β :=
  Sum.elim slots.original slots.recovery

def known (slots : Slots k m β) : Finset (Fin k ⊕ Fin m) :=
  Finset.univ.filter fun position ↦ (blockAt slots position).isSome

theorem card_known (slots : Slots k m β) :
    (known slots).card + slots.lossCount = k + slots.gotCount := by
  have hsplit : (known slots).card =
      (Finset.univ.filter fun i ↦ (slots.original i).isSome).card + slots.gotCount := by
    simp only [known, Slots.gotCount, Finset.card_filter, Fintype.sum_sum_type]
    rfl
  have horiginal := Finset.card_filter_add_card_filter_not
    (s := (Finset.univ : Finset (Fin k))) fun i ↦ (slots.original i).isSome = true
  simp only [Option.isSome_iff_ne_none, ne_eq, not_not, Finset.card_univ, Fintype.card_fin]
    at horiginal hsplit
  rw [Slots.lossCount, hsplit]
  omega

/-- The polynomial through the originals. -/
noncomputable def dataPolynomial (point : Fin k ⊕ Fin m → F) (data : Fin k → F) : F[X] :=
  Lagrange.interpolate Finset.univ (fun i ↦ point (.inl i)) data

/-- The polynomial through all blocks that arrived. -/
noncomputable def knownPolynomial (point : Fin k ⊕ Fin m → F) (slots : Slots k m F) : F[X] :=
  Lagrange.interpolate (known slots) point fun position ↦ (blockAt slots position).getD 0

theorem knownPolynomial_eq (point : Fin k ⊕ Fin m → F) (hpoint : Function.Injective point)
    {data : Fin k → F} {slots : Slots k m F}
    (hslots : slots.Consistent
      (fun data j ↦ (dataPolynomial point data).eval (point (.inr j))) data)
    (henough : slots.lossCount ≤ slots.gotCount) :
    knownPolynomial point slots = dataPolynomial point data := by
  have horiginals : Set.InjOn (fun i ↦ point (Sum.inl i : Fin k ⊕ Fin m))
      (Finset.univ : Finset (Fin k)) :=
    (hpoint.comp Sum.inl_injective).injOn
  symm
  apply Lagrange.eq_interpolate_of_eval_eq _ hpoint.injOn
  · have hdegree := Lagrange.degree_interpolate_lt data horiginals
    have hcard := card_known slots
    rw [Finset.card_univ, Fintype.card_fin] at hdegree
    exact hdegree.trans_le (by exact_mod_cast (by omega : k ≤ (known slots).card))
  · intro position hposition
    obtain ⟨b, hb⟩ := Option.isSome_iff_exists.mp (Finset.mem_filter.mp hposition).2
    rw [hb, Option.getD_some]
    cases position with
    | inl i =>
      rw [hslots.1 i b hb, dataPolynomial,
        Lagrange.eval_interpolate_at_node data horiginals (Finset.mem_univ i)]
    | inr j => exact (hslots.2 j b hb).symm

/-- Original blocks are values of a polynomial of degree below `k`, recovery blocks its values at
further points; any `k` of them determine it. -/
noncomputable def interpolation (point : Fin k ⊕ Fin m → F) (hpoint : Function.Injective point) :
    ErasureCode k m F where
  encode data j := (dataPolynomial point data).eval (point (.inr j))
  decode slots :=
    if slots.lossCount ≤ slots.gotCount then
      some fun i ↦ (knownPolynomial point slots).eval (point (.inl i))
    else none
  decode_isSome slots := by split <;> simp_all
  decode_restores data slots work hslots hdecode i _ := by
    split at hdecode
    · rename_i henough
      cases hdecode
      change (knownPolynomial point slots).eval (point (.inl i)) = data i
      rw [knownPolynomial_eq point hpoint hslots henough, dataPolynomial]
      exact Lagrange.eval_interpolate_at_node data (v := fun i ↦ point (.inl i))
        (hpoint.comp Sum.inl_injective).injOn (Finset.mem_univ i)
    · cases hdecode

end Interpolation

end ErasureCode

end QNet
