import Mathlib.FieldTheory.Finite.GaloisField
import Mathlib.SetTheory.Cardinal.Finite
import QNet.Lib.ErasureCode
import QNet.Lib.Memory

/-!
# Block datagrams of the Reed-Solomon mode

With option `-g` the tunnel of `rsctapudp` cuts every packet into ten blocks of 192 bytes, adds
four recovery blocks and sends each of the fourteen blocks in a datagram of its own, behind one
byte with the number of the block. The packet is preceded by its length, so the blocks hold
`cnt16`, the packet, and whatever stands behind it in the buffer.

This module models what the sender makes of a packet and what the receiver makes of the blocks
it was able to restore. `reassemble_of_consistent` closes the circle: blocks of one packet give
back that packet.
-/

namespace QNet.RsTunnel

open Mem

def originalCount : ℕ := 10
def recoveryCount : ℕ := 4
def bufferBytes : ℕ := 192

abbrev Block := Fin bufferBytes → UInt8

abbrev BlockSlots := Slots originalCount recoveryCount

/-- What `leo_encode` and `leo_decode` are assumed to be. -/
abbrev Leopard := ErasureCode originalCount recoveryCount Block

/-- One datagram: the block index and the block. -/
structure Datagram (β : Type*) where
  curind : UInt8
  block : β

/-- A packet in the buffer of the send branch. The branch reads at most 1518 bytes from the TAP
device, so header, key, padding and key id included it stays below ten blocks. -/
structure TxFrame where
  buf : Mem
  cnt : ℕ
  cnt_le : cnt ≤ originalCount * bufferBytes - 2

/-- The bytes of the packet. -/
def TxFrame.packet (frame : TxFrame) : List UInt8 := frame.buf.slice 0 frame.cnt

/-- A packet of no bytes, in an empty buffer. -/
def emptyFrame : TxFrame := ⟨fun _ ↦ 0, 0, Nat.zero_le _⟩

/-! ## Sender -/

/-- The packet is moved up by two bytes and `cnt16` is put before it. -/
def prefixLength (buf : Mem) (cnt : ℕ) : Mem := (buf.memmove 2 0 cnt).store 0 (le16 cnt)

def originalDataSend (bufp : Mem) (i : Fin originalCount) : Block :=
  fun b ↦ bufp (i * bufferBytes + b)

/-- The ten blocks of a packet. -/
def TxFrame.originals (frame : TxFrame) : Fin originalCount → Block :=
  originalDataSend (prefixLength frame.buf frame.cnt)

/-- Block number `i` of the group: the originals first, then the recovery blocks. -/
def blockOf (leo : Leopard) (frame : TxFrame) (i : Fin (recoveryCount + originalCount)) : Block :=
  if h : i.val < originalCount then frame.originals ⟨i, h⟩
  else leo.encode frame.originals ⟨i - originalCount, by have := i.isLt; omega⟩

/-- The index of the group that follows, for the sender and for the receiver. -/
def nextGroup (curnum : ℕ) : ℕ :=
  if curnum > 200 - recoveryCount - originalCount then 0
  else curnum + (recoveryCount + originalCount)

/-- Block number `i` of a packet behind its index; `curn` counts up from `curnum_send`. -/
def sendBlock (leo : Leopard) (frame : TxFrame) (curnumSend : ℕ)
    (i : Fin (recoveryCount + originalCount)) : Datagram Block :=
  ⟨UInt8.ofNat (curnumSend + i), blockOf leo frame i⟩

/-- The fourteen datagrams of a packet, in the order in which they are sent. -/
def sendBlocks (leo : Leopard) (frame : TxFrame) (curnumSend : ℕ) : List (Datagram Block) :=
  List.ofFn (sendBlock leo frame curnumSend)

/-- `curnum_send` when packet number `k` of the run is sent. -/
def curnumSend : ℕ → ℕ
  | 0 => 0
  | k + 1 => nextGroup (curnumSend k)

/-- The groups are numbered 0, 14, ..., 196 and then start again. -/
theorem curnumSend_eq (k : ℕ) : curnumSend k = 14 * (k % 15) := by
  induction k with
  | zero => rfl
  | succ k ih =>
    rw [curnumSend, ih]
    unfold nextGroup recoveryCount originalCount
    split_ifs <;> omega

theorem curnumSend_le (k : ℕ) : curnumSend k ≤ 196 := by rw [curnumSend_eq]; omega

theorem curnumSend_dvd (k : ℕ) : curnumSend k % 14 = 0 := by rw [curnumSend_eq]; omega

/-! ## Reassembly -/

/-- Copy restored blocks `1..n` behind the first one. -/
def copyBlocks (blocks : Fin originalCount → Block) (m : Mem) : ℕ → Mem
  | 0 => m
  | n + 1 =>
      let copied := copyBlocks blocks m n
      if h : n + 1 < originalCount then
        copied.store ((n + 1) * bufferBytes - 2) (List.ofFn (blocks ⟨n + 1, h⟩))
      else copied

/-- After a successful `leo_decode`: `cnt16` is read from the first block, the rest of it and
the nine other blocks are copied to the start of the buffer. -/
def joinBlocks (bufp : Mem) (blocks : Fin originalCount → Block) : Mem × ℕ :=
  let first := List.ofFn (blocks ⟨0, by decide⟩)
  (copyBlocks blocks (bufp.store 0 (first.drop 2)) (originalCount - 1),
    readLe16 (bufp.store 0 first) 0)

/-- The decode step: `leo_decode` on the blocks in the slots and, on success, the buffer and the
length that go on to decryption. -/
def reassemble (leo : Leopard) (bufp : Mem) (slots : BlockSlots Block) : Option (Mem × ℕ) :=
  (leo.decode slots).map fun decodeWorkData ↦ joinBlocks bufp (slots.fill decodeWorkData)

theorem copyBlocks_apply (blocks : Fin originalCount → Block) (m : Mem) (n : ℕ)
    (hn : n < originalCount)
    (hfirst : ∀ b (h : b + 2 < bufferBytes), m b = blocks ⟨0, by decide⟩ ⟨b + 2, h⟩)
    (i : Fin originalCount) (hi : i.val ≤ n) (b : Fin bufferBytes) (hb : 2 ≤ i * bufferBytes + b) :
    copyBlocks blocks m n (i * bufferBytes + b - 2) = blocks i b := by
  induction n with
  | zero =>
    obtain ⟨i, hlt⟩ := i
    obtain rfl : i = 0 := Nat.le_zero.mp hi
    simp only [Nat.zero_mul, Nat.zero_add] at hb ⊢
    rw [copyBlocks, hfirst (b - 2) (by omega)]
    congr 1
    exact Fin.ext (Nat.sub_add_cancel hb)
  | succ n ih =>
    rw [copyBlocks, dif_pos hn]
    have hb' := b.isLt
    have hbytes : bufferBytes = 192 := rfl
    rcases Nat.lt_or_eq_of_le hi with hlt | heq
    · have hle : i.val * bufferBytes ≤ n * bufferBytes := Nat.mul_le_mul_right _ (by omega)
      rw [store_of_lt (by rw [Nat.succ_mul]; omega)]
      exact ih (by omega) (by omega)
    · obtain ⟨i, hlt⟩ := i
      subst heq
      have hoff : (n + 1) * bufferBytes + b - 2 = (n + 1) * bufferBytes - 2 + b := by
        rw [Nat.succ_mul]; omega
      rw [hoff, store_of_mem (by simp)]
      simp

theorem joinBlocks_snd (bufp : Mem) (frame : TxFrame) :
    (joinBlocks bufp frame.originals).2 = frame.cnt := by
  have hcnt : frame.cnt ≤ 1918 := frame.cnt_le
  have hbytes : bufferBytes = 192 := rfl
  apply readLe16_of_holds _ (by omega)
  rw [holds_iff]
  intro i hi
  have hstored : i < (List.ofFn (frame.originals ⟨0, by decide⟩)).length := by
    rw [length_le16] at hi
    rw [List.length_ofFn]
    omega
  rw [store_of_mem hstored]
  simp only [List.getElem_ofFn, TxFrame.originals, originalDataSend, Nat.zero_mul, prefixLength]
  exact store_of_mem hi

theorem joinBlocks_apply (bufp : Mem) (blocks : Fin originalCount → Block) (p : ℕ)
    (hi : (p + 2) / bufferBytes < originalCount) :
    (joinBlocks bufp blocks).1 p =
      blocks ⟨(p + 2) / bufferBytes, hi⟩ ⟨(p + 2) % bufferBytes, Nat.mod_lt _ (by decide)⟩ := by
  have hcopied := copyBlocks_apply blocks
    (bufp.store 0 ((List.ofFn (blocks ⟨0, by decide⟩)).drop 2)) (originalCount - 1) (by decide)
    (fun b h ↦ by
      have hlength : b < ((List.ofFn (blocks ⟨0, by decide⟩)).drop 2).length := by
        rw [List.length_drop, List.length_ofFn]
        omega
      have hstored : bufp.store 0 _ (0 + b) = _ := store_of_mem hlength
      rw [Nat.zero_add] at hstored
      simp only [hstored, List.getElem_drop, List.getElem_ofFn, Nat.add_comm 2 b])
    ⟨_, hi⟩ (Nat.le_pred_of_lt hi) ⟨(p + 2) % bufferBytes, Nat.mod_lt _ (by decide)⟩
    (by rw [Nat.div_add_mod']; omega)
  simp only [Nat.div_add_mod', Nat.add_sub_cancel] at hcopied
  exact hcopied

/-- Joining the blocks of a packet gives the packet back. -/
theorem joinBlocks_originals (bufp : Mem) (frame : TxFrame) :
    (joinBlocks bufp frame.originals).1.slice 0 frame.cnt = frame.packet := by
  have hcnt : frame.cnt ≤ 1918 := frame.cnt_le
  refine slice_congr fun p hp ↦ ?_
  have hi : (p + 2) / bufferBytes < originalCount := by
    unfold bufferBytes originalCount
    omega
  rw [Nat.zero_add, joinBlocks_apply bufp _ p hi]
  simp only [TxFrame.originals, originalDataSend, Nat.div_add_mod', prefixLength]
  rw [store_of_ge (by simp), Nat.add_comm p 2, memmove_of_mem hp, Nat.zero_add]

/-- Blocks that all belong to one packet are reassembled to that packet. -/
theorem reassemble_of_consistent (leo : Leopard) (bufp : Mem) (frame : TxFrame)
    {slots : BlockSlots Block} {out : Mem × ℕ}
    (hslots : slots.Consistent leo.encode frame.originals)
    (hout : reassemble leo bufp slots = some out) :
    out.1.slice 0 out.2 = frame.packet := by
  obtain ⟨work, hwork, rfl⟩ := Option.map_eq_some_iff.mp hout
  rw [leo.fill_eq hslots hwork]
  rw [joinBlocks_snd, joinBlocks_originals]

/-- When all originals of a packet arrived, it is delivered whatever else is in the slots. -/
theorem reassemble_of_originals (leo : Leopard) (bufp : Mem) (frame : TxFrame)
    {slots : BlockSlots Block} (horiginal : ∀ i, slots.original i = some (frame.originals i)) :
    ∃ out, reassemble leo bufp slots = some out ∧ out.1.slice 0 out.2 = frame.packet := by
  obtain ⟨work, hwork⟩ := leo.exists_decode horiginal
  refine ⟨joinBlocks bufp frame.originals, ?_, ?_⟩
  · rw [reassemble, hwork, Option.map_some, Slots.fill_of_original horiginal]
  · rw [joinBlocks_snd, joinBlocks_originals]

/-! ## The assumption on the erasure code can be met -/

def byteEquiv : UInt8 ≃ Fin 256 where
  toFun := UInt8.toFin
  invFun := UInt8.ofFin
  left_inv _ := rfl
  right_inv _ := rfl

instance finiteUInt8 : Finite UInt8 := Finite.of_equiv _ byteEquiv.symm

theorem card_block : Nat.card (GaloisField 2 1536) = Nat.card Block := by
  have hcard : Nat.card Block = ∏ _ : Fin bufferBytes, Nat.card UInt8 := Nat.card_pi
  simp only [Nat.card_congr byteEquiv, Nat.card_fin, Finset.prod_const, Finset.card_univ,
    Fintype.card_fin] at hcard
  rw [GaloisField.card 2 1536 (by decide), hcard, show (256 : ℕ) = 2 ^ 8 from rfl, ← pow_mul,
    show 8 * bufferBytes = 1536 from rfl]

/-- Fourteen different blocks. -/
def samplePoint (position : Fin originalCount ⊕ Fin recoveryCount) : Block :=
  fun _ ↦ UInt8.ofNat (finSumFinEquiv position)

theorem samplePoint_injective : Function.Injective samplePoint := by
  intro first second h
  have hbyte := congrArg UInt8.toNat (congrFun h ⟨0, by decide⟩)
  have hfirst : (finSumFinEquiv first : ℕ) < 14 := (finSumFinEquiv first).isLt
  have hsecond : (finSumFinEquiv second : ℕ) < 14 := (finSumFinEquiv second).isLt
  simp only [samplePoint, UInt8.toNat_ofNat'] at hbyte
  exact finSumFinEquiv.injective (Fin.ext (by omega))

/-- A code which meets the assumption on Leopard: interpolation over the field with as many
elements as there are blocks. -/
noncomputable def sampleLeopard : Leopard :=
  let e : GaloisField 2 1536 ≃ Block := (Finite.card_eq.mp card_block).some
  (ErasureCode.interpolation (fun position ↦ e.symm (samplePoint position))
    (e.symm.injective.comp samplePoint_injective)).congr e

end QNet.RsTunnel
