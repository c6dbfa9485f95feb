import QNet.RsTunnel.Blocks

/-!
# The receive branch of the Reed-Solomon mode

The receiver collects block datagrams in the pointer arrays `original_data_recv` and
`encode_work_data_recv` and calls `leo_decode` when `curcount` exceeds `original_count`. Its
state is the group it collects (`curnum_recv`), the number of blocks stored since the arrays
were last cleared (`curcount`) and the number of blocks refused since the last restart
(`curnum_recv_drop`).

Nothing but the block index decides what happens to a block, so the model is generic in what a
block is: the program stores blocks of 192 bytes, the proofs run the same receiver on marks that
say where a block came from. `recvBlock_map` relates the two.
-/

namespace QNet.RsTunnel

variable {β γ : Type*}

structure Recv (β : Type*) where
  curcount : ℕ
  curnumRecv : ℕ
  curnumRecvDrop : ℕ
  slots : BlockSlots β

namespace Recv

/-- The state at the start of the program; the pointer arrays are null. -/
def init : Recv β := ⟨0, 0, 0, Slots.none⟩

def map (f : β → γ) (s : Recv β) : Recv γ :=
  ⟨s.curcount, s.curnumRecv, s.curnumRecvDrop, s.slots.map f⟩

end Recv

/-- The index of the first block of the group of block `curind`. -/
def groupOf (curind : UInt8) : ℕ :=
  curind.toNat - curind.toNat % (recoveryCount + originalCount)

/-- The position of a block in its group. -/
def positionOf (curind : UInt8) : ℕ := curind.toNat % (recoveryCount + originalCount)

/-- The condition of the outer branch, under which the receiver does not ask whether the block
is of the group it collects. -/
def Recv.Restarting (s : Recv β) (curind : UInt8) : Prop :=
  (s.curcount = 0 ∨ s.curnumRecvDrop > originalCount) ∧
    (s.curnumRecv = 0 ∨ s.curnumRecv ≠ groupOf curind)

instance (s : Recv β) (curind : UInt8) : Decidable (s.Restarting curind) :=
  inferInstanceAs (Decidable (_ ∧ _))

/-- A restart on `curind` empties the arrays and waits for the group behind the one of `curind`. -/
def Recv.restart (s : Recv β) (curind : UInt8) : Recv β :=
  { s with
    curnumRecv := groupOf curind + recoveryCount + originalCount
    curnumRecvDrop := 0
    curcount := 0
    slots := Slots.none }

/-- Put a block in the slot of its position. -/
def putSlot (slots : BlockSlots β) (position : ℕ) (podr : β) : BlockSlots β where
  original i := if i.val = position then some podr else slots.original i
  recovery j := if originalCount + j.val = position then some podr else slots.recovery j

/-- Store a block; with more than `original_count` blocks stored, hand the slots to `leo_decode`,
clear them and wait for the next group, whatever the decoder answers. -/
def Recv.store (s : Recv β) (curind : UInt8) (podr : β) : Recv β × Option (BlockSlots β) :=
  let slots := putSlot s.slots (positionOf curind) podr
  if s.curcount + 1 > originalCount then
    ({ s with curcount := 0, curnumRecv := nextGroup s.curnumRecv, slots := Slots.none },
      some slots)
  else ({ s with curcount := s.curcount + 1, slots := slots }, none)

/-- One block datagram: the state after it and the slots given to `leo_decode`, if it is called. -/
def recvBlock (s : Recv β) (d : Datagram β) : Recv β × Option (BlockSlots β) :=
  if s.Restarting d.curind then
    if d.curind ≤ 196 then (s.restart d.curind).store d.curind d.block
    else s.store d.curind d.block
  else if s.curnumRecv ≠ groupOf d.curind then
    ({ s with curnumRecvDrop := s.curnumRecvDrop + 1 }, none)
  else s.store d.curind d.block

/-! ## What one datagram can do -/

/-- A block of a group that is not collected is dropped. -/
theorem recvBlock_of_drop {s : Recv β} {d : Datagram β} (hrestart : ¬ s.Restarting d.curind)
    (hgroup : s.curnumRecv ≠ groupOf d.curind) :
    recvBlock s d = ({ s with curnumRecvDrop := s.curnumRecvDrop + 1 }, none) := by
  rw [recvBlock, if_neg hrestart, if_pos hgroup]

/-- A block of the collected group is stored. -/
theorem recvBlock_of_awaited {s : Recv β} {d : Datagram β} (hrestart : ¬ s.Restarting d.curind)
    (hgroup : s.curnumRecv = groupOf d.curind) :
    recvBlock s d = s.store d.curind d.block := by
  rw [recvBlock, if_neg hrestart, if_neg (not_not.mpr hgroup)]

/-- A restart leaves exactly one block in the slots, and it is not of the group waited for. -/
theorem recvBlock_of_restart {s : Recv β} {d : Datagram β} (hrestart : s.Restarting d.curind)
    (hindex : d.curind ≤ 196) :
    recvBlock s d =
      (⟨1, groupOf d.curind + recoveryCount + originalCount, 0,
        putSlot Slots.none (positionOf d.curind) d.block⟩, none) := by
  have hempty : ¬ (s.restart d.curind).curcount + 1 > originalCount := by
    change ¬ 0 + 1 > originalCount
    decide
  rw [recvBlock, if_pos hrestart, if_pos hindex, Recv.store, if_neg hempty]
  rfl

/-- From block 197 on the outer branch stores without a restart. -/
theorem recvBlock_of_late {s : Recv β} {d : Datagram β} (hrestart : s.Restarting d.curind)
    (hindex : ¬ d.curind ≤ 196) : recvBlock s d = s.store d.curind d.block := by
  rw [recvBlock, if_pos hrestart, if_neg hindex]

/-- The four things a block datagram can do. -/
theorem recvBlock_cases {P : Recv β × Option (BlockSlots β) → Prop} (s : Recv β) (d : Datagram β)
    (hdrop : ¬ s.Restarting d.curind → s.curnumRecv ≠ groupOf d.curind →
      P ({ s with curnumRecvDrop := s.curnumRecvDrop + 1 }, none))
    (hawaited : s.curnumRecv = groupOf d.curind → P (s.store d.curind d.block))
    (hrestart : s.Restarting d.curind → d.curind ≤ 196 →
      P (⟨1, groupOf d.curind + recoveryCount + originalCount, 0,
        putSlot Slots.none (positionOf d.curind) d.block⟩, none))
    (hlate : ¬ d.curind ≤ 196 → P (s.store d.curind d.block)) : P (recvBlock s d) := by
  by_cases h : s.Restarting d.curind
  · by_cases hindex : d.curind ≤ 196
    · rw [recvBlock_of_restart h hindex]
      exact hrestart h hindex
    · rw [recvBlock_of_late h hindex]
      exact hlate hindex
  · by_cases hgroup : s.curnumRecv = groupOf d.curind
    · rw [recvBlock_of_awaited h hgroup]
      exact hawaited hgroup
    · rw [recvBlock_of_drop h hgroup]
      exact hdrop h hgroup

theorem Recv.store_of_lt {s : Recv β} {curind : UInt8} {podr : β} (h : s.curcount < originalCount) :
    s.store curind podr =
      ({ s with
          curcount := s.curcount + 1
          slots := putSlot s.slots (positionOf curind) podr }, Option.none) := by
  rw [Recv.store, if_neg (by omega)]

theorem Recv.store_of_ge {s : Recv β} {curind : UInt8} {podr : β} (h : originalCount ≤ s.curcount) :
    s.store curind podr =
      ({ s with curcount := 0, curnumRecv := nextGroup s.curnumRecv, slots := Slots.none },
        some (putSlot s.slots (positionOf curind) podr)) := by
  rw [Recv.store, if_pos (by omega)]

/-! ## The receiver does not look into the blocks -/

@[simp]
theorem putSlot_map (f : β → γ) (slots : BlockSlots β) (position : ℕ) (podr : β) :
    (putSlot slots position podr).map f = putSlot (slots.map f) position (f podr) := by
  simp only [putSlot, Slots.map, apply_ite (Option.map f), Option.map_some]

theorem store_map (f : β → γ) (s : Recv β) (curind : UInt8) (podr : β) :
    (s.map f).store curind (f podr) =
      ((s.store curind podr).1.map f, (s.store curind podr).2.map (Slots.map f)) := by
  rcases Nat.lt_or_ge s.curcount originalCount with hlt | hge
  · rw [Recv.store_of_lt hlt, Recv.store_of_lt (s := s.map f) hlt]
    simp [Recv.map]
  · rw [Recv.store_of_ge hge, Recv.store_of_ge (s := s.map f) hge]
    simp [Recv.map]

theorem recvBlock_map (f : β → γ) (s : Recv β) (d : Datagram β) :
    recvBlock (s.map f) ⟨d.curind, f d.block⟩ =
      ((recvBlock s d).1.map f, (recvBlock s d).2.map (Slots.map f)) := by
  have hrestarting : (s.map f).Restarting d.curind ↔ s.Restarting d.curind := Iff.rfl
  have hrestart : (s.map f).restart d.curind = (s.restart d.curind).map f := by
    simp [Recv.restart, Recv.map]
  have hcurnum : (s.map f).curnumRecv = s.curnumRecv := rfl
  unfold recvBlock
  simp only [hrestarting, hrestart, hcurnum]
  split_ifs
  · exact store_map f _ _ _
  · exact store_map f _ _ _
  · rfl
  · exact store_map f _ _ _

/-! ## Indices a sender can produce -/

theorem toNat_curind {k : ℕ} (i : Fin (recoveryCount + originalCount)) :
    (UInt8.ofNat (curnumSend k + i)).toNat = curnumSend k + i := by
  have hk := curnumSend_le k
  have hi : i.val < 14 := i.isLt
  rw [UInt8.toNat_ofNat']
  omega

@[simp]
theorem groupOf_curind (k : ℕ) (i : Fin (recoveryCount + originalCount)) :
    groupOf (UInt8.ofNat (curnumSend k + i)) = curnumSend k := by
  have hk := curnumSend_dvd k
  have hi : i.val < 14 := i.isLt
  rw [groupOf, toNat_curind]
  unfold recoveryCount originalCount
  omega

@[simp]
theorem positionOf_curind (k : ℕ) (i : Fin (recoveryCount + originalCount)) :
    positionOf (UInt8.ofNat (curnumSend k + i)) = i := by
  have hk := curnumSend_dvd k
  have hi : i.val < 14 := i.isLt
  rw [positionOf, toNat_curind]
  unfold recoveryCount originalCount
  omega

theorem curind_le_iff (k : ℕ) (i : Fin (recoveryCount + originalCount)) :
    UInt8.ofNat (curnumSend k + i) ≤ 196 ↔ curnumSend k + i ≤ 196 := by
  rw [UInt8.le_iff_toNat_le, toNat_curind]
  rfl

/-- A block that is stored without restart although its group is not the collected one is of the
last group. -/
theorem curnumSend_of_late {k : ℕ} {i : Fin (recoveryCount + originalCount)}
    (h : ¬ UInt8.ofNat (curnumSend k + i) ≤ 196) : curnumSend k = 196 := by
  rw [curind_le_iff, curnumSend_eq] at h
  have hi : i.val < 14 := i.isLt
  rw [curnumSend_eq]
  omega

end QNet.RsTunnel
