import Mathlib.Data.List.ReduceOption
import QNet.Lib.Machine
import QNet.RsTunnel.Receiver

/-!
# What the Reed-Solomon tunnel hands to `leo_decode`

Sender, channel and receiver as one system. The sender transmits any sequence of packets; the
channel loses, duplicates and reorders the block datagrams as it likes. The only rule is that no
block of a packet arrives any more when the sender has reused its group index, so that two packets
with one index are never in flight at the same time. What the receiver stored before stays in its
slots.

The receiver runs on entries instead of blocks: an entry says which block of which packet was
stored, and whether it was stored because its group is the one the receiver collects. `run_erase`
shows that this is the program's own run, seen through `blockOf`.

On a restart the receiver stores the block it restarts on, but waits for the next group. The
block of the old group stays in its slot and is handed to `leo_decode` with blocks of the new
group, unless a block of the new group at the same position takes its place. And the receiver
knows a group by its index alone: blocks that were left of a packet are completed by those of the
fifteenth packet behind it, when nothing of the packets between arrives.
`integrity_iff` says exactly when the tunnel keeps the packets apart.
-/

namespace QNet.RsTunnel

/-- The origin of a block in a slot. -/
structure Entry where
  frame : ℕ
  pos : Fin (recoveryCount + originalCount)
  /-- Stored because its group is `curnum_recv`, not by the condition of the outer branch. -/
  awaited : Bool
  deriving DecidableEq

/-- The group index of the packet an entry belongs to. -/
def Entry.group (e : Entry) : ℕ := curnumSend e.frame

/-- The block an entry stands for, when the sender transmits `frames`. -/
def Entry.content (leo : Leopard) (frames : ℕ → TxFrame) (e : Entry) : Block :=
  blockOf leo (frames e.frame) e.pos

/-- The entry lies in one of the slots. -/
def Held (slots : BlockSlots Entry) (e : Entry) : Prop :=
  (∃ i, slots.original i = some e) ∨ ∃ j, slots.recovery j = some e

/-- The number of packets sent, the receiver, and the arguments of all calls of `leo_decode`. -/
structure Sys where
  sent : ℕ
  recv : Recv Entry
  calls : List (BlockSlots Entry)

inductive Event
  | send
  | deliver (k : ℕ) (i : Fin (recoveryCount + originalCount))
  deriving DecidableEq

namespace Sys

def init : Sys := ⟨0, Recv.init, []⟩

/-- Blocks of packet `k` arrive only until its group index is used again. -/
def CanDeliver (s : Sys) (k : ℕ) : Prop :=
  k < s.sent ∧ ∀ k' < s.sent, k < k' → curnumSend k' ≠ curnumSend k

instance (s : Sys) (k : ℕ) : Decidable (s.CanDeliver k) := inferInstanceAs (Decidable (_ ∧ _))

/-- The datagram of block `i` of packet `k`, as the receiver of entries sees it. -/
def datagram (s : Sys) (k : ℕ) (i : Fin (recoveryCount + originalCount)) : Datagram Entry :=
  let curind := UInt8.ofNat (curnumSend k + i)
  ⟨curind, ⟨k, i, !decide (s.recv.Restarting curind)⟩⟩

def deliver (s : Sys) (k : ℕ) (i : Fin (recoveryCount + originalCount)) : Sys :=
  let next := recvBlock s.recv (s.datagram k i)
  { s with recv := next.1, calls := s.calls ++ next.2.toList }

def next (s : Sys) : Event → Option Sys
  | .send => some { s with sent := s.sent + 1 }
  | .deliver k i => if s.CanDeliver k then some (s.deliver k i) else none

end Sys

def tunnel : Machine Sys Event := .ofNext Sys.init Sys.next

/-! ## The properties -/

/-- All blocks of a call belong to packet `k`, each in the slot of its position. -/
def FromFrame (k : ℕ) (call : BlockSlots Entry) : Prop :=
  (∀ i e, call.original i = some e → e.frame = k ∧ e.pos.val = i.val) ∧
    ∀ j e, call.recovery j = some e → e.frame = k ∧ e.pos.val = originalCount + j.val

/-- Every call of `leo_decode` was given blocks of one sent packet, and every packet that left the
reassembly is, byte for byte, a packet that was sent. -/
def Sys.Intact (leo : Leopard) (frames : ℕ → TxFrame) (s : Sys) : Prop :=
  ∀ call ∈ s.calls, (∃ k < s.sent, FromFrame k call) ∧
    ∀ bufp out, reassemble leo bufp (call.map (Entry.content leo frames)) = some out →
      ∃ k < s.sent, out.1.slice 0 out.2 = (frames k).packet

/-- Block `curind` is stored with the blocks that are in the slots. -/
def Recv.Stores (s : Recv Entry) (curind : UInt8) : Prop :=
  if s.Restarting curind then ¬ curind ≤ 196 else s.curnumRecv = groupOf curind

/-- It is, and `leo_decode` is called. -/
def Recv.Completes (s : Recv Entry) (curind : UInt8) : Prop :=
  originalCount ≤ s.curcount ∧ s.Stores curind

instance (s : Recv Entry) (curind : UInt8) : Decidable (s.Stores curind) :=
  inferInstanceAs (Decidable (ite _ _ _))

instance (s : Recv Entry) (curind : UInt8) : Decidable (s.Completes curind) :=
  inferInstanceAs (Decidable (_ ∧ _))

/-- What must hold of a block `e` in another slot when block `i` of packet `k` completes a call: it
got in the way this block does, because its group was the collected one or as a block of the last
group by the condition of the outer branch, and it is not of an earlier packet with the group index
of packet `k`. -/
def Sys.Matches (s : Sys) (k : ℕ) (i : Fin (recoveryCount + originalCount)) (e : Entry) : Prop :=
  (if s.recv.Restarting (s.datagram k i).curind then e.awaited = false ∧ e.group = 196
    else e.awaited = true) ∧
    (e.group = curnumSend k → ¬ e.frame < k)

instance (s : Sys) (k : ℕ) (i : Fin (recoveryCount + originalCount)) (e : Entry) :
    Decidable (s.Matches k i e) :=
  inferInstanceAs (Decidable (ite _ _ _ ∧ _))

/-- The condition on the state before a step: when the step completes a call, the blocks in the
other slots match. -/
def Sys.Apart (s : Sys) : Event → Prop
  | .send => True
  | .deliver k i =>
      s.recv.Completes (s.datagram k i).curind →
        ∀ e, Held s.recv.slots e → e.pos ≠ i → s.Matches k i e

/-! ## Slots -/

theorem forall_held_iff {slots : BlockSlots Entry} {P : Entry → Prop} :
    (∀ e, Held slots e → P e) ↔
      (∀ i, ∀ e ∈ slots.original i, P e) ∧ ∀ j, ∀ e ∈ slots.recovery j, P e := by
  constructor
  · intro h
    exact ⟨fun i e he ↦ h e (.inl ⟨i, he⟩), fun j e he ↦ h e (.inr ⟨j, he⟩)⟩
  · rintro ⟨horiginal, hrecovery⟩ e (⟨i, hi⟩ | ⟨j, hj⟩)
    · exact horiginal i e hi
    · exact hrecovery j e hj

instance (slots : BlockSlots Entry) (P : Entry → Prop) [DecidablePred P] :
    Decidable (∀ e, Held slots e → P e) :=
  decidable_of_iff' _ forall_held_iff

instance (s : Sys) : (e : Event) → Decidable (s.Apart e)
  | .send => inferInstanceAs (Decidable True)
  | .deliver k i =>
      inferInstanceAs (Decidable (s.recv.Completes (s.datagram k i).curind →
        ∀ e, Held s.recv.slots e → e.pos ≠ i → s.Matches k i e))

theorem held_putSlot {slots : BlockSlots Entry} {position : ℕ} {podr e : Entry}
    (h : Held (putSlot slots position podr) e) : e = podr ∨ Held slots e := by
  rcases h with ⟨i, hi⟩ | ⟨j, hj⟩
  · simp only [putSlot] at hi
    split_ifs at hi
    · exact .inl (Option.some.inj hi).symm
    · exact .inr (.inl ⟨i, hi⟩)
  · simp only [putSlot] at hj
    split_ifs at hj
    · exact .inl (Option.some.inj hj).symm
    · exact .inr (.inr ⟨j, hj⟩)

/-- The stored block lies in its slot. -/
theorem held_putSlot_self (slots : BlockSlots Entry) (e : Entry) :
    Held (putSlot slots e.pos e) e := by
  have hpos : e.pos.val < 14 := e.pos.isLt
  by_cases h : e.pos.val < originalCount
  · exact .inl ⟨⟨e.pos, h⟩, by simp [putSlot]⟩
  · refine .inr ⟨⟨e.pos - originalCount, ?_⟩, ?_⟩
    · unfold originalCount recoveryCount at *
      omega
    · simp only [putSlot]
      rw [if_pos (by omega)]

theorem not_held_none (e : Entry) : ¬ Held Slots.none e := by
  rintro (⟨i, hi⟩ | ⟨j, hj⟩)
  · cases hi
  · cases hj

/-- What holds of the slots while group `g` is collected and `sent` packets have been sent. -/
structure SlotsOk (sent g : ℕ) (slots : BlockSlots Entry) : Prop where
  original_pos : ∀ i e, slots.original i = some e → e.pos.val = i.val
  recovery_pos : ∀ j e, slots.recovery j = some e → e.pos.val = originalCount + j.val
  frame_lt : ∀ e, Held slots e → e.frame < sent
  awaited_iff : ∀ e, Held slots e → (e.awaited = true ↔ e.group = g)

theorem slotsOk_none (sent g : ℕ) : SlotsOk sent g Slots.none where
  original_pos _ _ h := by cases h
  recovery_pos _ _ h := by cases h
  frame_lt e h := absurd h (not_held_none e)
  awaited_iff e h := absurd h (not_held_none e)

namespace SlotsOk

variable {sent g : ℕ} {slots : BlockSlots Entry}

theorem put (h : SlotsOk sent g slots) {e : Entry} (hlt : e.frame < sent)
    (hawaited : e.awaited = true ↔ e.group = g) : SlotsOk sent g (putSlot slots e.pos e) where
  original_pos i e' he' := by
    simp only [putSlot] at he'
    split_ifs at he' with hpos
    · rw [← Option.some.inj he', hpos]
    · exact h.original_pos i e' he'
  recovery_pos j e' he' := by
    simp only [putSlot] at he'
    split_ifs at he' with hpos
    · rw [← Option.some.inj he', hpos]
    · exact h.recovery_pos j e' he'
  frame_lt e' he' := by
    rcases held_putSlot he' with rfl | hheld
    · exact hlt
    · exact h.frame_lt e' hheld
  awaited_iff e' he' := by
    rcases held_putSlot he' with rfl | hheld
    · exact hawaited
    · exact h.awaited_iff e' hheld

theorem mono (h : SlotsOk sent g slots) {sent' : ℕ} (hle : sent ≤ sent') :
    SlotsOk sent' g slots :=
  { h with frame_lt := fun e he ↦ (h.frame_lt e he).trans_le hle }

/-- A slot holds one block. -/
theorem eq_of_pos (h : SlotsOk sent g slots) {e e' : Entry} (he : Held slots e)
    (he' : Held slots e') (hpos : e.pos = e'.pos) : e = e' := by
  have hval : e.pos.val = e'.pos.val := congrArg Fin.val hpos
  rcases he with ⟨i, hi⟩ | ⟨j, hj⟩ <;> rcases he' with ⟨i', hi'⟩ | ⟨j', hj'⟩
  · obtain rfl : i = i' :=
      Fin.ext (by rw [← h.original_pos i e hi, hval, h.original_pos i' e' hi'])
    exact Option.some.inj (hi.symm.trans hi')
  · have horiginal := h.original_pos i e hi
    have hrecovery := h.recovery_pos j' e' hj'
    omega
  · have horiginal := h.original_pos i' e' hi'
    have hrecovery := h.recovery_pos j e hj
    omega
  · obtain rfl : j = j' :=
      Fin.ext (by have h₁ := h.recovery_pos j e hj; have h₂ := h.recovery_pos j' e' hj'; omega)
    exact Option.some.inj (hj.symm.trans hj')

/-- A stored block displaces the block of its slot and no other. -/
theorem held_put (h : SlotsOk sent g slots) (e : Entry) {e' : Entry} (he' : Held slots e')
    (hpos : e'.pos ≠ e.pos) : Held (putSlot slots e.pos e) e' := by
  have hval : e'.pos.val ≠ e.pos.val := fun heq ↦ hpos (Fin.ext heq)
  rcases he' with ⟨i, hi⟩ | ⟨j, hj⟩
  · refine .inl ⟨i, ?_⟩
    simp only [putSlot]
    rw [if_neg (h.original_pos i e' hi ▸ hval), hi]
  · refine .inr ⟨j, ?_⟩
    simp only [putSlot]
    rw [if_neg (h.recovery_pos j e' hj ▸ hval), hj]

/-- Slots are filled from one packet exactly when all their entries are of this packet. -/
theorem fromFrame_iff (h : SlotsOk sent g slots) {k : ℕ} :
    FromFrame k slots ↔ ∀ e, Held slots e → e.frame = k := by
  constructor
  · rintro ⟨horiginal, hrecovery⟩ e (⟨i, hi⟩ | ⟨j, hj⟩)
    · exact (horiginal i e hi).1
    · exact (hrecovery j e hj).1
  · intro hframe
    exact ⟨fun i e hi ↦ ⟨hframe e (.inl ⟨i, hi⟩), h.original_pos i e hi⟩,
      fun j e hj ↦ ⟨hframe e (.inr ⟨j, hj⟩), h.recovery_pos j e hj⟩⟩

/-- With one more block the slots are filled from one packet exactly when the blocks of the other
slots are of the packet of this block. -/
theorem exists_fromFrame_put_iff (h : SlotsOk sent g slots) {e : Entry} (hlt : e.frame < sent)
    (hawaited : e.awaited = true ↔ e.group = g) :
    (∃ k, FromFrame k (putSlot slots e.pos e)) ↔
      ∀ e', Held slots e' → e'.pos ≠ e.pos → e'.frame = e.frame := by
  have hput := h.put hlt hawaited
  constructor
  · rintro ⟨k, hk⟩ e' he' hpos
    rw [hput.fromFrame_iff] at hk
    rw [hk e' (h.held_put e he' hpos), hk e (held_putSlot_self slots e)]
  · intro hall
    refine ⟨e.frame, hput.fromFrame_iff.mpr fun e' he' ↦ ?_⟩
    by_cases hpos : e'.pos = e.pos
    · -- The slot of the block holds this block.
      exact congrArg Entry.frame (hput.eq_of_pos he' (held_putSlot_self slots e) hpos)
    · rcases held_putSlot he' with rfl | hheld
      · rfl
      · exact hall e' hheld hpos

end SlotsOk

/-- A block completes a call exactly when the receiver hands the slots to `leo_decode`, with this
block in them. -/
theorem recvBlock_snd (s : Recv Entry) (d : Datagram Entry) :
    (recvBlock s d).2 =
      if s.Completes d.curind then some (putSlot s.slots (positionOf d.curind) d.block)
      else none := by
  have hstore : (s.store d.curind d.block).2 =
      if originalCount ≤ s.curcount then some (putSlot s.slots (positionOf d.curind) d.block)
      else none := by
    rcases Nat.lt_or_ge s.curcount originalCount with hlt | hge
    · rw [Recv.store_of_lt hlt, if_neg (by omega)]
    · rw [Recv.store_of_ge hge, if_pos hge]
  by_cases hrestart : s.Restarting d.curind
  · have hstores : s.Stores d.curind ↔ ¬ d.curind ≤ 196 := by rw [Recv.Stores, if_pos hrestart]
    by_cases hindex : d.curind ≤ 196
    · rw [recvBlock_of_restart hrestart hindex, if_neg fun h ↦ hstores.mp h.2 hindex]
    · rw [recvBlock_of_late hrestart hindex, hstore]
      exact if_congr (and_iff_left (hstores.mpr hindex)).symm rfl rfl
  · have hstores : s.Stores d.curind ↔ s.curnumRecv = groupOf d.curind := by
      rw [Recv.Stores, if_neg hrestart]
    by_cases hgroup : s.curnumRecv = groupOf d.curind
    · rw [recvBlock_of_awaited hrestart hgroup, hstore]
      exact if_congr (and_iff_left (hstores.mpr hgroup)).symm rfl rfl
    · rw [recvBlock_of_drop hrestart hgroup, if_neg fun h ↦ hgroup (hstores.mp h.2)]

/-! ## The invariant of the system -/

structure Sys.Ok (s : Sys) : Prop where
  slots : SlotsOk s.sent s.recv.curnumRecv s.recv.slots
  calls : ∀ call ∈ s.calls, ∃ e, Held call e ∧ e.frame < s.sent

theorem Sys.ok_init : Sys.init.Ok where
  slots := slotsOk_none _ _
  calls _ h := by cases h

theorem Sys.Ok.send {s : Sys} (h : s.Ok) : Sys.Ok { s with sent := s.sent + 1 } where
  slots := h.slots.mono (Nat.le_succ _)
  calls call hcall := by
    obtain ⟨e, he, hlt⟩ := h.calls call hcall
    exact ⟨e, he, hlt.trans (Nat.lt_succ_self _)⟩

/-- Storing a block keeps the invariant, whether or not it completes a call. -/
theorem Sys.Ok.store {s : Sys} (h : s.Ok) {e : Entry} (hlt : e.frame < s.sent)
    (hawaited : e.awaited = true ↔ e.group = s.recv.curnumRecv) {curind : UInt8}
    (hpos : positionOf curind = e.pos) :
    Sys.Ok
      { s with
        recv := (s.recv.store curind e).1
        calls := s.calls ++ (s.recv.store curind e).2.toList } := by
  rcases Nat.lt_or_ge s.recv.curcount originalCount with hcount | hcount
  · rw [Recv.store_of_lt hcount, hpos]
    exact ⟨h.slots.put hlt hawaited, by simpa using h.calls⟩
  · rw [Recv.store_of_ge hcount, hpos]
    refine ⟨slotsOk_none _ _, ?_⟩
    intro call hcall
    rcases List.mem_append.mp hcall with hold | hnew
    · exact h.calls call hold
    · obtain rfl : call = putSlot s.recv.slots e.pos e := by simpa using hnew
      exact ⟨e, held_putSlot_self _ e, hlt⟩

/-- The mark of a block that is stored says whether its group is the collected one. -/
theorem Sys.awaited_datagram_iff {s : Sys} {k : ℕ} {i : Fin (recoveryCount + originalCount)}
    (hstored : s.recv.Stores (s.datagram k i).curind) :
    (s.datagram k i).block.awaited = true ↔ (s.datagram k i).block.group = s.recv.curnumRecv := by
  have hgroup : groupOf (s.datagram k i).curind = curnumSend k := groupOf_curind k i
  have hmark : (s.datagram k i).block.awaited = true ↔
      ¬ s.recv.Restarting (s.datagram k i).curind := by
    change (!decide (s.recv.Restarting (s.datagram k i).curind)) = true ↔ _
    simp
  rw [hmark]
  change _ ↔ curnumSend k = s.recv.curnumRecv
  unfold Recv.Stores at hstored
  split_ifs at hstored with hrestart
  · have hlast : curnumSend k = 196 := curnumSend_of_late hstored
    have hother := hrestart.2
    rw [hgroup, hlast] at hother
    refine iff_of_false (not_not_intro hrestart) fun heq ↦ ?_
    rcases hother with hzero | hne
    · rw [hlast, hzero] at heq
      cases heq
    · exact hne (heq.symm.trans hlast)
  · exact iff_of_true hrestart (hgroup ▸ hstored.symm)

theorem Sys.Ok.deliver {s : Sys} (h : s.Ok) {k : ℕ} (hdeliver : s.CanDeliver k)
    (i : Fin (recoveryCount + originalCount)) : (s.deliver k i).Ok := by
  have hlt : (s.datagram k i).block.frame < s.sent := hdeliver.1
  have hgroup : groupOf (s.datagram k i).curind = curnumSend k := groupOf_curind k i
  have hpos : positionOf (s.datagram k i).curind = (s.datagram k i).block.pos :=
    positionOf_curind k i
  unfold Sys.deliver
  by_cases hrestart : s.recv.Restarting (s.datagram k i).curind
  · by_cases hindex : (s.datagram k i).curind ≤ 196
    · have hblock : (s.datagram k i).block.awaited = false := by
        change (!decide (s.recv.Restarting (s.datagram k i).curind)) = false
        simpa using hrestart
      rw [recvBlock_of_restart hrestart hindex, hpos, hgroup]
      refine ⟨(slotsOk_none _ _).put hlt ?_, by simpa using h.calls⟩
      rw [hblock]
      refine iff_of_false Bool.false_ne_true fun heq ↦ ?_
      change curnumSend k = curnumSend k + recoveryCount + originalCount at heq
      unfold recoveryCount originalCount at heq
      omega
    · rw [recvBlock_of_late hrestart hindex]
      refine h.store hlt (Sys.awaited_datagram_iff ?_) hpos
      rwa [Recv.Stores, if_pos hrestart]
  · by_cases hawaited : s.recv.curnumRecv = groupOf (s.datagram k i).curind
    · rw [recvBlock_of_awaited hrestart hawaited]
      refine h.store hlt (Sys.awaited_datagram_iff ?_) hpos
      rwa [Recv.Stores, if_neg hrestart]
    · rw [recvBlock_of_drop hrestart hawaited]
      exact ⟨h.slots, by simpa using h.calls⟩

theorem Sys.Ok.next {s t : Sys} {e : Event} (h : s.Ok) (hstep : s.next e = some t) : t.Ok := by
  cases e with
  | send =>
    cases hstep
    exact h.send
  | deliver k i =>
    rw [Sys.next] at hstep
    split_ifs at hstep with hdeliver
    cases hstep
    exact h.deliver hdeliver i

/-! ## What a step must meet -/

/-- Blocks that match are the blocks of the packet whose block completes the call. -/
theorem Sys.Ok.matches_iff {s : Sys} (h : s.Ok) {k : ℕ} (hdeliver : s.CanDeliver k)
    {i : Fin (recoveryCount + originalCount)}
    (hcompletes : s.recv.Completes (s.datagram k i).curind) {e : Entry} (he : Held s.recv.slots e) :
    s.Matches k i e ↔ e.frame = k := by
  have hgroup : groupOf (s.datagram k i).curind = curnumSend k := groupOf_curind k i
  have hframe (hsame : e.group = curnumSend k) (hnew : ¬ e.frame < k) : e.frame = k := by
    refine le_antisymm (not_lt.mp fun hlater ↦ ?_) (not_lt.mp hnew)
    exact hdeliver.2 e.frame (h.slots.frame_lt e he) hlater hsame
  have hback (heq : e.frame = k) : e.group = curnumSend k := congrArg curnumSend heq
  have hmark := Sys.awaited_datagram_iff hcompletes.2
  have hstored := hcompletes.2
  unfold Recv.Stores at hstored
  unfold Sys.Matches
  split_ifs at hstored ⊢ with hrestart
  · have hlast : curnumSend k = 196 := curnumSend_of_late hstored
    have hnot : ¬ curnumSend k = s.recv.curnumRecv := by
      change (!decide (s.recv.Restarting (s.datagram k i).curind)) = true ↔
        curnumSend k = s.recv.curnumRecv at hmark
      simpa [hrestart] using hmark
    constructor
    · rintro ⟨⟨_, hlate⟩, hnew⟩
      exact hframe (hlate.trans hlast.symm) (hnew (hlate.trans hlast.symm))
    · intro heq
      refine ⟨⟨?_, (hback heq).trans hlast⟩, fun _ ↦ heq ▸ lt_irrefl _⟩
      rw [← Bool.not_eq_true, h.slots.awaited_iff e he, hback heq]
      exact hnot
  · rw [hgroup] at hstored
    rw [h.slots.awaited_iff e he, hstored]
    constructor
    · rintro ⟨hsame, hnew⟩
      exact hframe hsame (hnew hsame)
    · intro heq
      exact ⟨hback heq, fun _ ↦ heq ▸ lt_irrefl _⟩

/-- Every call of `leo_decode` was given the blocks of one packet. -/
def Sys.Separate (s : Sys) : Prop := ∀ call ∈ s.calls, ∃ k, FromFrame k call

/-- A step keeps the packets apart exactly when it meets the condition. -/
theorem Sys.Ok.separate_next_iff {s t : Sys} {e : Event} (h : s.Ok) (hstep : s.next e = some t) :
    t.Separate ↔ s.Separate ∧ s.Apart e := by
  cases e with
  | send =>
    cases hstep
    exact (and_iff_left trivial).symm
  | deliver k i =>
    rw [Sys.next] at hstep
    split_ifs at hstep with hdeliver
    cases hstep
    have hpos : positionOf (s.datagram k i).curind = (s.datagram k i).block.pos :=
      positionOf_curind k i
    have hcalls : (s.deliver k i).Separate ↔
        s.Separate ∧ ∀ call ∈ (recvBlock s.recv (s.datagram k i)).2, ∃ k, FromFrame k call := by
      simp only [Sys.Separate, Sys.deliver, List.mem_append, Option.mem_toList, or_imp,
        forall_and, Option.mem_def]
    rw [hcalls, and_congr_right_iff, recvBlock_snd, Sys.Apart]
    intro _
    by_cases hcompletes : s.recv.Completes (s.datagram k i).curind
    · rw [if_pos hcompletes]
      simp only [Option.mem_def, Option.some.injEq, forall_eq', hcompletes, true_imp_iff]
      rw [hpos, h.slots.exists_fromFrame_put_iff hdeliver.1
        (Sys.awaited_datagram_iff hcompletes.2)]
      refine forall_congr' fun e ↦ forall_congr' fun he ↦ forall_congr' fun _ ↦ ?_
      exact (h.matches_iff hdeliver hcompletes he).symm
    · rw [if_neg hcompletes]
      exact iff_of_true nofun fun hcall ↦ absurd hcall hcompletes

theorem ok_of_run {events : List Event} {s : Sys} (hrun : tunnel.Run events s) : s.Ok :=
  hrun.invariant (fun _ h ↦ h ▸ Sys.ok_init) fun _ _ _ h hstep ↦ h.next hstep

/-! ## Reassembled packets -/

/-- Blocks of packet `k` in their slots are a part of its codeword. -/
theorem FromFrame.consistent (leo : Leopard) (frames : ℕ → TxFrame) {k : ℕ}
    {call : BlockSlots Entry} (h : FromFrame k call) :
    (call.map (Entry.content leo frames)).Consistent leo.encode (frames k).originals := by
  refine ⟨fun i b hb ↦ ?_, fun j b hb ↦ ?_⟩
  · obtain ⟨e, he, rfl⟩ := Option.map_eq_some_iff.mp hb
    obtain ⟨rfl, hpos⟩ := h.1 i e he
    rw [Entry.content, blockOf, dif_pos (hpos ▸ i.isLt)]
    congr 1
    exact Fin.ext hpos
  · obtain ⟨e, he, rfl⟩ := Option.map_eq_some_iff.mp hb
    obtain ⟨rfl, hpos⟩ := h.2 j e he
    rw [Entry.content, blockOf, dif_neg (by omega)]
    congr 1
    exact Fin.ext (by simp [hpos])

/-! ## The program's own run -/

/-- The datagram an event delivers to the program. -/
def Event.datagram (leo : Leopard) (frames : ℕ → TxFrame) : Event → Option (Datagram Block)
  | .send => none
  | .deliver k i => some (sendBlock leo (frames k) (curnumSend k) i)

/-- The receiver of entries is the receiver of the program: the blocks of its entries are the
blocks in the program's slots and in the program's calls of `leo_decode`. -/
theorem run_erase (leo : Leopard) (frames : ℕ → TxFrame) {events : List Event} {s : Sys}
    (hrun : tunnel.Run events s) :
    let program := feed recvBlock Recv.init (events.filterMap (Event.datagram leo frames))
    program.1 = s.recv.map (Entry.content leo frames) ∧
      program.2.reduceOption = s.calls.map (Slots.map (Entry.content leo frames)) := by
  induction hrun with
  | start h =>
    obtain rfl : _ = Sys.init := h
    simp [Sys.init, Recv.init, Recv.map, List.reduceOption]
  | @snoc events s t e _ hlast ih =>
    change s.next e = some t at hlast
    obtain ⟨hstate, hcalls⟩ := ih
    cases e with
    | send =>
      cases hlast
      simp only [List.filterMap_append, List.filterMap_cons, List.filterMap_nil, Event.datagram,
        List.append_nil]
      exact ⟨hstate, hcalls⟩
    | deliver k i =>
      rw [Sys.next] at hlast
      split_ifs at hlast
      cases hlast
      have hstep := recvBlock_map (Entry.content leo frames) s.recv (s.datagram k i)
      simp only [List.filterMap_append, List.filterMap_cons, List.filterMap_nil, Event.datagram,
        feed_append, feed_cons, feed_nil, hstate, List.reduceOption_append, hcalls]
      change recvBlock (s.recv.map _) ⟨_, blockOf leo (frames k) i⟩ = _ at hstep
      simp only [Sys.datagram] at hstep
      rw [sendBlock, hstep]
      refine ⟨rfl, ?_⟩
      simp only [Sys.deliver, List.map_append, List.append_cancel_left_eq]
      rw [List.reduceOption_singleton]
      exact Option.toList_map

/-- The packets that leave the reassembly of blocks of one packet are this packet. -/
theorem intact_iff_separate (leo : Leopard) (frames : ℕ → TxFrame) {s : Sys} (h : s.Ok) :
    s.Intact leo frames ↔ s.Separate := by
  constructor
  · intro hintact call hcall
    obtain ⟨⟨k, _, hframe⟩, _⟩ := hintact call hcall
    exact ⟨k, hframe⟩
  · intro hseparate call hcall
    obtain ⟨k, hframe⟩ := hseparate call hcall
    have hk : k < s.sent := by
      obtain ⟨e, he, hlt⟩ := h.calls call hcall
      rcases he with ⟨i, hi⟩ | ⟨j, hj⟩
      · exact (hframe.1 i e hi).1 ▸ hlt
      · exact (hframe.2 j e hj).1 ▸ hlt
    refine ⟨⟨k, hk, hframe⟩, fun bufp out hout ↦ ⟨k, hk, ?_⟩⟩
    exact reassemble_of_consistent leo bufp (frames k) (hframe.consistent leo frames) hout

/-- In every run, whatever the erasure code and the packets are, the tunnel keeps the packets
apart if and only if every step meets the condition: when a block completes a call of `leo_decode`,
the blocks in the other slots got in the way it does, and none of them is left of an earlier packet
with its group index. -/
theorem integrity_iff (leo : Leopard) (frames : ℕ → TxFrame) {events : List Event} {s : Sys}
    (hrun : tunnel.Run events s) :
    s.Intact leo frames ↔ (tunnel.guard Sys.Apart).Run events s := by
  rw [intact_iff_separate leo frames (ok_of_run hrun)]
  exact Machine.holds_iff_run_guard Sys.ok_init nofun (fun _ _ _ h hstep ↦ h.next hstep)
    (fun _ _ _ h hstep ↦ h.separate_next_iff hstep) hrun

/-- One block of the first packet arrives, then ten blocks of the second. -/
def resynchronised : List Event :=
  [.send, .deliver 0 ⟨0, by decide⟩, .send] ++ (List.ofFn (Event.deliver 1)).take originalCount

theorem integrity_iff_resynchronised : ∃ s, tunnel.Run resynchronised s ∧ s.calls.length = 1 ∧
    s.Intact sampleLeopard fun _ ↦ emptyFrame := by
  obtain ⟨s, hguarded, hcount⟩ := Machine.exists_run_guard Sys.init Sys.next Sys.Apart
    resynchronised (P := fun s : Sys ↦ s.calls.length = 1) (by decide)
  have hrun : tunnel.Run resynchronised s := hguarded.of_guard
  exact ⟨s, hrun, hcount, (integrity_iff sampleLeopard _ hrun).mpr hguarded⟩

/-- Two packets over a channel that delivers every block, in order. -/
def perfectChannel : List Event :=
  .send :: List.ofFn (Event.deliver 0) ++ .send :: List.ofFn (Event.deliver 1)

/-- A call with blocks of two packets is enough for a run to fail. -/
theorem Sys.not_intact_of_mixed {s : Sys} {leo : Leopard} {frames : ℕ → TxFrame}
    {call : BlockSlots Entry} (hcall : call ∈ s.calls) {e e' : Entry} (he : Held call e)
    (he' : Held call e') (hne : e.frame ≠ e'.frame) : ¬ s.Intact leo frames := by
  intro hintact
  obtain ⟨⟨k, _, horiginal, hrecovery⟩, _⟩ := hintact call hcall
  have hall : ∀ e, Held call e → e.frame = k := by
    rintro e (⟨i, hi⟩ | ⟨j, hj⟩)
    · exact (horiginal i e hi).1
    · exact (hrecovery j e hj).1
  exact hne ((hall e he).trans (hall e' he').symm)

/-- Even then a block of the first packet is given to `leo_decode` with blocks of the second. -/
theorem not_intact_perfectChannel : ∃ s, tunnel.Run perfectChannel s ∧
    ¬ s.Intact sampleLeopard fun _ ↦ emptyFrame := by
  obtain ⟨s, hrun, hcalls⟩ := Machine.exists_run_ofNext Sys.init Sys.next perfectChannel
    (P := fun s : Sys ↦ s.calls.map (fun call ↦ ((call.original ⟨0, by decide⟩).map Entry.frame,
      (call.recovery ⟨2, by decide⟩).map Entry.frame)) = [(some 1, some 0)]) (by decide)
  obtain ⟨call, hcall, hpair⟩ := List.map_eq_singleton_iff.mp hcalls
  simp only [Prod.mk.injEq, Option.map_eq_some_iff] at hpair
  obtain ⟨⟨e, he, hone⟩, e', he', hzero⟩ := hpair
  exact ⟨s, hrun, Sys.not_intact_of_mixed (by simp [hcall]) (.inl ⟨_, he⟩) (.inr ⟨_, he'⟩)
    (by omega)⟩

/-- Five blocks of the second packet arrive, nothing of the fourteen packets behind it, and then
blocks of the packet that has the group index of the second again. -/
def reusedIndex : List Event :=
  [.send, .deliver 0 ⟨0, by decide⟩, .send] ++ (List.ofFn (Event.deliver 1)).take 5 ++
    List.replicate 15 .send ++ ((List.ofFn (Event.deliver 16)).drop 5).take 5

/-- The receiver takes them for blocks of one packet. -/
theorem not_intact_reusedIndex : ∃ s, tunnel.Run reusedIndex s ∧
    ¬ s.Intact sampleLeopard fun _ ↦ emptyFrame := by
  obtain ⟨s, hrun, hcalls⟩ := Machine.exists_run_ofNext Sys.init Sys.next reusedIndex
    (P := fun s : Sys ↦ s.calls.map (fun call ↦ ((call.original ⟨1, by decide⟩).map Entry.frame,
      (call.original ⟨9, by decide⟩).map Entry.frame)) = [(some 1, some 16)]) (by decide)
  obtain ⟨call, hcall, hpair⟩ := List.map_eq_singleton_iff.mp hcalls
  simp only [Prod.mk.injEq, Option.map_eq_some_iff] at hpair
  obtain ⟨⟨e, he, hold⟩, e', he', hnew⟩ := hpair
  exact ⟨s, hrun, Sys.not_intact_of_mixed (by simp [hcall]) (.inl ⟨_, he⟩) (.inl ⟨_, he'⟩)
    (by omega)⟩

end QNet.RsTunnel
