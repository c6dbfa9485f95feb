import QNet.RsTunnel.Completeness

/-!
# The Reed-Solomon receiver finds the groups again

Whatever block datagrams came before, a receiver that then gets consecutive complete groups
delivers every packet from the fourth group on, each exactly once (`delivered_of_fourth`).

Within one group before the last the receiver gives up what it was waiting for: it has refused
eleven blocks and restarts, or it has stored eleven and calls `leo_decode` (`recvBlock_settles`). It
then waits for the next group with one block stored, and if that is `Ready`, the ten originals of
the group fill the slots whatever the stored block was. Two groups are special. From block 197 on
nothing restarts, so that the last group leaves its refused blocks counted; and a receiver that
waits for group 0 restarts on it when too many are counted.
-/

namespace QNet.RsTunnel

variable {β : Type*}

/-- The blocks of packets that follow each other, beginning with packet number `k`. -/
def groups (leo : Leopard) : ℕ → List TxFrame → List (Datagram Block)
  | _, [] => []
  | k, frame :: frames => sendBlocks leo frame (curnumSend k) ++ groups leo (k + 1) frames

theorem groups_append (leo : Leopard) (k : ℕ) (first second : List TxFrame) :
    groups leo k (first ++ second) =
      groups leo k first ++ groups leo (k + first.length) second := by
  induction first generalizing k with
  | nil => rfl
  | cons frame first ih =>
    rw [List.cons_append, groups, ih, groups, List.append_assoc, List.length_cons,
      Nat.add_right_comm, Nat.add_assoc]

/-! ## One group before the last -/

/-- The number of blocks of group `g` the receiver can take before it gives up. -/
def patience (g : ℕ) (s : Recv β) : ℕ :=
  if s.curnumRecv = g then originalCount - s.curcount else originalCount + 1 - s.curnumRecvDrop

/-- A block that is refused was not the one too many. -/
theorem drop_le_of_refused {s : Recv β} {curind : UInt8} (hrestart : ¬ s.Restarting curind)
    (hgroup : s.curnumRecv ≠ groupOf curind) :
    s.curcount ≠ 0 ∧ s.curnumRecvDrop ≤ originalCount := by
  rw [Recv.Restarting, not_and'] at hrestart
  have hnot := hrestart (Or.inr hgroup)
  rw [not_or, Nat.not_lt] at hnot
  exact hnot

/-- Every block of a group brings the receiver nearer to the end of it. -/
theorem recvBlock_settles (s : Recv β) {d : Datagram β} (hlast : groupOf d.curind < 196) :
    Calm (groupOf d.curind) (recvBlock s d).1 ∨
      patience (groupOf d.curind) (recvBlock s d).1 < patience (groupOf d.curind) s := by
  by_cases hcall : (recvBlock s d).2 = none
  · revert hcall
    apply recvBlock_cases (P := fun next ↦ next.2 = none → Calm (groupOf d.curind) next.1 ∨
      patience (groupOf d.curind) next.1 < patience (groupOf d.curind) s)
    · intro hrestart hgroup _
      have hdrop := (drop_le_of_refused hrestart hgroup).2
      right
      rw [patience, patience, if_neg hgroup, if_neg hgroup]
      dsimp only
      omega
    · intro hgroup hcall
      rcases Nat.lt_or_ge s.curcount originalCount with hlt | hge
      · right
        rw [Recv.store_of_lt hlt, patience, patience, if_pos hgroup, if_pos hgroup]
        dsimp only
        omega
      · rw [Recv.store_of_ge hge] at hcall
        cases hcall
    · exact fun _ _ _ ↦ Or.inl ⟨rfl, le_rfl⟩
    · exact fun hindex ↦ absurd (curind_le_of_groupOf_lt hlast) hindex
  · exact Or.inl (calm_of_call hlast hcall)

/-- One block of a group that is over is kept. -/
theorem Calm.curcount_eq {s : Recv β} {d : Datagram β} (hlast : groupOf d.curind < 196)
    (hs : Calm (groupOf d.curind) s) : (RsTunnel.recvBlock s d).1.curcount = 1 := by
  have hgroup := hs.groupOf_ne
  by_cases hrestart : s.Restarting d.curind
  · rw [recvBlock_of_restart hrestart (curind_le_of_groupOf_lt hlast)]
  · have hne := (drop_le_of_refused hrestart hgroup).1
    have hle := hs.2
    rw [recvBlock_of_drop hrestart hgroup]
    dsimp only
    omega

/-- After a complete group the receiver waits for the next one, with one block stored. -/
theorem feed_complete {g : ℕ} (hlast : g < 196) (s : Recv β) {ds : List (Datagram β)}
    (hds : ∀ d ∈ ds, groupOf d.curind = g) (hlength : 12 < ds.length) :
    (feed recvBlock s ds).1.curnumRecv = g + (recoveryCount + originalCount) ∧
      (feed recvBlock s ds).1.curcount = 1 := by
  rcases List.eq_nil_or_concat' ds with rfl | ⟨front, d, rfl⟩
  · cases hlength
  have hfront : ∀ d' ∈ front, groupOf d'.curind = g :=
    fun d' hd' ↦ hds d' (List.mem_append_left _ hd')
  obtain rfl : groupOf d.curind = g := hds d (List.mem_append_right _ List.mem_cons_self)
  have hpatience : patience (groupOf d.curind) s ≤ 11 := by
    unfold patience originalCount
    split_ifs <;> omega
  have hcalm : Calm (groupOf d.curind) (feed recvBlock s front).1 := by
    apply feed_settles (I := fun d' : Datagram β ↦ groupOf d'.curind = groupOf d.curind)
      (m := patience (groupOf d.curind))
    · intro s' d' hd' hs'
      rw [← hd'] at hs' hlast ⊢
      exact (hs'.recvBlock hlast).2
    · intro s' d' hd'
      rw [← hd'] at hlast ⊢
      exact recvBlock_settles s' hlast
    · exact hfront
    · rw [List.length_append, List.length_singleton] at hlength
      omega
  rw [feed_append]
  exact ⟨(hcalm.recvBlock hlast).2.1, hcalm.curcount_eq hlast⟩

/-! ## A group the receiver waits for -/

/-- The receiver waits for packet number `k` with one block stored, and no restart is due. -/
structure Ready (k : ℕ) (s : Recv β) : Prop where
  curnumRecv : s.curnumRecv = curnumSend k
  curcount : s.curcount = 1
  drop_last : curnumSend k = 196 → s.curnumRecvDrop ≤ 7
  drop_first : curnumSend k = 0 → s.curnumRecvDrop ≤ originalCount

/-- The first `j` blocks of a packet are stored behind the one that was there. -/
structure Collecting (frame : TxFrame) (k j drop : ℕ) (s : Recv Block) : Prop where
  curnumRecv : s.curnumRecv = curnumSend k
  curcount : s.curcount = 1 + j
  curnumRecvDrop : s.curnumRecvDrop = drop
  original : ∀ i : Fin originalCount, i.val < j → s.slots.original i = some (frame.originals i)

theorem Ready.collecting {k : ℕ} {s : Recv Block} (h : Ready k s) (frame : TxFrame) :
    Collecting frame k 0 s.curnumRecvDrop s :=
  ⟨h.curnumRecv, h.curcount, rfl, nofun⟩

/-- The slots after the next block of the packet. -/
theorem original_putSlot (leo : Leopard) (frame : TxFrame) {slots : BlockSlots Block}
    {j : Fin (recoveryCount + originalCount)} (hj : j.val < originalCount)
    (h : ∀ i : Fin originalCount, i.val < j.val → slots.original i = some (frame.originals i))
    (i : Fin originalCount) (hi : i.val < j.val + 1) :
    (putSlot slots j (blockOf leo frame j)).original i = some (frame.originals i) := by
  rw [putSlot]
  dsimp only
  split_ifs with heq
  · rw [blockOf, dif_pos hj]
    exact congrArg (fun i ↦ some (frame.originals i)) (Fin.ext heq.symm)
  · exact h i (by omega)

theorem Collecting.not_restarting {frame : TxFrame} {k j drop : ℕ} {s : Recv Block}
    (h : Collecting frame k j drop s) (hdrop : curnumSend k = 0 → drop ≤ originalCount)
    (i : Fin (recoveryCount + originalCount)) :
    ¬ s.Restarting (UInt8.ofNat (curnumSend k + i)) := by
  rintro ⟨hdue, hgroup⟩
  rw [groupOf_curind, h.curnumRecv] at hgroup
  have hfirst : curnumSend k = 0 := hgroup.resolve_right fun hne ↦ hne rfl
  have hle := hdrop hfirst
  rw [h.curcount, h.curnumRecvDrop] at hdue
  omega

/-- One more block of the packet. -/
theorem Collecting.next {frame : TxFrame} {k drop : ℕ} {s : Recv Block} (leo : Leopard)
    {j : Fin (recoveryCount + originalCount)} (h : Collecting frame k j drop s)
    (hdrop : curnumSend k = 0 → drop ≤ originalCount) (hj : j.val < 9) :
    (recvBlock s (sendBlock leo frame (curnumSend k) j)).2 = none ∧
      Collecting frame k (j + 1) drop (recvBlock s (sendBlock leo frame (curnumSend k) j)).1 := by
  have hcount : s.curcount < originalCount := by
    rw [h.curcount]
    change 1 + j.val < 10
    omega
  have hgroup : s.curnumRecv = groupOf (sendBlock leo frame (curnumSend k) j).curind := by
    rw [sendBlock, groupOf_curind, h.curnumRecv]
  rw [recvBlock_of_awaited (h.not_restarting hdrop j) hgroup, Recv.store_of_lt hcount]
  refine ⟨rfl, h.curnumRecv, ?_, h.curnumRecvDrop, ?_⟩
  · dsimp only
    rw [h.curcount]
    rfl
  · dsimp only [sendBlock]
    rw [positionOf_curind]
    exact original_putSlot leo frame (Nat.lt_succ_of_lt hj) h.original

/-- The last original of the packet. -/
theorem Collecting.last {frame : TxFrame} {k drop : ℕ} {s : Recv Block} (leo : Leopard)
    {j : Fin (recoveryCount + originalCount)} (h : Collecting frame k j drop s)
    (hdrop : curnumSend k = 0 → drop ≤ originalCount) (hj : j.val + 1 = originalCount) :
    ∃ slots, recvBlock s (sendBlock leo frame (curnumSend k) j) =
        (⟨0, curnumSend (k + 1), drop, Slots.none⟩, some slots) ∧
      ∀ i, slots.original i = some (frame.originals i) := by
  have hcount : originalCount ≤ s.curcount := by
    rw [h.curcount, Nat.add_comm]
    exact hj.ge
  have hgroup : s.curnumRecv = groupOf (sendBlock leo frame (curnumSend k) j).curind := by
    rw [sendBlock, groupOf_curind, h.curnumRecv]
  refine ⟨putSlot s.slots j (blockOf leo frame j), ?_, ?_⟩
  · rw [recvBlock_of_awaited (h.not_restarting hdrop j) hgroup, Recv.store_of_ge hcount,
      h.curnumRecv, h.curnumRecvDrop]
    dsimp only [sendBlock]
    rw [positionOf_curind]
    rfl
  · intro i
    have hlt : j.val < originalCount := (Nat.lt_succ_self j.val).trans_eq hj
    exact original_putSlot leo frame hlt h.original i (i.isLt.trans_eq hj.symm)

theorem length_sendBlocks (leo : Leopard) (frame : TxFrame) (curnumSend : ℕ) :
    (sendBlocks leo frame curnumSend).length = recoveryCount + originalCount := List.length_ofFn

/-- The blocks before the last original lead to no call of `leo_decode`. -/
theorem Ready.feed_take {k : ℕ} {s : Recv Block} (h : Ready k s) (leo : Leopard) (frame : TxFrame)
    {n : ℕ} (hn : n ≤ 9) :
    calls s ((sendBlocks leo frame (curnumSend k)).take n) = 0 ∧
      Collecting frame k n s.curnumRecvDrop
        (feed recvBlock s ((sendBlocks leo frame (curnumSend k)).take n)).1 := by
  induction n with
  | zero => exact ⟨rfl, h.collecting frame⟩
  | succ n ih =>
    obtain ⟨hcalls, hcollecting⟩ := ih (Nat.le_of_succ_le hn)
    have hlt : n < (sendBlocks leo frame (curnumSend k)).length := by
      rw [length_sendBlocks]
      exact Nat.lt_of_lt_of_le hn (by decide)
    have hblock : (sendBlocks leo frame (curnumSend k))[n] =
        sendBlock leo frame (curnumSend k) ⟨n, length_sendBlocks leo frame _ ▸ hlt⟩ :=
      List.getElem_ofFn hlt
    obtain ⟨hnone, hnext⟩ := Collecting.next (j := ⟨n, length_sendBlocks leo frame _ ▸ hlt⟩) leo
      hcollecting h.drop_first hn
    rw [List.take_succ_eq_append_getElem hlt, hblock, calls_append, feed_append, hcalls, calls_cons,
      hnone]
    exact ⟨rfl, hnext⟩

/-! ## The blocks that are left -/

/-- Blocks of another group are refused as long as not too many have been. -/
theorem feed_refused {s : Recv β} {g : ℕ} (hgroup : s.curnumRecv ≠ g) (hcount : s.curcount ≠ 0)
    {ds : List (Datagram β)} (hds : ∀ d ∈ ds, groupOf d.curind = g)
    (hdrop : s.curnumRecvDrop + ds.length ≤ originalCount + 1) :
    calls s ds = 0 ∧ (feed recvBlock s ds).1 =
      { s with curnumRecvDrop := s.curnumRecvDrop + ds.length } := by
  induction ds generalizing s with
  | nil => exact ⟨rfl, rfl⟩
  | cons d ds ih =>
    obtain rfl : groupOf d.curind = g := hds d List.mem_cons_self
    rw [List.length_cons] at hdrop
    have hrestart : ¬ s.Restarting d.curind := by
      rintro ⟨hdue, _⟩
      exact hdue.elim hcount fun hlt ↦ by omega
    obtain ⟨hcalls, hfeed⟩ :=
      ih (s := { s with curnumRecvDrop := s.curnumRecvDrop + 1 }) hgroup hcount
        (fun d' hd' ↦ hds d' (List.mem_cons_of_mem _ hd')) (by dsimp only; omega)
    rw [calls_cons, feed_cons, recvBlock_of_drop hrestart hgroup, hcalls, hfeed]
    refine ⟨rfl, ?_⟩
    dsimp only
    rw [List.length_cons, Nat.add_right_comm, Nat.add_assoc]

/-- After a call of `leo_decode` the next block of the group is stored as the one that stays. -/
theorem recvBlock_after_call {k : ℕ} {d : Datagram β} (drop : ℕ)
    (hd : groupOf d.curind = curnumSend k) (hlate : curnumSend k = 196 → ¬ d.curind ≤ 196) :
    (recvBlock ⟨0, curnumSend (k + 1), drop, Slots.none⟩ d).2 = none ∧
      (recvBlock ⟨0, curnumSend (k + 1), drop, Slots.none⟩ d).1 =
        ⟨1, curnumSend (k + 1), if curnumSend k = 196 then drop else 0,
          putSlot Slots.none (positionOf d.curind) d.block⟩ := by
  have hle := curnumSend_le k
  have hmultiple := curnumSend_dvd k
  have hrestart : (⟨0, curnumSend (k + 1), drop, Slots.none⟩ : Recv β).Restarting d.curind := by
    refine ⟨Or.inl rfl, ?_⟩
    rw [hd, curnumSend, nextGroup]
    split_ifs
    · exact Or.inl rfl
    · exact Or.inr (by simp [recoveryCount, originalCount])
  split_ifs with hlast
  · rw [recvBlock_of_late hrestart (hlate hlast), Recv.store_of_lt (by decide : 0 < originalCount)]
    exact ⟨rfl, rfl⟩
  · have hindex : d.curind ≤ 196 := curind_le_of_groupOf_lt (by omega)
    have hnext : curnumSend (k + 1) = curnumSend k + recoveryCount + originalCount := by
      rw [curnumSend, nextGroup]
      unfold recoveryCount originalCount
      split_ifs
      · omega
      · rfl
    rw [recvBlock_of_restart hrestart hindex, hd, hnext]
    exact ⟨rfl, rfl⟩

/-- What is left of a group leads to no call, and the receiver is ready for the next one. -/
theorem Ready.feed_drop {k : ℕ} {s : Recv Block} (h : Ready k s) (leo : Leopard) (frame : TxFrame) :
    calls ⟨0, curnumSend (k + 1), s.curnumRecvDrop, Slots.none⟩
        ((sendBlocks leo frame (curnumSend k)).drop 10) = 0 ∧
      Ready (k + 1) (feed recvBlock ⟨0, curnumSend (k + 1), s.curnumRecvDrop, Slots.none⟩
        ((sendBlocks leo frame (curnumSend k)).drop 10)).1 := by
  have hk := curnumSend_eq k
  have hnext := curnumSend_eq (k + 1)
  have hlt : 10 < (sendBlocks leo frame (curnumSend k)).length := by
    rw [length_sendBlocks]
    decide
  have hblock : (sendBlocks leo frame (curnumSend k))[10] =
      sendBlock leo frame (curnumSend k) ⟨10, by decide⟩ := List.getElem_ofFn hlt
  have hgroup : ∀ d ∈ (sendBlocks leo frame (curnumSend k)).drop 11,
      groupOf d.curind = curnumSend k :=
    fun d hd ↦ groupOf_sendBlocks leo frame k d (List.mem_of_mem_drop hd)
  have hlength : ((sendBlocks leo frame (curnumSend k)).drop 11).length = 3 := by
    rw [List.length_drop, length_sendBlocks]
    rfl
  have hlate : curnumSend k = 196 →
      ¬ (sendBlock leo frame (curnumSend k) ⟨10, by decide⟩).curind ≤ 196 := by
    intro hlast
    rw [sendBlock, curind_le_iff]
    dsimp only
    omega
  obtain ⟨hnone, hstored⟩ := recvBlock_after_call s.curnumRecvDrop
    (groupOf_curind k ⟨10, by decide⟩) hlate
  have hdrop : (if curnumSend k = 196 then s.curnumRecvDrop else 0) ≤ 7 := by
    split_ifs with hlast
    · exact h.drop_last hlast
    · exact Nat.zero_le 7
  have hroom : (if curnumSend k = 196 then s.curnumRecvDrop else 0) +
      ((sendBlocks leo frame (curnumSend k)).drop 11).length ≤ originalCount + 1 := by
    rw [hlength]
    exact Nat.add_le_add_right (hdrop.trans (Nat.le_succ 7)) 3
  have hother : curnumSend (k + 1) ≠ curnumSend k := by omega
  obtain ⟨hcalls, hfeed⟩ := feed_refused (s := ⟨1, curnumSend (k + 1),
    if curnumSend k = 196 then s.curnumRecvDrop else 0,
    putSlot Slots.none (positionOf (sendBlock leo frame (curnumSend k) ⟨10, by decide⟩).curind)
      (sendBlock leo frame (curnumSend k) ⟨10, by decide⟩).block⟩)
    hother Nat.one_ne_zero hgroup hroom
  rw [List.drop_eq_getElem_cons hlt, hblock, calls_cons, feed_cons, hnone, hstored, hcalls, hfeed,
    hlength]
  refine ⟨rfl, rfl, rfl, ?_, ?_⟩
  · intro hlast
    dsimp only
    rw [if_neg (by omega)]
    decide
  · intro _
    change _ ≤ 7 + 3
    exact Nat.add_le_add_right hdrop 3

/-! ## The packets -/

theorem feed_receive_recv (leo : Leopard) (after : Mem × ℕ → Mem) (r : Receiver)
    (ds : List (Datagram Block)) :
    (feed (receive leo after) r ds).1.recv = (feed recvBlock r.recv ds).1 := by
  induction ds generalizing r with
  | nil => rfl
  | cons d ds ih => rw [feed_cons, feed_cons, ih, receive_recv]

/-- Without a call of `leo_decode` nothing is delivered. -/
theorem feed_receive_of_calls {leo : Leopard} {after : Mem × ℕ → Mem} {r : Receiver}
    {ds : List (Datagram Block)} (h : calls r.recv ds = 0) :
    (feed (receive leo after) r ds).2.reduceOption = [] :=
  List.eq_nil_of_length_eq_zero (Nat.le_zero.mp ((length_delivered_le leo after r ds).trans h.le))

/-- A receiver that is ready delivers the packet, and is ready for the next one. -/
theorem Ready.deliver {k : ℕ} {r : Receiver} (h : Ready k r.recv) (leo : Leopard)
    (after : Mem × ℕ → Mem) (frame : TxFrame) :
    (feed (receive leo after) r (sendBlocks leo frame (curnumSend k))).2.reduceOption =
        [frame.packet] ∧
      Ready (k + 1) (feed (receive leo after) r (sendBlocks leo frame (curnumSend k))).1.recv := by
  obtain ⟨hfront, hcollecting⟩ := h.feed_take leo frame (le_refl 9)
  have hrest := h.feed_drop leo frame
  obtain ⟨slots, hcall, horiginal⟩ :=
    hcollecting.last (j := ⟨9, by decide⟩) leo h.drop_first rfl
  have hlt : 9 < (sendBlocks leo frame (curnumSend k)).length := by
    rw [length_sendBlocks]
    decide
  have hsplit : sendBlocks leo frame (curnumSend k) =
      (sendBlocks leo frame (curnumSend k)).take 9 ++
        sendBlock leo frame (curnumSend k) ⟨9, by decide⟩ ::
          (sendBlocks leo frame (curnumSend k)).drop 10 := by
    have hblock : sendBlock leo frame (curnumSend k) ⟨9, by decide⟩ =
        (sendBlocks leo frame (curnumSend k))[9] := (List.getElem_ofFn hlt).symm
    rw [hblock, ← List.drop_eq_getElem_cons hlt, List.take_append_drop]
  generalize (sendBlocks leo frame (curnumSend k)).take 9 = front at *
  generalize (sendBlocks leo frame (curnumSend k)).drop 10 = rest at *
  rw [hsplit, feed_append, feed_cons]
  have hrecv := feed_receive_recv leo after r front
  generalize (feed (receive leo after) r front).1 = r' at *
  rw [← hrecv] at hcall
  obtain ⟨out, hout, hpacket⟩ := reassemble_of_originals leo
    (r'.buf.store 0 ((sendBlock leo frame (curnumSend k) ⟨9, by decide⟩).curind ::
      List.ofFn (sendBlock leo frame (curnumSend k) ⟨9, by decide⟩).block)) frame horiginal
  have hreceive : receive leo after r' (sendBlock leo frame (curnumSend k) ⟨9, by decide⟩) =
      (⟨after out, ⟨0, curnumSend (k + 1), r.recv.curnumRecvDrop, Slots.none⟩⟩,
        some frame.packet) := by
    rw [receive, hcall]
    dsimp only
    rw [Option.bind_some, hout]
    dsimp only
    rw [hpacket]
  rw [hreceive, List.reduceOption_append, List.reduceOption_cons_of_some,
    feed_receive_of_calls hfront, feed_receive_of_calls hrest.1, feed_receive_recv]
  exact ⟨rfl, hrest.2⟩

/-- Whatever the receiver was doing, a group well before the last makes it ready. -/
theorem ready_of_group (leo : Leopard) (after : Mem × ℕ → Mem) (r : Receiver) {k : ℕ}
    (hlast : curnumSend k < 182) (frame : TxFrame) :
    Ready (k + 1) (feed (receive leo after) r (sendBlocks leo frame (curnumSend k))).1.recv := by
  have hk := curnumSend_eq k
  have hnext := curnumSend_eq (k + 1)
  have hlength : 12 < (sendBlocks leo frame (curnumSend k)).length := by
    rw [length_sendBlocks]
    decide
  obtain ⟨hcurnum, hcount⟩ := feed_complete (hlast.trans (by decide)) r.recv
    (groupOf_sendBlocks leo frame k) hlength
  rw [feed_receive_recv]
  refine ⟨?_, hcount, fun h ↦ ?_, fun h ↦ ?_⟩
  · rw [hcurnum]
    change curnumSend k + 14 = _
    omega
  · omega
  · omega

/-- The state after the packets `k`, …, given one packet after the other. -/
theorem feed_groups_cons (leo : Leopard) (after : Mem × ℕ → Mem) (r : Receiver) (k : ℕ)
    (frame : TxFrame) (frames : List TxFrame) :
    feed (receive leo after) r (groups leo k (frame :: frames)) =
      ((feed (receive leo after)
          (feed (receive leo after) r (sendBlocks leo frame (curnumSend k))).1
          (groups leo (k + 1) frames)).1,
        (feed (receive leo after) r (sendBlocks leo frame (curnumSend k))).2 ++
          (feed (receive leo after)
            (feed (receive leo after) r (sendBlocks leo frame (curnumSend k))).1
            (groups leo (k + 1) frames)).2) := feed_append _ _ _ _

theorem Ready.feed_groups {k : ℕ} {r : Receiver} (h : Ready k r.recv) (leo : Leopard)
    (after : Mem × ℕ → Mem) (frames : List TxFrame) :
    (feed (receive leo after) r (groups leo k frames)).2.reduceOption =
        frames.map TxFrame.packet ∧
      Ready (k + frames.length) (feed (receive leo after) r (groups leo k frames)).1.recv := by
  induction frames generalizing k r with
  | nil => exact ⟨rfl, h⟩
  | cons frame frames ih =>
    obtain ⟨hpacket, hready⟩ := h.deliver leo after frame
    obtain ⟨hpackets, hrest⟩ := ih hready
    rw [feed_groups_cons, List.reduceOption_append, hpacket, hpackets, List.length_cons,
      Nat.add_comm frames.length, ← Nat.add_assoc]
    exact ⟨rfl, hrest⟩

/-- Three packets are enough, wherever they begin. -/
theorem ready_of_three (leo : Leopard) (after : Mem × ℕ → Mem) (r : Receiver) (k : ℕ)
    (first second third : TxFrame) :
    Ready (k + 3) (feed (receive leo after) r (groups leo k [first, second, third])).1.recv := by
  have hk := curnumSend_eq k
  have hk1 := curnumSend_eq (k + 1)
  have hk2 := curnumSend_eq (k + 1 + 1)
  rw [feed_groups_cons]
  dsimp only
  by_cases hfirst : curnumSend k < 182
  · have hready := ready_of_group leo after r hfirst first
    exact (hready.feed_groups leo after [second, third]).2
  generalize (feed (receive leo after) r (sendBlocks leo first (curnumSend k))).1 = r1
  rw [feed_groups_cons]
  dsimp only
  by_cases hsecond : curnumSend (k + 1) < 182
  · have hready := ready_of_group leo after r1 hsecond second
    exact (hready.feed_groups leo after [third]).2
  -- The first packet was sent as group 182, the second as 196, so the third is group 0.
  have hthird : curnumSend (k + 1 + 1) < 182 := by omega
  generalize (feed (receive leo after) r1 (sendBlocks leo second (curnumSend (k + 1)))).1 = r2
  rw [feed_groups_cons]
  dsimp only
  have hready := ready_of_group leo after r2 hthird third
  exact (hready.feed_groups leo after []).2

/-- From every state that any block datagrams lead to, and for packets sent from any number on: the
first three may be lost or damaged, and from the fourth on each is delivered once and in order. -/
theorem delivered_of_fourth (leo : Leopard) (after : Mem × ℕ → Mem) (buf : Mem)
    (before : List (Datagram Block)) (k : ℕ) (frames : List TxFrame) :
    let r := (feed (receive leo after) ⟨buf, Recv.init⟩ before).1
    (feed (receive leo after) r (groups leo k frames)).2.reduceOption =
      (feed (receive leo after) r (groups leo k (frames.take 3))).2.reduceOption ++
        (frames.drop 3).map TxFrame.packet := by
  intro r
  match frames with
  | [] | [_] | [_, _] => exact (List.append_nil _).symm
  | first :: second :: third :: frames =>
    have hready := ready_of_three leo after r k first second third
    have hsplit : groups leo k (first :: second :: third :: frames) =
        groups leo k [first, second, third] ++ groups leo (k + 3) frames :=
      groups_append leo k [first, second, third] frames
    rw [hsplit, feed_append, List.reduceOption_append, (hready.feed_groups leo after frames).1]
    rfl

end QNet.RsTunnel
