import QNet.RsTunnel.Completeness
import QNet.RsTunnel.Loop

/-!
# The block indices of the Reed-Solomon mode

The sender numbers its groups 0, 14, ..., 196 and starts again. The receiver computes the group
behind another one in two places: when a group has been decoded, where it does as the sender does,
and when it restarts on a block, where it adds 14 without a look at the end. After a restart on
block 196, the only block of the last group on which it restarts, it waits for a group 210 that no
sender sends. A later block of the last group is stored without a restart, whatever group the
receiver collects.

`blockIndices_iff` says in which sequences of blocks the receiver keeps to the groups of the sender.
-/

namespace QNet.RsTunnel

open Tunnel

/-! ## The sender -/

/-- What a process gets: frames from the TAP device and datagrams from the net. -/
inductive RsInput
  | frame (answers : Answers) (frame : List UInt8)
  | datagram (answers : Answers) (source : Address) (datagram : List UInt8)

def RsLoop.next (lib : Library) (leo : Leopard) (cfg : RsConfig) (s : RsLoop) :
    RsInput → Option (RsLoop × List Effect)
  | .frame answers frame => rsTap2net lib leo cfg answers s frame
  | .datagram answers source datagram => rsNet2tap lib leo cfg answers s source datagram

/-- The process in its loop. -/
def rsProcess (lib : Library) (leo : Leopard) (cfg : RsConfig) (nextkey : Option Bytes32)
    (start : Loop) : Machine RsLoop RsInput :=
  .ofNext (RsLoop.start lib nextkey start) fun s e ↦ (s.next lib leo cfg e).map Prod.fst

/-- The index of the first block of a group of the sender. -/
def IsGroup (curnum : ℕ) : Prop := curnum % (recoveryCount + originalCount) = 0 ∧ curnum ≤ 196

/-- The datagrams that are sent are the blocks of the group `curnum_send`, each behind its index. -/
def SendsGroup (curnumSend : ℕ) (effects : List Effect) : Prop :=
  sent effects = [] ∨
    (sent effects).length = recoveryCount + originalCount ∧
      ∀ position datagram, (sent effects)[position]? = some datagram →
        curnumSend + position < 256 ∧ datagram.head?.map UInt8.toNat = some (curnumSend + position)

/-! ## The receiver -/

variable {β : Type*}

/-- The receiver after these blocks. -/
def recvAfter (ds : List (Datagram β)) : Recv β :=
  ds.foldl (fun s d ↦ (recvBlock s d).1) Recv.init

/-- `next` is the group the sender sends behind `group`. -/
def SentNext (group next : ℕ) : Prop := ∃ k, curnumSend k = group ∧ curnumSend (k + 1) = next

/-- The receiver restarts on the block. -/
def Recv.Restarts (s : Recv β) (d : Datagram β) : Prop := s.Restarting d.curind ∧ d.curind ≤ 196

instance (s : Recv β) (d : Datagram β) : Decidable (s.Restarts d) :=
  inferInstanceAs (Decidable (_ ∧ _))

/-- When the block changes `curnum_recv`, the new value is the group which the sender sends behind
the one of the block, for a restart, and behind `decoded`, for a decoded group. -/
def Advances (decoded : ℕ) (s : Recv β) (d : Datagram β) : Prop :=
  (recvBlock s d).1.curnumRecv ≠ s.curnumRecv →
    SentNext (if s.Restarts d then groupOf d.curind else decoded) (recvBlock s d).1.curnumRecv

/-- A restart on the first block of the last group. -/
def RestartsLast (s : Recv β) (d : Datagram β) : Prop :=
  s.Restarting d.curind ∧ d.curind = 196

/-- A block behind that one completes the blocks of another group. -/
def CompletesLate (s : Recv β) (d : Datagram β) : Prop :=
  s.Restarting d.curind ∧ 196 < d.curind ∧ s.curcount = originalCount

/-! ## Groups -/

theorem IsGroup.next {curnum : ℕ} (h : IsGroup curnum) : IsGroup (nextGroup curnum) := by
  obtain ⟨hdvd, hle⟩ := h
  unfold IsGroup nextGroup recoveryCount originalCount at *
  split <;> omega

theorem isGroup_iff {curnum : ℕ} : IsGroup curnum ↔ ∃ k, curnumSend k = curnum := by
  constructor
  · rintro ⟨hdvd, hle⟩
    use curnum / 14
    rw [curnumSend_eq]
    unfold recoveryCount originalCount at hdvd
    omega
  · rintro ⟨k, rfl⟩
    exact ⟨curnumSend_dvd k, curnumSend_le k⟩

theorem sentNext_iff {group next : ℕ} :
    SentNext group next ↔ IsGroup group ∧ next = nextGroup group := by
  constructor
  · rintro ⟨k, rfl, rfl⟩
    exact ⟨isGroup_iff.mpr ⟨k, rfl⟩, rfl⟩
  · rintro ⟨hgroup, rfl⟩
    obtain ⟨k, rfl⟩ := isGroup_iff.mp hgroup
    exact ⟨k, rfl, rfl⟩

theorem nextGroup_ne {curnum : ℕ} (h : IsGroup curnum) : nextGroup curnum ≠ curnum := by
  obtain ⟨hdvd, hle⟩ := h
  unfold nextGroup recoveryCount originalCount at *
  split <;> omega

theorem groupOf_dvd (curind : UInt8) : groupOf curind % (recoveryCount + originalCount) = 0 := by
  unfold groupOf recoveryCount originalCount
  omega

theorem curind_le_toNat {curind : UInt8} : curind ≤ 196 ↔ curind.toNat ≤ 196 :=
  UInt8.le_iff_toNat_le

theorem isGroup_groupOf {curind : UInt8} (h : curind ≤ 196) : IsGroup (groupOf curind) := by
  have hle := curind_le_toNat.mp h
  exact ⟨groupOf_dvd curind, (Nat.sub_le _ _).trans hle⟩

/-- Only block 196 is of the last group and not behind it. -/
theorem groupOf_lt {curind : UInt8} (h : curind ≤ 196) (hne : curind ≠ 196) :
    groupOf curind < 196 := by
  have hle := curind_le_toNat.mp h
  have hlt : curind.toNat ≠ 196 := fun heq ↦ hne (UInt8.toNat_inj.mp heq)
  exact (Nat.sub_le _ _).trans_lt (Nat.lt_of_le_of_ne hle hlt)

theorem le_groupOf {curind : UInt8} (h : 196 < curind) : 196 ≤ groupOf curind := by
  have hlt : 196 < curind.toNat := UInt8.lt_iff_toNat_lt.mp h
  unfold groupOf recoveryCount originalCount
  omega

/-! ## One block -/

variable {s : Recv β} {d : Datagram β}

theorem curnumRecv_of_restarts (h : s.Restarts d) :
    (recvBlock s d).1.curnumRecv = groupOf d.curind + recoveryCount + originalCount := by
  rw [recvBlock_of_restart h.1 h.2]

theorem curnumRecv_store (curind : UInt8) (podr : β) (hs : s.curcount ≤ originalCount) :
    (s.store curind podr).1.curnumRecv =
      if s.curcount = originalCount then nextGroup s.curnumRecv else s.curnumRecv := by
  rcases hs.eq_or_lt with heq | hlt
  · rw [Recv.store_of_ge heq.ge, if_pos heq]
  · rw [Recv.store_of_lt hlt, if_neg hlt.ne]

/-- Without a restart the receiver goes to the next group if its block completes a group, which is
the one of the block or the block is a late one. -/
theorem curnumRecv_of_not_restarts (hs : s.curcount ≤ originalCount) (h : ¬ s.Restarts d)
    (hchanged : (recvBlock s d).1.curnumRecv ≠ s.curnumRecv) :
    (recvBlock s d).1.curnumRecv = nextGroup s.curnumRecv ∧
      (s.curnumRecv = groupOf d.curind ∨ CompletesLate s d) := by
  have hstore := curnumRecv_store d.curind d.block hs
  by_cases hrestarting : s.Restarting d.curind
  · have hlate : ¬ d.curind ≤ 196 := fun hle ↦ h ⟨hrestarting, hle⟩
    rw [recvBlock_of_late hrestarting hlate, hstore] at hchanged ⊢
    split at hchanged
    · rename_i hfull
      rw [if_pos hfull]
      exact ⟨rfl, .inr ⟨hrestarting, UInt8.not_le.mp hlate, hfull⟩⟩
    · exact absurd rfl hchanged
  · by_cases hgroup : s.curnumRecv = groupOf d.curind
    · rw [recvBlock_of_awaited hrestarting hgroup, hstore] at hchanged ⊢
      split at hchanged
      · rename_i hfull
        rw [if_pos hfull]
        exact ⟨rfl, .inl hgroup⟩
      · exact absurd rfl hchanged
    · rw [recvBlock_of_drop hrestarting hgroup] at hchanged
      exact absurd rfl hchanged

/-- After a restart on a block before 196 the receiver waits for the group behind. -/
theorem sentNext_of_restarts (h : s.Restarts d) (hlast : ¬ RestartsLast s d) :
    SentNext (groupOf d.curind) (recvBlock s d).1.curnumRecv := by
  have hne : d.curind ≠ 196 := fun heq ↦ hlast ⟨h.1, heq⟩
  have hgroup := isGroup_groupOf h.2
  have hlt := groupOf_lt h.2 hne
  rw [curnumRecv_of_restarts h, sentNext_iff]
  refine ⟨hgroup, ?_⟩
  obtain ⟨hdvd, _⟩ := hgroup
  unfold nextGroup recoveryCount originalCount at *
  rw [if_neg (by omega), Nat.add_assoc]

/-- Block 196 makes it wait for group 210. -/
theorem not_advances_of_restartsLast (hs : IsGroup s.curnumRecv) (h : RestartsLast s d)
    (decoded : ℕ) : ¬ Advances decoded s d := by
  obtain ⟨hrestarting, hindex⟩ := h
  have hrestarts : s.Restarts d := ⟨hrestarting, hindex ▸ UInt8.le_refl _⟩
  have hnew : (recvBlock s d).1.curnumRecv = 210 := by
    rw [curnumRecv_of_restarts hrestarts, hindex]
    rfl
  intro hall
  rw [Advances, hnew, if_pos hrestarts, hindex, sentNext_iff] at hall
  have hle := hs.2
  have hnext := (hall (by omega)).2
  exact absurd hnext (by decide)

/-- The blocks of a group that is collected complete it. -/
theorem advances_collected_iff (hs : IsGroup s.curnumRecv) (hcount : s.curcount ≤ originalCount) :
    Advances s.curnumRecv s d ↔ ¬ RestartsLast s d := by
  constructor
  · exact fun hall hlast ↦ not_advances_of_restartsLast hs hlast _ hall
  · intro hlast hchanged
    by_cases hrestarts : s.Restarts d
    · rw [if_pos hrestarts]
      exact sentNext_of_restarts hrestarts hlast
    · rw [if_neg hrestarts, sentNext_iff]
      exact ⟨hs, (curnumRecv_of_not_restarts hcount hrestarts hchanged).1⟩

theorem not_advances_of_completesLate (hs : IsGroup s.curnumRecv) (h : CompletesLate s d) :
    ¬ Advances (groupOf d.curind) s d := by
  obtain ⟨hrestarting, hlate, hfull⟩ := h
  have hnot : ¬ d.curind ≤ 196 := UInt8.not_le.mpr hlate
  have hrestarts : ¬ s.Restarts d := fun h ↦ hnot h.2
  have hnew : (recvBlock s d).1.curnumRecv = nextGroup s.curnumRecv := by
    rw [recvBlock_of_late hrestarting hnot, curnumRecv_store _ _ hfull.le, if_pos hfull]
  intro hall
  rw [Advances, hnew, if_neg hrestarts, sentNext_iff] at hall
  obtain ⟨⟨_, hle⟩, hnext⟩ := hall (nextGroup_ne hs)
  have hgroup : groupOf d.curind = 196 := Nat.le_antisymm hle (le_groupOf hlate)
  obtain ⟨hdvd, hle⟩ := hs
  obtain ⟨_, hother⟩ := hrestarting
  rw [hgroup] at hnext hother
  unfold nextGroup recoveryCount originalCount at *
  rw [if_pos (show 196 > 200 - 4 - 10 by decide)] at hnext
  split at hnext <;> omega

/-- The block that completes a group is of this group, or a late one. -/
theorem advances_completed_iff (hs : IsGroup s.curnumRecv) (hcount : s.curcount ≤ originalCount) :
    Advances (groupOf d.curind) s d ↔ ¬ RestartsLast s d ∧ ¬ CompletesLate s d := by
  constructor
  · exact fun hall ↦ ⟨fun hlast ↦ not_advances_of_restartsLast hs hlast _ hall,
      fun hlate ↦ not_advances_of_completesLate hs hlate hall⟩
  · rintro ⟨hlast, hlate⟩ hchanged
    by_cases hrestarts : s.Restarts d
    · rw [if_pos hrestarts]
      exact sentNext_of_restarts hrestarts hlast
    · obtain ⟨hnew, hgroup⟩ := curnumRecv_of_not_restarts hcount hrestarts hchanged
      rw [if_neg hrestarts, sentNext_iff, ← hgroup.resolve_right hlate]
      exact ⟨hs, hnew⟩

/-- Without a restart on block 196 the receiver keeps to the groups of the sender. -/
theorem isGroup_recvBlock (hs : IsGroup s.curnumRecv) (hcount : s.curcount ≤ originalCount)
    (hlast : ¬ RestartsLast s d) : IsGroup (recvBlock s d).1.curnumRecv := by
  by_cases hchanged : (recvBlock s d).1.curnumRecv = s.curnumRecv
  · rw [hchanged]
    exact hs
  · obtain ⟨hgroup, hnext⟩ := sentNext_iff.mp
      ((advances_collected_iff hs hcount).mpr hlast hchanged)
    rw [hnext]
    exact hgroup.next

/-! ## Runs of the sender -/

section Sender

variable {lib : Library} {leo : Leopard} {cfg : RsConfig} {answers : Answers} {s s' : RsLoop}
  {effects : List Effect}

/-- The datagrams of a group in the order in which they are sent. -/
theorem sendsGroup_of_datagrams {curnumSend : ℕ} {bufp : Mem} (hgroup : IsGroup curnumSend)
    (h : sent effects = (groupDatagrams leo bufp curnumSend).map Datagram.bytes) :
    SendsGroup curnumSend effects := by
  right
  rw [h]
  refine ⟨by rw [List.length_map, length_groupDatagrams], fun position datagram hat ↦ ?_⟩
  rw [List.getElem?_map, groupDatagrams, List.getElem?_ofFn] at hat
  have hle := hgroup.2
  split at hat
  · rename_i hposition
    cases hat
    change position < 14 at hposition
    refine ⟨by omega, ?_⟩
    change some (UInt8.ofNat (curnumSend + position)).toNat = _
    rw [UInt8.toNat_ofNat', Nat.mod_eq_of_lt (by omega)]
  · cases hat

/-- A frame is sent as the blocks of one group, or not at all. -/
theorem rsTap2net_indices {frame : List UInt8} (hgroup : IsGroup s.curnumSend)
    (h : rsTap2net lib leo cfg answers s frame = some (s', effects)) :
    SendsGroup s.curnumSend effects ∧
      (s'.curnumSend = s.curnumSend ∨ s'.curnumSend = nextGroup s.curnumSend) := by
  obtain ⟨⟨prepared, cnt, tosend⟩, _, h⟩ := Option.bind_eq_some_iff.mp h
  cases tosend with
  | false =>
    cases h
    exact ⟨.inl rfl, .inl rfl⟩
  | true =>
    let sending := sendGroup leo cfg.toConfig { s with toLoop := prepared } cnt
    have hsent : SendsGroup s.curnumSend sending.2 := sendsGroup_of_datagrams hgroup
      (sent_sendGroup leo cfg.toConfig { s with toLoop := prepared } cnt)
    have hnext : sending.1.curnumSend = nextGroup s.curnumSend := rfl
    cases haes : cfg.aes with
    | true =>
      simp only [haes, if_true] at h
      obtain ⟨rotated, _, h⟩ := Option.bind_eq_some_iff.mp h
      cases h
      exact ⟨hsent, .inr hnext⟩
    | false =>
      simp only [haes, if_true, Bool.false_eq_true, if_false] at h
      cases h
      exact ⟨hsent, .inr hnext⟩

theorem collect_curnumSend (leo : Leopard) (s : RsLoop) :
    (collect leo s).1.curnumSend = s.curnumSend := by
  unfold collect
  dsimp only
  split <;> rfl

/-- The receive branch does not touch `curnum_send`. -/
theorem rsNet2tap_curnumSend {source : Address} {datagram : List UInt8}
    (h : rsNet2tap lib leo cfg answers s source datagram = some (s', effects)) :
    s'.curnumSend = s.curnumSend := by
  unfold rsNet2tap at h
  dsimp only at h
  split at h
  · cases h
    rfl
  · split at h
    · cases h
      rfl
    · split at h
      · cases h
        exact collect_curnumSend _ _
      · obtain ⟨next, _, heq⟩ := Option.map_eq_some_iff.mp h
        cases heq
        exact collect_curnumSend _ _

/-- The sender is at the first block of a group in every state that is reached. -/
theorem isGroup_of_run {nextkey : Option Bytes32} {start : Loop} {events : List RsInput}
    (hrun : (rsProcess lib leo cfg nextkey start).Run events s) : IsGroup s.curnumSend := by
  refine hrun.invariant (P := fun s ↦ IsGroup s.curnumSend) ?_ ?_
  · rintro s rfl
    exact ⟨rfl, Nat.zero_le _⟩
  · intro s e t hs hstep
    obtain ⟨⟨t, effects⟩, hnext, rfl⟩ := Option.map_eq_some_iff.mp hstep
    cases e with
    | frame answers frame =>
      rcases (rsTap2net_indices hs hnext).2 with hsame | hnext
      · exact hsame ▸ hs
      · exact hnext ▸ hs.next
    | datagram answers source datagram =>
      have hsame := rsNet2tap_curnumSend hnext
      exact hsame ▸ hs

end Sender

/-! ## Runs of the receiver -/

/-- The receiver keeps to the groups of the sender. -/
structure Recv.OnGroups (s : Recv β) : Prop where
  isGroup : IsGroup s.curnumRecv
  curcount_le : s.curcount ≤ originalCount

theorem onGroups_init : (Recv.init : Recv β).OnGroups := ⟨⟨rfl, Nat.zero_le _⟩, Nat.zero_le _⟩

theorem Recv.OnGroups.recvBlock (hs : s.OnGroups) (hlast : ¬ RestartsLast s d) :
    (RsTunnel.recvBlock s d).1.OnGroups :=
  ⟨isGroup_recvBlock hs.isGroup hs.curcount_le hlast, recvBlock_curcount_le hs.curcount_le d⟩

theorem recvAfter_curcount_le (ds : List (Datagram β)) :
    (recvAfter ds).curcount ≤ originalCount :=
  foldl_induction (P := fun s : Recv β ↦ s.curcount ≤ originalCount) (Nat.zero_le _)
    (fun _ d _ hbefore ↦ recvBlock_curcount_le hbefore d) ds (List.prefix_refl ds)

theorem forall_advances_collected_iff (ds : List (Datagram β)) :
    (∀ before d, before ++ [d] <+: ds →
        Advances (recvAfter before).curnumRecv (recvAfter before) d) ↔
      ∀ before d, before ++ [d] <+: ds → ¬ RestartsLast (recvAfter before) d :=
  foldl_steps_iff (Q := fun s d ↦ Advances s.curnumRecv s d) onGroups_init
    (fun _ _ hs ↦ advances_collected_iff hs.isGroup hs.curcount_le)
    (fun _ _ hs hlast ↦ hs.recvBlock hlast) ds

theorem forall_advances_completed_iff (ds : List (Datagram β)) :
    (∀ before d, before ++ [d] <+: ds →
        Advances (groupOf d.curind) (recvAfter before) d) ↔
      ∀ before d, before ++ [d] <+: ds →
        ¬ RestartsLast (recvAfter before) d ∧ ¬ CompletesLate (recvAfter before) d :=
  foldl_steps_iff (Q := fun s d ↦ Advances (groupOf d.curind) s d) onGroups_init
    (fun _ _ hs ↦ advances_completed_iff hs.isGroup hs.curcount_le)
    (fun _ _ hs hC ↦ hs.recvBlock hC.1) ds

/-- The sender numbers its blocks as it should, `curcount` keeps below its bound, and the receiver
goes to the group that is sent next, if and only if it does not restart on block 196. Where the
group that is decoded is taken to be the one of the last block, no late block must complete one. -/
theorem blockIndices_iff (lib : Library) (leo : Leopard) (cfg : RsConfig)
    (nextkey : Option Bytes32) (start : Loop) :
    (∀ events s, (rsProcess lib leo cfg nextkey start).Run events s →
      (s.curnumSend % 14 = 0 ∧ s.curnumSend ≤ 196) ∧
        ∀ answers frame s' effects, rsTap2net lib leo cfg answers s frame = some (s', effects) →
          SendsGroup s.curnumSend effects) ∧
    ∀ ds : List (Datagram Block),
      (∀ before, before <+: ds → (recvAfter before).curcount ≤ originalCount) ∧
      ((∀ before d, before ++ [d] <+: ds →
          Advances (recvAfter before).curnumRecv (recvAfter before) d) ↔
        ∀ before d, before ++ [d] <+: ds → ¬ RestartsLast (recvAfter before) d) ∧
      ((∀ before d, before ++ [d] <+: ds →
          Advances (groupOf d.curind) (recvAfter before) d) ↔
        ∀ before d, before ++ [d] <+: ds →
          ¬ RestartsLast (recvAfter before) d ∧ ¬ CompletesLate (recvAfter before) d) := by
  constructor
  · intro events s hrun
    have hgroup := isGroup_of_run hrun
    exact ⟨hgroup, fun answers frame s' effects h ↦ (rsTap2net_indices hgroup h).1⟩
  · intro ds
    exact ⟨fun before _ ↦ recvAfter_curcount_le before, forall_advances_collected_iff ds,
      forall_advances_completed_iff ds⟩

/-- The first block a receiver gets is block 196: it waits for group 210. -/
theorem not_advances_last :
    ¬ ∀ (ds before : List (Datagram Unit)) (d : Datagram Unit), before ++ [d] <+: ds →
      Advances (recvAfter before).curnumRecv (recvAfter before) d := by
  intro hall
  have hlast : RestartsLast (recvAfter ([] : List (Datagram Unit))) ⟨196, ()⟩ :=
    ⟨by decide, rfl⟩
  exact not_advances_of_restartsLast onGroups_init.isGroup hlast _
    (hall [⟨196, ()⟩] [] ⟨196, ()⟩ (List.prefix_refl _))

end QNet.RsTunnel
