import Mathlib.Data.Fintype.Card
import Mathlib.Data.List.ReduceOption
import QNet.Lib.Machine
import QNet.RsTunnel.Receiver

/-!
# How many packets the Reed-Solomon tunnel delivers

Sender and receiver start together, and the channel between them keeps the order, duplicates
nothing and loses at most four of the fourteen blocks of each packet. Ten blocks are enough for
the erasure code, but the receiver waits for eleven, and the restart on the very first block lets
it wait for the second group.

The argument counts calls of `leo_decode`: every call uses up eleven stored blocks, so in a run
that has kept up so far not enough blocks are left over to ever catch up with the packet lost in
the beginning. `Behind` is the invariant, `behind_feed` its step and `calls_lt` the result.
-/

namespace QNet.RsTunnel

/-! ## The receiver with its buffer -/

structure Receiver where
  buf : Mem
  recv : Recv Block

/-- One block datagram: it is received into the buffer, and a packet may leave the reassembly.
What the rest of the loop leaves in the buffer after a packet is `after`. -/
def receive (leo : Leopard) (after : Mem × ℕ → Mem) (r : Receiver) (d : Datagram Block) :
    Receiver × Option (List UInt8) :=
  let bufp := r.buf.store 0 (d.curind :: List.ofFn d.block)
  let next := recvBlock r.recv d
  match next.2.bind (reassemble leo bufp) with
  | none => (⟨bufp, next.1⟩, none)
  | some out => (⟨after out, next.1⟩, some (out.1.slice 0 out.2))

/-- A packet and the blocks of it that the channel loses. -/
structure Transmission where
  frame : TxFrame
  lost : Finset (Fin (recoveryCount + originalCount))
  lost_le : lost.card ≤ recoveryCount

/-- The datagrams of packet number `k` that arrive. -/
def survivors (leo : Leopard) (k : ℕ) (t : Transmission) : List (Datagram Block) :=
  ((List.finRange _).filter (· ∉ t.lost)).map (sendBlock leo t.frame (curnumSend k))

/-- Everything that arrives when the packets of a list are sent, beginning with number `k`. -/
def arrivals (leo : Leopard) : ℕ → List Transmission → List (Datagram Block)
  | _, [] => []
  | k, t :: rest => survivors leo k t ++ arrivals leo (k + 1) rest

/-- The packets that leave the reassembly of a receiver which starts together with the sender. -/
def delivered (leo : Leopard) (after : Mem × ℕ → Mem) (buf : Mem) (ts : List Transmission) :
    List (List UInt8) :=
  (feed (receive leo after) ⟨buf, Recv.init⟩ (arrivals leo 0 ts)).2.reduceOption

theorem survivors_sublist (leo : Leopard) (k : ℕ) (t : Transmission) :
    (survivors leo k t).Sublist (sendBlocks leo t.frame (curnumSend k)) := by
  rw [sendBlocks, List.ofFn_eq_map]
  exact List.filter_sublist.map _

/-! ## Calls of `leo_decode` -/

/-- The number of calls of `leo_decode` while the datagrams are received. -/
def calls {β : Type*} (s : Recv β) (ds : List (Datagram β)) : ℕ :=
  (feed recvBlock s ds).2.reduceOption.length

section Calls

variable {β : Type*}

@[simp]
theorem calls_nil (s : Recv β) : calls s [] = 0 := rfl

theorem calls_cons (s : Recv β) (d : Datagram β) (ds : List (Datagram β)) :
    calls s (d :: ds) = (recvBlock s d).2.toList.length + calls (recvBlock s d).1 ds := by
  rw [calls, feed_cons]
  cases (recvBlock s d).2 <;> simp [calls, List.reduceOption, Nat.add_comm]

theorem calls_append (s : Recv β) (first second : List (Datagram β)) :
    calls s (first ++ second) = calls s first + calls (feed recvBlock s first).1 second := by
  rw [calls, feed_append, List.reduceOption_append, List.length_append]
  rfl

theorem receive_recv (leo : Leopard) (after : Mem × ℕ → Mem) (r : Receiver) (d : Datagram Block) :
    (receive leo after r d).1.recv = (recvBlock r.recv d).1 := by
  unfold receive
  dsimp only
  split <;> rfl

/-- Nothing is delivered but by a call of `leo_decode`. -/
theorem length_delivered_le (leo : Leopard) (after : Mem × ℕ → Mem) (r : Receiver)
    (ds : List (Datagram Block)) :
    (feed (receive leo after) r ds).2.reduceOption.length ≤ calls r.recv ds := by
  induction ds generalizing r with
  | nil => exact Nat.le_refl 0
  | cons d ds ih =>
    rw [feed_cons, calls_cons]
    have hout : (receive leo after r d).2.toList.length ≤ (recvBlock r.recv d).2.toList.length := by
      unfold receive
      dsimp only
      cases (recvBlock r.recv d).2 with
      | none => exact Nat.le_refl 0
      | some slots =>
        rw [Option.bind_some]
        split <;> simp
    have hrest := ih (receive leo after r d).1
    rw [receive_recv] at hrest
    rw [← List.singleton_append, List.reduceOption_append, List.length_append,
      List.reduceOption_singleton]
    exact Nat.add_le_add hout hrest

/-! ## What one datagram costs -/

theorem recvBlock_curcount_le {s : Recv β} (hs : s.curcount ≤ originalCount) (d : Datagram β) :
    (recvBlock s d).1.curcount ≤ originalCount := by
  have hstore : (s.store d.curind d.block).1.curcount ≤ originalCount := by
    rcases Nat.lt_or_ge s.curcount originalCount with hlt | hge
    · rw [Recv.store_of_lt hlt]
      exact hlt
    · rw [Recv.store_of_ge hge]
      exact Nat.zero_le _
  apply recvBlock_cases (P := fun next ↦ next.1.curcount ≤ originalCount)
  · exact fun _ _ ↦ hs
  · exact fun _ ↦ hstore
  · exact fun _ _ ↦ (by decide : 1 ≤ originalCount)
  · exact fun _ ↦ hstore

/-- A call of `leo_decode` uses up eleven stored blocks, and a datagram stores at most one. -/
theorem recvBlock_cost (s : Recv β) (d : Datagram β) :
    (recvBlock s d).1.curcount + 11 * (recvBlock s d).2.toList.length ≤ s.curcount + 1 := by
  have hstore : (s.store d.curind d.block).1.curcount +
      11 * (s.store d.curind d.block).2.toList.length ≤ s.curcount + 1 := by
    rcases Nat.lt_or_ge s.curcount originalCount with hlt | hge
    · rw [Recv.store_of_lt hlt]
      exact le_rfl
    · rw [Recv.store_of_ge hge]
      have hten : 10 ≤ s.curcount := hge
      simp only [Option.toList_some, List.length_singleton]
      omega
  apply recvBlock_cases (P := fun next ↦ next.1.curcount + 11 * next.2.toList.length ≤ _)
  · exact fun _ _ ↦ Nat.le_succ _
  · exact fun _ ↦ hstore
  · exact fun _ _ ↦ Nat.le_add_left _ _
  · exact fun _ ↦ hstore

theorem feed_curcount_le {s : Recv β} (hs : s.curcount ≤ originalCount) (ds : List (Datagram β)) :
    (feed recvBlock s ds).1.curcount ≤ originalCount :=
  feed_invariant (P := fun s : Recv β ↦ s.curcount ≤ originalCount)
    (fun _ d hs ↦ recvBlock_curcount_le hs d) hs ds

theorem feed_cost (s : Recv β) (ds : List (Datagram β)) :
    (feed recvBlock s ds).1.curcount + 11 * calls s ds ≤ s.curcount + ds.length := by
  induction ds generalizing s with
  | nil => simp
  | cons d ds ih =>
    have hfirst := recvBlock_cost s d
    have hrest := ih (recvBlock s d).1
    simp only [feed_cons, calls_cons, List.length_cons]
    omega

/-! ## Groups before the last -/

/-- The receiver waits for the group behind group `g`, with at most one block stored. -/
def Calm (g : ℕ) (s : Recv β) : Prop :=
  s.curnumRecv = g + (recoveryCount + originalCount) ∧ s.curcount ≤ 1

theorem curind_le_of_groupOf_lt {curind : UInt8} (h : groupOf curind < 196) : curind ≤ 196 := by
  rw [UInt8.le_iff_toNat_le]
  unfold groupOf recoveryCount originalCount at h
  change curind.toNat ≤ 196
  omega

theorem Calm.groupOf_ne {s : Recv β} {d : Datagram β} (hs : Calm (groupOf d.curind) s) :
    s.curnumRecv ≠ groupOf d.curind := by
  rw [hs.1]
  simp [recoveryCount, originalCount]

/-- A block of a group that is over leads to no call of `leo_decode`. -/
theorem Calm.recvBlock {s : Recv β} {d : Datagram β} (hlast : groupOf d.curind < 196)
    (hs : Calm (groupOf d.curind) s) :
    (recvBlock s d).2 = none ∧ Calm (groupOf d.curind) (recvBlock s d).1 := by
  by_cases hrestart : s.Restarting d.curind
  · rw [recvBlock_of_restart hrestart (curind_le_of_groupOf_lt hlast)]
    exact ⟨rfl, rfl, le_rfl⟩
  · rw [recvBlock_of_drop hrestart hs.groupOf_ne]
    exact ⟨rfl, hs⟩

theorem Calm.feed {g : ℕ} (hlast : g < 196) {s : Recv β} (hs : Calm g s) {ds : List (Datagram β)}
    (hds : ∀ d ∈ ds, groupOf d.curind = g) :
    calls s ds = 0 ∧ Calm g (feed QNet.RsTunnel.recvBlock s ds).1 := by
  induction ds generalizing s with
  | nil => exact ⟨rfl, hs⟩
  | cons d ds ih =>
    have hd : groupOf d.curind = g := hds d List.mem_cons_self
    obtain ⟨hnone, hcalm⟩ := Calm.recvBlock (hd ▸ hlast) (hd ▸ hs)
    obtain ⟨hcalls, hrest⟩ := ih (hd ▸ hcalm) fun d' hd' ↦ hds d' (List.mem_cons_of_mem _ hd')
    refine ⟨?_, hrest⟩
    rw [calls_cons, hnone, hcalls]
    rfl

/-- A call of `leo_decode` on a block of such a group ends the group. -/
theorem calm_of_call {s : Recv β} {d : Datagram β} (hlast : groupOf d.curind < 196)
    (hcall : (recvBlock s d).2 ≠ none) : Calm (groupOf d.curind) (recvBlock s d).1 := by
  revert hcall
  apply recvBlock_cases (P := fun next ↦ next.2 ≠ none → Calm (groupOf d.curind) next.1)
  · exact fun _ _ hcall ↦ absurd rfl hcall
  · intro hgroup hcall
    rcases Nat.lt_or_ge s.curcount originalCount with hlt | hge
    · rw [Recv.store_of_lt hlt] at hcall
      exact absurd rfl hcall
    · rw [Recv.store_of_ge hge, hgroup]
      have hmultiple : groupOf d.curind % 14 = 0 := by
        unfold groupOf recoveryCount originalCount
        omega
      have hnext : ¬ groupOf d.curind > 186 := by omega
      exact ⟨if_neg hnext, Nat.zero_le _⟩
  · exact fun _ _ hcall ↦ absurd rfl hcall
  · exact fun hindex ↦ absurd (curind_le_of_groupOf_lt hlast) hindex

/-- Blocks of one such group lead to at most one call, after which hardly a block is stored. -/
theorem feed_group {g : ℕ} (hlast : g < 196) (s : Recv β) {ds : List (Datagram β)}
    (hds : ∀ d ∈ ds, groupOf d.curind = g) :
    calls s ds = 0 ∨ calls s ds = 1 ∧ (feed recvBlock s ds).1.curcount ≤ 1 := by
  induction ds generalizing s with
  | nil => exact .inl rfl
  | cons d ds ih =>
    have hd : groupOf d.curind = g := hds d List.mem_cons_self
    have hrest : ∀ d' ∈ ds, groupOf d'.curind = g :=
      fun d' hd' ↦ hds d' (List.mem_cons_of_mem _ hd')
    rw [calls_cons, feed_cons]
    by_cases hcall : (recvBlock s d).2 = none
    · rw [hcall]
      simpa using ih (recvBlock s d).1 hrest
    · have hcalm : Calm g (recvBlock s d).1 := hd ▸ calm_of_call (hd ▸ hlast) hcall
      obtain ⟨hcalls, hafter⟩ := hcalm.feed hlast hrest
      obtain ⟨slots, hslots⟩ := Option.ne_none_iff_exists'.mp hcall
      right
      exact ⟨by rw [hslots, hcalls]; rfl, hafter.2⟩

end Calls

/-! ## The invariant -/

/-- After `m` packets there has been a call less, and no more blocks than this are left over when
there has been only one call less. -/
structure Behind (m count : ℕ) (s : Recv Block) : Prop where
  curcount_le : s.curcount ≤ originalCount
  lt : count < m
  left_over : count + 1 = m →
    s.curcount ≤ 1 ∨ curnumSend (m - 1) = 196 ∧ s.curcount ≤ recoveryCount

theorem groupOf_sendBlocks (leo : Leopard) (frame : TxFrame) (k : ℕ) :
    ∀ d ∈ sendBlocks leo frame (curnumSend k), groupOf d.curind = curnumSend k := by
  intro d hd
  obtain ⟨i, rfl⟩ := List.mem_ofFn.mp hd
  exact groupOf_curind k i

theorem groupOf_survivors (leo : Leopard) (k : ℕ) (t : Transmission) :
    ∀ d ∈ survivors leo k t, groupOf d.curind = curnumSend k := fun d hd ↦
  groupOf_sendBlocks leo t.frame k d ((survivors_sublist leo k t).subset hd)

theorem length_survivors_le (leo : Leopard) (k : ℕ) (t : Transmission) :
    (survivors leo k t).length ≤ 14 := by
  have hlength := (survivors_sublist leo k t).length_le
  rwa [sendBlocks, List.length_ofFn] at hlength

/-- The first packet leads to no call, because the first block that arrives is a restart. -/
theorem behind_first (leo : Leopard) (t : Transmission) :
    Behind 1 (calls Recv.init (survivors leo 0 t))
      (feed recvBlock Recv.init (survivors leo 0 t)).1 := by
  have hgroups := groupOf_survivors leo 0 t
  generalize survivors leo 0 t = ds at hgroups ⊢
  cases ds with
  | nil =>
    exact ⟨Nat.zero_le _, Nat.zero_lt_one, fun _ ↦ .inl (Nat.zero_le _)⟩
  | cons d ds =>
    have hd : groupOf d.curind = 0 := hgroups d List.mem_cons_self
    have hlast : groupOf d.curind < 196 := by omega
    have hrestart : (Recv.init : Recv Block).Restarting d.curind := ⟨.inl rfl, .inl rfl⟩
    have hfirst := recvBlock_of_restart hrestart (curind_le_of_groupOf_lt hlast)
    have hcalm : Calm 0 (recvBlock Recv.init d).1 := by
      rw [hfirst, hd]
      exact ⟨rfl, le_rfl⟩
    obtain ⟨hcalls, hafter⟩ := hcalm.feed (by decide)
      fun d' hd' ↦ hgroups d' (List.mem_cons_of_mem _ hd')
    have hnone : (recvBlock Recv.init d).2.toList.length = 0 := by rw [hfirst]; rfl
    rw [calls_cons, feed_cons, hcalls, hnone]
    exact ⟨hafter.2.trans (by decide), Nat.zero_lt_one, fun _ ↦ .inl hafter.2⟩

/-- The next packet catches up with nothing. -/
theorem behind_feed (leo : Leopard) {m count : ℕ} {s : Recv Block} (h : Behind m count s)
    (t : Transmission) :
    Behind (m + 1) (count + calls s (survivors leo m t))
      (feed recvBlock s (survivors leo m t)).1 := by
  have hcost := feed_cost s (survivors leo m t)
  have hlength := length_survivors_le leo m t
  have hcount : s.curcount ≤ 10 := h.curcount_le
  have hlt := h.lt
  have hgroup : curnumSend m < 196 → calls s (survivors leo m t) = 0 ∨
      calls s (survivors leo m t) = 1 ∧ (feed recvBlock s (survivors leo m t)).1.curcount ≤ 1 :=
    fun hlast ↦ feed_group hlast s (groupOf_survivors leo m t)
  have hle := curnumSend_le m
  -- A call behind is a packet behind, unless four blocks of group 196 are left over.
  have hleft : count + 1 = m → s.curcount ≤ 4 ∧ (s.curcount ≤ 1 ∨ curnumSend m < 196) := by
    intro hm
    rcases h.left_over hm with hone | ⟨hprevious, hfour⟩
    · exact ⟨hone.trans (by decide), .inl hone⟩
    · refine ⟨hfour, .inr ?_⟩
      rw [curnumSend_eq] at hprevious ⊢
      omega
  refine ⟨feed_curcount_le h.curcount_le _, by omega, fun hm ↦ ?_⟩
  rw [Nat.add_sub_cancel]
  change _ ∨ _ ∧ _ ≤ 4
  omega

theorem behind_arrivals (leo : Leopard) {m count : ℕ} {s : Recv Block} (h : Behind m count s)
    (ts : List Transmission) : count + calls s (arrivals leo m ts) < m + ts.length := by
  induction ts generalizing m count s with
  | nil => exact h.lt
  | cons t ts ih =>
    have hrest := ih (behind_feed leo h t)
    rw [arrivals, calls_append, List.length_cons]
    omega

/-- There are fewer calls of `leo_decode` than packets. -/
theorem calls_lt (leo : Leopard) {ts : List Transmission} (hts : ts ≠ []) :
    calls Recv.init (arrivals leo 0 ts) < ts.length := by
  cases ts with
  | nil => exact absurd rfl hts
  | cons t ts =>
    have hrest := behind_arrivals leo (behind_first leo t) ts
    rw [arrivals, calls_append, List.length_cons, Nat.zero_add]
    omega

theorem length_delivered_lt (leo : Leopard) (after : Mem × ℕ → Mem) (buf : Mem)
    {ts : List Transmission} (hts : ts ≠ []) : (delivered leo after buf ts).length < ts.length :=
  (length_delivered_le leo after ⟨buf, Recv.init⟩ _).trans_lt (calls_lt leo hts)

/-- Whatever the losses are, the tunnel delivers what was sent only when nothing was sent. -/
theorem delivered_eq_iff (leo : Leopard) (after : Mem × ℕ → Mem) (buf : Mem)
    (ts : List Transmission) :
    delivered leo after buf ts = ts.map (fun t ↦ t.frame.packet) ↔ ts = [] := by
  constructor
  · intro heq
    by_contra hts
    have hlength := congrArg List.length heq
    rw [List.length_map] at hlength
    exact (length_delivered_lt leo after buf hts).ne hlength
  · rintro rfl
    rfl

/-- One packet of no bytes, and no block of it is lost. -/
def oneFrame : List Transmission := [⟨emptyFrame, ∅, Nat.zero_le _⟩]

theorem delivered_oneFrame :
    delivered sampleLeopard Prod.fst (fun _ ↦ 0) oneFrame ≠
      oneFrame.map (fun t ↦ t.frame.packet) := by
  intro heq
  have hlength := congrArg List.length heq
  rw [List.length_map] at hlength
  exact (length_delivered_lt sampleLeopard Prod.fst _ (List.cons_ne_nil _ _)).ne hlength

end QNet.RsTunnel
