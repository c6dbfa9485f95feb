import Mathlib.Algebra.Order.BigOperators.Group.List
import Mathlib.Algebra.Ring.Int.Defs
import QNet.Tcpmux.Clients

/-!
# The messages and the karma for the stream

Each side counts what it may still write, and what it has read and not acknowledged. Together with
the messages that were put together and those that were looked at, these counts are what keeps the
stream within the ring, whatever the clients do.
-/

namespace QNet.Tcpmux

/-! ## The entries about one client id -/

/-- What is said about a client id. -/
def about (id : ℕ) (entries : List (ℤ × Entry)) : List Entry :=
  (entries.filter fun entry ↦ entry.1 = (id : ℤ)).map Prod.snd

@[simp]
theorem about_nil (id : ℕ) : about id [] = [] := rfl

@[simp]
theorem about_append (id : ℕ) (first second : List (ℤ × Entry)) :
    about id (first ++ second) = about id first ++ about id second := by
  rw [about, List.filter_append, List.map_append, about, about]

theorem about_self (id : ℕ) (e : Entry) : about id [((id : ℤ), e)] = [e] := by simp [about]

theorem about_of_ne {id k : ℕ} (h : k ≠ id) (e : Entry) : about k [((id : ℤ), e)] = [] := by
  simp [about]
  omega

theorem isPrefix_about (id : ℕ) {first second : List (ℤ × Entry)} (h : first <+: second) :
    about id first <+: about id second := by
  obtain ⟨rest, rfl⟩ := h
  rw [about_append]
  exact List.prefix_append _ _

/-- Of clients that are different each has one entry. -/
theorem about_map {ids : List ℕ} (hnodup : ids.Nodup) (f : ℕ → Entry) (id : ℕ) :
    about id (ids.map fun k : ℕ ↦ ((k : ℤ), f k)) = if id ∈ ids then [f id] else [] := by
  induction ids with
  | nil => rfl
  | cons k ids ih =>
    obtain ⟨hk, hnodup⟩ := List.nodup_cons.mp hnodup
    have hcons : about id ((k :: ids).map fun k : ℕ ↦ ((k : ℤ), f k)) =
        about id [((k : ℤ), f k)] ++ about id (ids.map fun k : ℕ ↦ ((k : ℤ), f k)) :=
      about_append id [_] _
    rw [hcons, ih hnodup]
    by_cases hid : id = k
    · rw [hid, about_self, if_neg hk, if_pos List.mem_cons_self, List.append_nil]
    · rw [about_of_ne hid, List.nil_append]
      simp [hid]

/-- The karma for the stream that messages give. -/
def acked (messages : List Message) : ℤ := (messages.map Message.karma).sum

@[simp]
theorem acked_nil : acked [] = 0 := rfl

@[simp]
theorem acked_append (first second : List Message) :
    acked (first ++ second) = acked first + acked second := by simp [acked]

@[simp]
theorem acked_singleton (m : Message) : acked [m] = m.karma := by simp [acked]

theorem acked_le_of_isPrefix {first second : List Message} (h : first <+: second)
    (hnonneg : ∀ m ∈ second, 0 ≤ m.karma) : acked first ≤ acked second := by
  obtain ⟨rest, rfl⟩ := h
  rw [acked_append]
  have hrest : 0 ≤ acked rest := by
    apply List.sum_nonneg
    intro k hk
    obtain ⟨m, hm, rfl⟩ := List.mem_map.mp hk
    exact hnonneg m (List.mem_append_right _ hm)
  omega

/-- What is still to be written of `wout`. -/
def Context.unwritten (mc : Context) : List UInt8 :=
  match mc.wout with
  | none => []
  | some m => m.bytes.drop mc.wpos

/-- One side of the stream: what was written and read, the messages that were put together, those
that were looked at, and what was done of them. -/
structure Half where
  context : Context
  sent : List UInt8
  got : List UInt8
  composed : List Message
  taken : List Message
  handled : List (ℤ × Entry)

/-- The messages and the karma for the stream of one side, when the other one has put `coming`
together. -/
structure Flow (z : Half) (coming : List Message) : Prop where
  sent : z.sent ++ z.context.unwritten = Message.stream z.composed
  got : z.got = Message.stream z.taken ++ z.context.rin
  taken : z.taken <+: coming
  handled : z.handled ++ z.context.pairs.map (fun pair ↦ (pair.1, Entry.ofKarma pair.2)) =
    z.taken.flatMap Message.entries
  streamKarma : z.context.streamKarma + z.sent.length = GLOBAL_KARMA - 1 + acked z.taken
  streamKarma_nonneg : 0 ≤ z.context.streamKarma
  rstreamKarma : z.context.rstreamKarma + acked z.composed = z.got.length
  rstreamKarma_nonneg : 0 ≤ z.context.rstreamKarma
  karma_nonneg : ∀ m ∈ z.composed, 0 ≤ m.karma
  ids : ∀ entry ∈ z.composed.flatMap Message.entries,
    ∃ id : ℕ, entry.1 = id ∧ 0 < id ∧ id < MAX_CLIENTS

namespace Flow

variable {z : Half} {coming coming' : List Message} {mc : Context} {m : Message} {amt : ℕ}
  {bytes : List UInt8}

/-- The other side puts messages together. -/
theorem mono (h : Flow z coming) (hcoming : coming <+: coming') : Flow z coming' :=
  { h with taken := h.taken.trans hcoming }

/-- Only clients change. -/
theorem touches {id : ℕ} {slot : Slot} (h : Flow z coming)
    (hmc : Context.Touches z.context mc id slot) : Flow { z with context := mc } coming := by
  obtain ⟨queue, controls, rfl⟩ := hmc
  exact ⟨h.sent, h.got, h.taken, h.handled, h.streamKarma, h.streamKarma_nonneg, h.rstreamKarma,
    h.rstreamKarma_nonneg, h.karma_nonneg, h.ids⟩

theorem stream_append (first : List Message) (m : Message) :
    Message.stream (first ++ [m]) = Message.stream first ++ m.bytes := by
  simp only [Message.stream, Framing.stream_append, Framing.stream_singleton]
  rfl

/-- A message is put into `wout`, which was empty. -/
theorem compose (h : Flow z coming) (hwout : z.context.wout = none)
    (hmc : mc = { z.context with
      rstreamKarma := mc.rstreamKarma
      wout := some m
      wpos := 0
      clientTable := mc.clientTable
      karmaQueue := mc.karmaQueue
      controls := mc.controls })
    (hkarma : mc.rstreamKarma + m.karma = z.context.rstreamKarma)
    (hnonneg : 0 ≤ mc.rstreamKarma ∧ 0 ≤ m.karma)
    (hids : ∀ entry ∈ m.entries, ∃ id : ℕ, entry.1 = id ∧ 0 < id ∧ id < MAX_CLIENTS) :
    Flow { z with context := mc, composed := z.composed ++ [m] } coming := by
  have hsent := h.sent
  have hrstream := h.rstreamKarma
  rw [Context.unwritten, hwout, List.append_nil] at hsent
  constructor
  · have hunwritten : mc.unwritten = m.bytes := by
      rw [Context.unwritten, hmc]
      rfl
    dsimp only
    rw [hunwritten, stream_append, hsent]
  · dsimp only
    rw [hmc]
    exact h.got
  · exact h.taken
  · dsimp only
    rw [hmc]
    exact h.handled
  · dsimp only
    rw [hmc]
    exact h.streamKarma
  · dsimp only
    rw [hmc]
    exact h.streamKarma_nonneg
  · dsimp only
    rw [acked_append, acked_singleton]
    omega
  · exact hnonneg.1
  · intro m' hm'
    rcases List.mem_append.mp hm' with hm' | hm'
    · exact h.karma_nonneg m' hm'
    · obtain rfl := List.mem_singleton.mp hm'
      exact hnonneg.2
  · intro entry hentry
    dsimp only at hentry
    rw [List.flatMap_append, List.mem_append, List.flatMap_singleton] at hentry
    rcases hentry with hentry | hentry
    · exact h.ids entry hentry
    · exact hids entry hentry

/-- `mainw` writes bytes of its message. -/
theorem write (h : Flow z coming) (hwout : z.context.wout = some m)
    (hkarma : (amt : ℤ) ≤ z.context.streamKarma)
    (hlength : ((m.bytes.drop z.context.wpos).take amt).length = amt) :
    Flow { z with
      context := z.context.wrote m amt
      sent := z.sent ++ (m.bytes.drop z.context.wpos).take amt } coming where
  sent := by
    have hunwritten : (z.context.wrote m amt).unwritten =
        m.bytes.drop (z.context.wpos + amt) := by
      unfold Context.unwritten Context.wrote
      dsimp only
      split_ifs with hend
      · rw [List.drop_of_length_le (Nat.le_of_eq hend.symm)]
      · rfl
    have hsent := h.sent
    rw [Context.unwritten, hwout] at hsent
    dsimp only at hsent ⊢
    rw [hunwritten, List.append_assoc, ← List.drop_drop, List.take_append_drop, hsent]
  got := h.got
  taken := h.taken
  handled := h.handled
  streamKarma := by
    have hold := h.streamKarma
    dsimp only [Context.wrote]
    rw [List.length_append, hlength]
    push_cast
    omega
  streamKarma_nonneg := Int.sub_nonneg_of_le hkarma
  rstreamKarma := h.rstreamKarma
  rstreamKarma_nonneg := h.rstreamKarma_nonneg
  karma_nonneg := h.karma_nonneg
  ids := h.ids

/-- `mainr` reads bytes of its message. -/
theorem read (h : Flow z coming) {controls : ℕ} (hmc : mc = { z.context with
      rin := z.context.rin ++ bytes
      rstreamKarma := z.context.rstreamKarma + bytes.length
      controls := controls }) :
    Flow { z with context := mc, got := z.got ++ bytes } coming := by
  rw [hmc]
  refine ⟨h.sent, ?_, h.taken, h.handled, h.streamKarma, h.streamKarma_nonneg, ?_, ?_,
    h.karma_nonneg, h.ids⟩
  · dsimp only
    rw [h.got, List.append_assoc]
  · have hold := h.rstreamKarma
    dsimp only
    rw [List.length_append]
    push_cast
    omega
  · exact Int.add_nonneg h.rstreamKarma_nonneg (Int.natCast_nonneg _)

/-- `mainr` looks at the message that has come, and nothing is left to do of the one before. -/
theorem process (h : Flow z coming) (hrin : z.context.rin = m.bytes)
    (hpairs : z.context.pairs = []) (htaken : z.taken ++ [m] <+: coming)
    {pairs : List (ℤ × ℤ)} {entries : List (ℤ × Entry)}
    (hentries : entries ++ pairs.map (fun pair ↦ (pair.1, Entry.ofKarma pair.2)) = m.entries)
    (hmc : mc = { z.context with
      rin := []
      streamKarma := z.context.streamKarma + m.karma
      pairs := pairs
      clientTable := mc.clientTable
      karmaQueue := mc.karmaQueue
      controls := mc.controls })
    (hnonneg : 0 ≤ m.karma) :
    Flow { z with
      context := mc
      taken := z.taken ++ [m]
      handled := z.handled ++ entries } coming := by
  have hold := h.streamKarma
  have hhandled := h.handled
  have hpos := h.streamKarma_nonneg
  rw [hpairs, List.map_nil, List.append_nil] at hhandled
  rw [hmc]
  refine ⟨h.sent, ?_, htaken, ?_, ?_, ?_, h.rstreamKarma, h.rstreamKarma_nonneg, h.karma_nonneg,
    h.ids⟩
  · dsimp only
    rw [stream_append, List.append_nil, h.got, hrin]
  · dsimp only
    rw [List.flatMap_append, List.flatMap_singleton, List.append_assoc, hentries, hhandled]
  · dsimp only
    rw [acked_append, acked_singleton]
    omega
  · dsimp only
    omega

/-- A round of the loop of `read_ack`. -/
theorem pair (h : Flow z coming) {id karma : ℤ} {pairs : List (ℤ × ℤ)}
    (hpairs : z.context.pairs = (id, karma) :: pairs) (hmc : mc = { z.context with
      pairs := pairs
      clientTable := mc.clientTable
      karmaQueue := mc.karmaQueue
      controls := mc.controls }) :
    Flow { z with context := mc, handled := z.handled ++ [(id, .ofKarma karma)] } coming := by
  have hhandled := h.handled
  rw [hpairs, List.map_cons] at hhandled
  rw [hmc]
  refine ⟨h.sent, h.got, h.taken, ?_, h.streamKarma, h.streamKarma_nonneg, h.rstreamKarma,
    h.rstreamKarma_nonneg, h.karma_nonneg, h.ids⟩
  dsimp only
  rw [List.append_assoc]
  exact hhandled

end Flow

end QNet.Tcpmux
