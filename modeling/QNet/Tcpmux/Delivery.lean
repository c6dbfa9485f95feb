import QNet.Tcpmux.Flow
import QNet.Tcpmux.System

/-!
# What both processes keep

The invariant of the two processes has four parts: the connections, the messages in the stream with
the karma for them, the table of the clients on each side, and what each id is in on both sides. The
karma of the stream is what keeps each side within the size of the ring, so that the stream needs no
other assumption; and because the messages come as they were put together, what is said about an id
is heard in that order.
-/

namespace QNet.Tcpmux

namespace System

/-- One id on both sides. -/
def lane (s : System) (id : ℕ) (x : Side) : End where
  slot := (s.context x).clientTable id
  said := about id ((s.composed x).flatMap Message.entries)
  heard := about id (s.handled x)

def half (s : System) (x : Side) : Half where
  context := s.context x
  sent := s.session.sent x
  got := s.session.got x
  composed := s.composed x
  taken := s.taken x
  handled := s.handled x

structure Inv (s : System) : Prop where
  session : s.session.Inv
  flow : ∀ x, Flow (s.half x) (s.composed x.peer)
  demux : ∀ x, (s.context x).demux = decide (x = .demux)
  table : ∀ x, (s.context x).Table
  lane : ∀ id, 0 < id → Lane (s.lane id)

theorem inv_start {key : List UInt8} (h : key.length = KEYSZ) : (start key).Inv where
  session := Session.inv_start h
  flow x := by
    have hpos := GLOBAL_KARMA_pos
    refine ⟨rfl, rfl, List.nil_prefix, rfl, ?_, ?_, ?_, ?_, ?_, ?_⟩
    · simp [half, start, Session.start, Context.init]
    · simp only [half, start, Context.init]
      omega
    · simp [half, start, Session.start, Context.init]
    · simp [half, start, Context.init]
    · simp [half, start]
    · simp [half, start]
  demux _ := rfl
  table x := Context.table_init _
  lane id hid := by
    have hempty : (start key).lane id = fun _ ↦ ⟨.empty, [], []⟩ := by
      funext x
      simp [lane, start, Context.init, Function.update_of_ne (Nat.ne_of_gt hid)]
    rw [hempty]
    exact Lane.empty

variable {s s' : System} {x : Side} {id amt : ℕ} {mc mc' : Context} {slot : Slot}
  {cd : ClientData} {answer : ConnectAnswer}

/-! ## Karma -/

theorem Inv.streamKarma_eq (hinv : Inv s) (x : Side) : 0 ≤ (s.context x).streamKarma ∧
    (s.context x).streamKarma + (s.session.sent x).length =
      GLOBAL_KARMA - 1 + acked (s.taken x) :=
  ⟨(hinv.flow x).streamKarma_nonneg, (hinv.flow x).streamKarma⟩

theorem Inv.rstreamKarma_eq (hinv : Inv s) (x : Side) : 0 ≤ (s.context x).rstreamKarma ∧
    (s.context x).rstreamKarma + acked (s.composed x) = (s.session.got x).length :=
  ⟨(hinv.flow x).rstreamKarma_nonneg, (hinv.flow x).rstreamKarma⟩

/-- No more is acknowledged than was read. -/
theorem Inv.acked_le (hinv : Inv s) (x : Side) :
    acked (s.taken x) ≤ acked (s.composed x.peer) ∧
      acked (s.composed x.peer) ≤ (s.session.got x.peer).length := by
  obtain ⟨hnonneg, hkarma⟩ := hinv.rstreamKarma_eq x.peer
  exact ⟨acked_le_of_isPrefix (hinv.flow x).taken (hinv.flow x.peer).karma_nonneg, by omega⟩

/-- What `mainw` may write keeps it within the ring. -/
theorem Inv.window (hinv : Inv s) (h : (amt : ℤ) ≤ (s.context x).streamKarma) :
    (s.session.sent x).length + amt < (s.session.got x.peer).length + GLOBAL_KARMA := by
  obtain ⟨-, hkarma⟩ := hinv.streamKarma_eq x
  obtain ⟨htaken, hcomposed⟩ := hinv.acked_le x
  omega

/-- The karma that a message still gives is not more than was written. -/
theorem Inv.streamKarma_le (hinv : Inv s) {messages : List Message}
    (h : s.taken x ++ messages <+: s.composed x.peer) :
    (s.context x).streamKarma + acked messages ≤ GLOBAL_KARMA - 1 := by
  obtain ⟨-, hkarma⟩ := hinv.streamKarma_eq x
  have hle := acked_le_of_isPrefix h (hinv.flow x.peer).karma_nonneg
  rw [acked_append] at hle
  obtain ⟨-, hcomposed⟩ := hinv.acked_le x
  have hgot := (hinv.session.kept x.peer).isPrefix_got.length_le
  rw [Side.peer_peer] at hgot
  omega

theorem Inv.rstreamKarma_le (hinv : Inv s) (x : Side) :
    (s.context x).rstreamKarma ≤ GLOBAL_KARMA - 1 := by
  obtain ⟨-, hkarma⟩ := hinv.rstreamKarma_eq x
  obtain ⟨hnonneg, hpeer⟩ := hinv.streamKarma_eq x.peer
  obtain ⟨hle, -⟩ := hinv.acked_le x.peer
  rw [Side.peer_peer] at hle
  have hgot := (hinv.session.kept x).isPrefix_got.length_le
  omega

/-! ## Messages -/

/-- What has come of the message that comes next. -/
theorem Inv.exists_rest (hinv : Inv s) (x : Side) : ∃ rest,
    s.composed x.peer = s.taken x ++ rest ∧ (s.context x).rin <+: Message.stream rest := by
  obtain ⟨rest, hrest⟩ : s.taken x <+: s.composed x.peer := (hinv.flow x).taken
  refine ⟨rest, hrest.symm, ?_⟩
  have hsent : s.session.got x <+: Message.stream (s.composed x.peer) :=
    (hinv.session.kept x).isPrefix_got.trans ⟨_, (hinv.flow x.peer).sent⟩
  have hgot : s.session.got x = Message.stream (s.taken x) ++ (s.context x).rin :=
    (hinv.flow x).got
  rw [← hrest, hgot] at hsent
  have hstream : Message.stream (s.taken x ++ rest) =
      Message.stream (s.taken x) ++ Message.stream rest := Framing.stream_append _ _ _
  rwa [hstream, List.prefix_append_right_inj] at hsent

/-- The message that has come is the one that comes next. -/
theorem Inv.taken_append (hinv : Inv s) (h : Message.Whole (s.context x).rin) :
    (s.context x).rin = (Message.ofRin _ h).bytes ∧
      s.taken x ++ [Message.ofRin _ h] <+: s.composed x.peer := by
  obtain ⟨rest, hcomposed, hrin⟩ := hinv.exists_rest x
  obtain ⟨hbytes, rest', hrest⟩ := Message.ofRin_eq_head hrin h
  refine ⟨hbytes, rest', ?_⟩
  rw [hcomposed, hrest, List.append_assoc, List.singleton_append]

/-! ## Clients -/

theorem Inv.sound (hinv : Inv s) (x : Side) : (s.context x).Sound := by
  intro id cd hid hcd
  have hlane := hinv.lane id hid
  have hle := hlane.rkarma_le (x := x) hcd
  have hphase := (hlane.kept x).phase
  rw [show (s.lane id x).slot.client = some cd from hcd] at hphase
  generalize ((s.lane id x).slot).allocs = a, goneIn (s.lane id x).said = n,
    goneIn (s.lane id x).heard = r at hphase
  refine ⟨?_, hle, ?_⟩
  · cases hphase <;> omega
  · intro hrdead
    cases hphase with
    | opened _ _ hrdead' | gone _ _ hrdead' | told _ _ hrdead' =>
      rw [hrdead'] at hrdead
      cases hrdead
    | rdead _ _ _ hrkarma | stuck _ _ _ hrkarma => omega

/-- A client with a socket is not the control client. -/
theorem Inv.pos_of_s (hinv : Inv s) (hcd : (s.context x).client id = some cd) (hs : cd.s = true) :
    0 < id := by
  apply Nat.pos_of_ne_zero
  rintro rfl
  rw [(hinv.table x).control] at hcd
  obtain rfl := Option.some.inj hcd
  cases hs

/-! ## Events of one side -/

/-- What the events of side `x` have in common: `messages` are put together and `entries` are
done. -/
structure OnSide (s s' : System) (x : Side) (messages : List Message)
    (entries : List (ℤ × Entry)) : Prop where
  context : s'.context x.peer = s.context x.peer
  composed : s'.composed = Function.update s.composed x (s.composed x ++ messages)
  handled : s'.handled = Function.update s.handled x (s.handled x ++ entries)
  taken : s'.taken x.peer = s.taken x.peer
  sent : s'.session.sent x.peer = s.session.sent x.peer
  got : s'.session.got x.peer = s.session.got x.peer

variable {messages : List Message} {entries : List (ℤ × Entry)}

theorem OnSide.lane_eq (h : OnSide s s' x messages entries) (id : ℕ) :
    s'.lane id = Function.update (s.lane id) x
      { slot := (s'.context x).clientTable id
        said := (s.lane id x).said ++ about id (messages.flatMap Message.entries)
        heard := (s.lane id x).heard ++ about id entries } := by
  funext y
  rcases Side.eq_or_eq_peer x y with rfl | rfl
  · simp [lane, h.composed, h.handled]
  · simp [lane, h.composed, h.handled, h.context]

/-- An id about which nothing was said. -/
theorem OnSide.lane_same (h : OnSide s s' x messages entries)
    (hslot : (s'.context x).clientTable id = (s.context x).clientTable id)
    (hsaid : about id (messages.flatMap Message.entries) = []) (hheard : about id entries = []) :
    s'.lane id = s.lane id := by
  rw [h.lane_eq, hslot, hsaid, hheard, List.append_nil, List.append_nil]
  exact Function.update_eq_self x _

/-- Nothing changes for the other side but what is coming. -/
theorem OnSide.flow_peer (hinv : Inv s) (h : OnSide s s' x messages entries) :
    Flow (s'.half x.peer) (s'.composed x.peer.peer) := by
  have hhalf : s'.half x.peer = s.half x.peer := by
    simp [half, h.context, h.sent, h.got, h.composed, h.taken, h.handled]
  have hflow := hinv.flow x.peer
  rw [Side.peer_peer] at hflow
  rw [hhalf, Side.peer_peer, h.composed, Function.update_self]
  exact hflow.mono (List.prefix_append _ _)

/-- It is enough to look at the side of the event. -/
theorem Inv.of_onSide (hinv : Inv s) (h : OnSide s s' x messages entries)
    (hsession : s'.session.Inv) (hflow : Flow (s'.half x) (s.composed x.peer))
    (hdemux : (s'.context x).demux = (s.context x).demux) (htable : (s'.context x).Table)
    (hlane : ∀ id, 0 < id → Lane (s'.lane id)) : Inv s' where
  session := hsession
  flow y := by
    rcases Side.eq_or_eq_peer x y with rfl | rfl
    · rwa [h.composed, Function.update_of_ne (Side.peer_ne x)]
    · exact h.flow_peer hinv
  demux y := by
    rcases Side.eq_or_eq_peer x y with rfl | rfl
    · rw [hdemux]
      exact hinv.demux x
    · rw [h.context]
      exact hinv.demux x.peer
  table y := by
    rcases Side.eq_or_eq_peer x y with rfl | rfl
    · exact htable
    · rw [h.context]
      exact hinv.table x.peer
  lane := hlane

@[simp]
theorem context_setContext (s : System) (x : Side) (mc : Context) :
    (s.setContext x mc).context x = mc := Function.update_self _ _ _

@[simp]
theorem half_setContext (s : System) (x : Side) (mc : Context) :
    (s.setContext x mc).half x = { s.half x with context := mc } := by
  unfold half
  rw [context_setContext]
  rfl

theorem onSide_setContext (s : System) (x : Side) (mc : Context) :
    OnSide s (s.setContext x mc) x [] [] where
  context := Function.update_of_ne (Side.peer_ne x) _ _
  composed := by rw [List.append_nil, Function.update_eq_self]; rfl
  handled := by rw [List.append_nil, Function.update_eq_self]; rfl
  taken := rfl
  sent := rfl
  got := rfl

theorem Touches.clientTable_eq (h : Context.Touches mc mc' id slot) :
    mc'.clientTable = Function.update mc.clientTable id slot := by
  obtain ⟨queue, controls, rfl⟩ := h
  rfl

/-- An event that is about one client and puts no message together. -/
theorem Inv.of_touches (hinv : Inv s) (h : Context.Touches (s.context x) mc' id slot)
    (htable : mc'.Table)
    (hlane : Lane (Function.update (s.lane id) x { s.lane id x with slot := slot })) :
    Inv (s.setContext x mc') := by
  have hon := onSide_setContext s x mc'
  apply hinv.of_onSide hon hinv.session
  · rw [half_setContext]
    exact (hinv.flow x).touches h
  · rw [context_setContext]
    obtain ⟨queue, controls, rfl⟩ := h
    rfl
  · rw [context_setContext]
    exact htable
  · intro k hk
    by_cases hkid : k = id
    · rw [hon.lane_eq, context_setContext, Touches.clientTable_eq h, hkid, Function.update_self]
      simpa using hlane
    · have hslot : ((s.setContext x mc').context x).clientTable k =
          (s.context x).clientTable k := by
        rw [context_setContext, Touches.clientTable_eq h, Function.update_of_ne hkid]
      rw [hon.lane_same hslot rfl rfl]
      exact hinv.lane k hk

/-! ## Clients -/

theorem next_accept : s.next (.accept id) = some s' ↔
    ((s.context .mux).client id = none ∧ (∀ k < id, (s.context .mux).client k ≠ none) ∧
      (s.context .mux).failed = false) ∧
    s.setContext .mux ((s.context .mux).acceptClient id) = s' := by
  simp only [next, Option.ite_none_right_eq_some, Option.some.injEq]

/-- The mux accepts a client. -/
theorem Inv.accept (hinv : Inv s) (hlt : id < MAX_CLIENTS) (h : s.next (.accept id) = some s') :
    Inv s' := by
  obtain ⟨⟨hnone, -, -⟩, rfl⟩ := next_accept.mp h
  have hid : 0 < id := by
    apply Nat.pos_of_ne_zero
    rintro rfl
    rw [(hinv.table .mux).control] at hnone
    cases hnone
  exact hinv.of_touches (Context.touches_acceptClient _ id)
    ((hinv.table .mux).acceptClient hid hlt hnone)
    ((hinv.lane id hid).accept hnone rfl rfl rfl rfl rfl ⟨rfl, rfl⟩)

theorem next_clientConnected : s.next (.clientConnected x id) = some s' ↔ ∃ cd,
    (s.context x).client id = some cd ∧
    (cd.s = true ∧ cd.added = true ∧ (s.context x).failed = false) ∧
    s.setContext x ((s.context x).setClient id (some { cd with isConnecting := false })) = s' := by
  simp only [next]
  cases (s.context x).client id <;> simp

theorem Inv.clientConnected (hinv : Inv s) (h : s.next (.clientConnected x id) = some s') :
    Inv s' := by
  obtain ⟨cd, hcd, ⟨hs, hadded, -⟩, rfl⟩ := next_clientConnected.mp h
  have hid := hinv.pos_of_s hcd hs
  have hlane := hinv.lane id hid
  exact hinv.of_touches (Context.touches_setSlot _ id _)
    ((hinv.table x).setSlot_same hid hcd rfl rfl)
    (hlane.update ((hlane.kept x).connected hcd hs hadded) (List.prefix_refl _) (hlane.fifo x) rfl)

theorem next_gone : s.next (.gone x id) = some s' ↔ ∃ cd,
    (s.context x).client id = some cd ∧
    (cd.s = true ∧ cd.added = true ∧ (s.context x).failed = false) ∧
    s.setContext x ((s.context x).disconnectClient id cd) = s' := by
  simp only [next]
  cases (s.context x).client id <;> simp

/-- `disconnect_client` -/
theorem Inv.gone (hinv : Inv s) (h : s.next (.gone x id) = some s') : Inv s' := by
  obtain ⟨cd, hcd, ⟨hs, hadded, -⟩, rfl⟩ := next_gone.mp h
  have hid := hinv.pos_of_s hcd hs
  have hlane := hinv.lane id hid
  obtain ⟨hge, -, -⟩ := hinv.sound x id cd hid hcd
  have hkept := (hlane.kept x).gone hcd hs hadded
  exact hinv.of_touches (Context.touches_disconnectClient _ id cd)
    ((hinv.table x).disconnectClient hid hcd hge rfl)
    (hlane.update hkept (List.prefix_refl _) (hlane.fifo x) rfl)

theorem next_clientWrite : s.next (.clientWrite x id amt) = some s' ↔ ∃ cd,
    (s.context x).client id = some cd ∧ (cd.s = true ∧ cd.isConnecting = false ∧ 0 < amt ∧
      amt ≤ cd.outgoing.length ∧ (s.context x).failed = false) ∧
    s.setContext x ((s.context x).clientWrote id cd amt) = s' := by
  simp only [next]
  cases (s.context x).client id <;> simp

/-- `clientw` -/
theorem Inv.clientWrite (hinv : Inv s) (h : s.next (.clientWrite x id amt) = some s') : Inv s' := by
  obtain ⟨cd, hcd, ⟨hs, hcon, -, hamt, -⟩, rfl⟩ := next_clientWrite.mp h
  have hid := hinv.pos_of_s hcd hs
  have hlane := hinv.lane id hid
  have hphase := (hlane.kept x).phase
  rw [show (s.lane id x).slot.client = some cd from hcd] at hphase
  obtain ⟨-, hrkarma, -, -⟩ := hphase.of_added hs (hphase.added_of_connected hs hcon)
  have hlt := (hinv.table x).lt id (by rw [hcd]; exact Option.some_ne_none cd)
  exact hinv.of_touches (Context.touches_clientWrote _ id cd amt)
    ((hinv.table x).clientWrote hid hlt hcd hrkarma amt)
    (hlane.update ((hlane.kept x).wrote hcd hs hcon hamt) (List.prefix_refl _) (hlane.fifo x) rfl)

/-! ## Messages are put together -/

theorem onSide_compose (s : System) (x : Side) (mc : Context) (m : Message) :
    OnSide s (s.compose x mc m) x [m] [] where
  context := Function.update_of_ne (Side.peer_ne x) _ _
  composed := rfl
  handled := by rw [List.append_nil, Function.update_eq_self]; rfl
  taken := rfl
  sent := rfl
  got := rfl

@[simp]
theorem context_compose (s : System) (x : Side) (mc : Context) (m : Message) :
    (s.compose x mc m).context x = mc := Function.update_self _ _ _

@[simp]
theorem half_compose (s : System) (x : Side) (mc : Context) (m : Message) :
    (s.compose x mc m).half x =
      { s.half x with context := mc, composed := s.composed x ++ [m] } := by
  unfold half
  rw [context_compose, (onSide_compose s x mc m).composed, Function.update_self]
  rfl

theorem next_grab {bytes : List UInt8} : s.next (.grab x id bytes) = some s' ↔ ∃ cd,
    (s.context x).client id = some cd ∧
    ∃ h : 0 < bytes.length ∧ bytes.length ≤ VPACKETSIZE ∧ IsInt id,
      (s.Writing x ∧ (s.context x).wout.isNone = true ∧ cd.s = true ∧ cd.isConnecting = false ∧
        (bytes.length : ℤ) ≤ cd.wkarma ∧ (s.context x).failed = false) ∧
      s.compose x ((s.context x).grab id cd ⟨id, bytes, h.2.2, h.1, h.2.1⟩)
        ⟨id, bytes, h.2.2, h.1, h.2.1⟩ = s' := by
  simp only [next]
  cases (s.context x).client id with
  | none => simp
  | some cd =>
    by_cases h : 0 < bytes.length ∧ bytes.length ≤ VPACKETSIZE ∧ IsInt id
    · simp [h]
    · simp [h]

/-- `mainw` reads a packet from a client. -/
theorem Inv.grab {bytes : List UInt8} (hinv : Inv s) (h : s.next (.grab x id bytes) = some s') :
    Inv s' := by
  obtain ⟨cd, hcd, hbytes, ⟨-, hwout, hs, hcon, hle, -⟩, rfl⟩ := next_grab.mp h
  generalize hm : (⟨id, bytes, hbytes.2.2, hbytes.1, hbytes.2.1⟩ : Message) = m
  have hmid : m.id = id := by rw [← hm]
  have hmbuf : m.buf = bytes := by rw [← hm]
  have hid := hinv.pos_of_s hcd hs
  have hlane := hinv.lane id hid
  have hlt := (hinv.table x).lt id (by rw [hcd]; exact Option.some_ne_none cd)
  have hnot : ¬ m.id = -1 := by omega
  have hentries : m.entries = [((id : ℤ), .data bytes)] := by
    rw [Message.entries, if_neg hnot, hmid, hmbuf]
  have hkarma : m.karma = 0 := by rw [Message.karma, if_neg hnot]
  have hon := onSide_compose s x ((s.context x).grab id cd m) m
  have hflow := hinv.flow x
  apply hinv.of_onSide hon hinv.session
  · rw [half_compose]
    apply hflow.compose (Option.isNone_iff_eq_none.mp hwout) rfl
    · rw [hkarma, add_zero]
      rfl
    · exact ⟨hflow.rstreamKarma_nonneg, by rw [hkarma]⟩
    · rw [hentries]
      intro entry hentry
      obtain rfl := List.mem_singleton.mp hentry
      exact ⟨id, rfl, hid, hlt⟩
  · rw [context_compose]
    rfl
  · have hset : ((s.context x).setSlot id (Slot.addRead { (s.context x).clientTable id with
        client := some { cd with wkarma := cd.wkarma - m.buf.length } } m.buf)).Table :=
      (hinv.table x).setSlot_same hid hcd rfl rfl
    rw [context_compose]
    exact hset.of_eq rfl rfl rfl rfl rfl
  · intro k hk
    by_cases hkid : k = id
    · have hsaid : about k ([m].flatMap Message.entries) = [.data bytes] := by
        rw [List.flatMap_singleton, hentries, hkid, about_self]
      have hslot : ((s.context x).grab id cd m).clientTable k = Slot.addRead
          { (s.context x).clientTable id with
            client := some { cd with wkarma := cd.wkarma - bytes.length } } bytes := by
        rw [hkid, ← hmbuf]
        exact Function.update_self _ _ _
      have hkept := (hlane.kept x).data hcd hs hcon hle
      rw [hon.lane_eq, context_compose, hsaid, hslot, hkid, about_nil, List.append_nil]
      exact hlane.update hkept (List.prefix_append _ _) (hlane.fifo x) rfl
    · have hslot : ((s.compose x ((s.context x).grab id cd m) m).context x).clientTable k =
          (s.context x).clientTable k := by
        rw [context_compose]
        exact Function.update_of_ne hkid _ _
      have hsaid : about k ([m].flatMap Message.entries) = [] := by
        rw [List.flatMap_singleton, hentries, about_of_ne hkid]
      rw [hon.lane_same hslot hsaid rfl]
      exact hinv.lane k hk

theorem next_ack : s.next (.ack x) = some s' ↔
    (s.Writing x ∧ (s.context x).wout.isNone = true ∧ 0 < (s.context x).controls ∧
      (s.context x).failed = false) ∧
    s.compose x (s.context x).writeAck (s.context x).ackMessage = s' := by
  simp only [next, Option.ite_none_right_eq_some, Option.some.injEq]

/-- `mainw` writes an acknowledgement. -/
theorem Inv.ack (hinv : Inv s) (h : s.next (.ack x) = some s') : Inv s' := by
  obtain ⟨⟨-, hwout, hcontrols, -⟩, rfl⟩ := next_ack.mp h
  have htable := hinv.table x
  have hsound := hinv.sound x
  have hflow := hinv.flow x
  have hmax := hinv.rstreamKarma_le x
  have hrstream : 0 ≤ (s.context x).rstreamKarma ∧ (s.context x).rstreamKarma ≤ GLOBAL_KARMA :=
    ⟨hflow.rstreamKarma_nonneg, by omega⟩
  obtain ⟨htable', hdef⟩ := htable.writeAck hsound hcontrols hrstream
  have hentries := htable.entries_ackMessage hsound
  have hnodup : ((s.context x).karmaQueue.take Context.ROOM).Nodup :=
    htable.nodup.sublist (List.take_sublist _ _)
  have hon := onSide_compose s x (s.context x).writeAck (s.context x).ackMessage
  apply hinv.of_onSide hon hinv.session
  · rw [half_compose]
    apply hflow.compose (Option.isNone_iff_eq_none.mp hwout)
    · conv_lhs => rw [hdef]
      rw [hdef]
      rfl
    · rw [hdef, Context.karma_ackMessage hrstream]
      exact Int.zero_add _
    · rw [hdef, Context.karma_ackMessage hrstream]
      exact ⟨Int.le_refl 0, hrstream.1⟩
    · rw [hentries]
      intro entry hentry
      obtain ⟨id, hid, rfl⟩ := List.mem_map.mp hentry
      have hmem := List.mem_of_mem_take hid
      exact ⟨id, rfl, htable.pos hmem, htable.lt id (htable.client_ne_none hmem)⟩
  · rw [context_compose, hdef]
    rfl
  · rw [context_compose]
    exact htable'
  · intro id hid
    have hlane := hinv.lane id hid
    have hsaid : about id ([(s.context x).ackMessage].flatMap Message.entries) =
        if id ∈ (s.context x).karmaQueue.take Context.ROOM then
          [.ofKarma ((s.context x).rkarmaOf id)] else [] := by
      rw [List.flatMap_singleton, hentries]
      exact about_map hnodup (fun k ↦ .ofKarma ((s.context x).rkarmaOf k)) id
    have hslot : (s.context x).writeAck.clientTable id =
        if id ∈ (s.context x).karmaQueue.take Context.ROOM then (s.context x).tell id
        else (s.context x).clientTable id := by
      rw [hdef]
      rfl
    by_cases hmem : id ∈ (s.context x).karmaQueue.take Context.ROOM
    · obtain ⟨cd, hcd, hdue⟩ := (htable.mem_iff id).mp (List.mem_of_mem_take hmem)
      have hpos : cd.rkarma = -1 ∨ 0 < cd.rkarma := by
        have := ACK_THRESHOLD_pos
        exact hdue.imp_right fun hge ↦ by omega
      have htell : (s.context x).tell id = { (s.context x).clientTable id with
          client := if cd.isRdead then none else some { cd with rkarma := 0 } } := by
        rw [Context.tell, hcd]
        rfl
      have hkept := (hlane.kept x).tell hcd hpos
      rw [hon.lane_eq, context_compose, hsaid, hslot, if_pos hmem, if_pos hmem, htell,
        Context.rkarmaOf_eq hcd, about_nil, List.append_nil]
      exact hlane.update hkept (List.prefix_append _ _) (hlane.fifo x) rfl
    · rw [if_neg hmem] at hsaid hslot
      rw [hon.lane_same (by rw [context_compose]; exact hslot) hsaid rfl]
      exact hlane

/-! ## The stream -/

theorem history_write {t t' : Session} {bytes : List UInt8}
    (h : t.next (.write x bytes) = some t') :
    t'.sent = Function.update t.sent x (t.sent x ++ bytes) ∧ t'.got = t.got := by
  obtain ⟨c, -, -, rfl⟩ := Session.next_write.mp h
  exact ⟨rfl, rfl⟩

theorem history_read {t t' : Session} {c : ℕ} (h : t.next (.read x amt) = some t')
    (hc : t.conn x = some c) :
    t'.got = Function.update t.got x (t.got x ++ (t.flight c x).take amt) ∧ t'.sent = t.sent ∧
      ((t.flight c x).take amt).length = amt := by
  obtain ⟨c', hc', ⟨-, -, hle⟩, rfl⟩ := Session.next_read.mp h
  obtain rfl : c = c' := Option.some.inj (hc.symm.trans hc')
  exact ⟨rfl, rfl, List.length_take_of_le hle⟩

/-- What a connection event leaves as it is. -/
theorem history_connection {t t' : Session} {e : Event} (h : t.next e = some t')
    (hwrite : ∀ x bytes, e ≠ .write x bytes) (hread : ∀ x amt, e ≠ .read x amt)
    (hadopt : ∀ c, e = .adopt c → t.Found) : t'.sent = t.sent ∧ t'.got = t.got := by
  cases e with
  | connect =>
    obtain rfl := Option.some.inj h
    exact ⟨rfl, rfl⟩
  | connected =>
    obtain ⟨c, -, -, rfl⟩ := Session.next_connected.mp h
    exact ⟨rfl, rfl⟩
  | adopt c =>
    obtain ⟨-, rfl⟩ := (Session.next_adopt (hadopt c rfl)).mp h
    exact ⟨rfl, rfl⟩
  | disconnect =>
    obtain rfl := Option.some.inj h
    exact ⟨rfl, rfl⟩
  | readPosition x amt =>
    obtain ⟨c, -, -, rfl⟩ := Session.next_readPosition.mp h
    exact ⟨rfl, rfl⟩
  | pay x amt =>
    obtain ⟨c, -, -, rfl⟩ := Session.next_pay.mp h
    exact ⟨rfl, rfl⟩
  | write x bytes => exact absurd rfl (hwrite x bytes)
  | read x amt => exact absurd rfl (hread x amt)

theorem next_write : s.next (.write x amt) = some s' ↔ ∃ m, (s.context x).wout = some m ∧
    ((amt : ℤ) ≤ (s.context x).streamKarma ∧ (s.context x).wpos + amt ≤ m.bytes.length ∧
      (s.context x).failed = false) ∧
    ∃ t, s.session.next (.write x ((m.bytes.drop (s.context x).wpos).take amt)) = some t ∧
      { s.setContext x ((s.context x).wrote m amt) with session := t } = s' := by
  simp only [next]
  cases (s.context x).wout <;> simp

/-- `mainw` writes bytes of its message. -/
theorem Inv.write (hinv : Inv s) (h : s.next (.write x amt) = some s') : Inv s' := by
  obtain ⟨m, hwout, ⟨hkarma, hfits, -⟩, t, ht, rfl⟩ := next_write.mp h
  have hlength : ((m.bytes.drop (s.context x).wpos).take amt).length = amt := by
    rw [List.length_take, List.length_drop]
    omega
  obtain ⟨hsent, hgot⟩ := history_write ht
  have hpermits : s.session.Permits (.write x ((m.bytes.drop (s.context x).wpos).take amt)) := by
    have hwindow := hinv.window hkarma
    rw [← hlength] at hwindow
    exact hwindow
  have hon : OnSide s { s.setContext x ((s.context x).wrote m amt) with session := t } x [] [] :=
    { onSide_setContext s x ((s.context x).wrote m amt) with
      sent := by
        change t.sent x.peer = s.session.sent x.peer
        rw [hsent, Function.update_of_ne (Side.peer_ne x)]
      got := congrFun hgot x.peer }
  have hhalf : System.half { s.setContext x ((s.context x).wrote m amt) with session := t } x =
      { s.half x with
        context := (s.context x).wrote m amt
        sent := s.session.sent x ++ (m.bytes.drop (s.context x).wpos).take amt } := by
    simp [half, setContext, hsent, hgot]
  have hcontext := context_setContext s x ((s.context x).wrote m amt)
  apply hinv.of_onSide hon (hinv.session.next hpermits ht)
  · rw [hhalf]
    exact (hinv.flow x).write hwout hkarma hlength
  · have hdemux : ((s.setContext x ((s.context x).wrote m amt)).context x).demux =
        (s.context x).demux := by
      rw [hcontext]
      rfl
    exact hdemux
  · have htable : ((s.context x).wrote m amt).Table := (hinv.table x).of_eq rfl rfl rfl rfl rfl
    rwa [← hcontext] at htable
  · intro id hid
    have hslot : ((s.setContext x ((s.context x).wrote m amt)).context x).clientTable id =
        (s.context x).clientTable id := by
      rw [hcontext]
      rfl
    rw [hon.lane_same hslot rfl rfl]
    exact hinv.lane id hid

theorem next_read : s.next (.read x amt) = some s' ↔
    (¬ Message.Whole (s.context x).rin ∧ (s.context x).pairs = [] ∧ (s.context x).failed = false) ∧
    ((Message.rsz (s.context x).rin = none ∧ s.setContext x (s.context x).fail = s') ∨
      ∃ rsz, Message.rsz (s.context x).rin = some rsz ∧ (s.context x).rin.length + amt ≤ rsz ∧
        ∃ c, s.session.conn x = some c ∧ ∃ t, s.session.next (.read x amt) = some t ∧
          { s.setContext x ((s.context x).readMain ((s.session.flight c x).take amt)) with
            session := t } = s') := by
  simp only [next]
  cases Message.rsz (s.context x).rin <;>
    simp [Option.ite_none_right_eq_some, Option.bind_eq_some_iff]

/-- `mainr` reads bytes of its message. -/
theorem Inv.read (hinv : Inv s) (h : s.next (.read x amt) = some s') : Inv s' := by
  obtain ⟨-, ⟨hnone, -⟩ | ⟨rsz, -, -, c, hc, t, ht, rfl⟩⟩ := next_read.mp h
  · obtain ⟨rest, -, hrin⟩ := hinv.exists_rest x
    exact absurd hnone (Message.rsz_ne_none hrin)
  generalize hbytes : (s.session.flight c x).take amt = bytes
  obtain ⟨hgot, hsent, -⟩ := history_read ht hc
  rw [hbytes] at hgot
  obtain ⟨htable, hmc⟩ := (hinv.table x).readMain bytes
  have hon : OnSide s { s.setContext x ((s.context x).readMain bytes) with session := t } x [] [] :=
    { onSide_setContext s x ((s.context x).readMain bytes) with
      sent := congrFun hsent x.peer
      got := by
        change t.got x.peer = s.session.got x.peer
        rw [hgot, Function.update_of_ne (Side.peer_ne x)] }
  have hhalf : System.half { s.setContext x ((s.context x).readMain bytes) with session := t } x =
      { s.half x with
        context := (s.context x).readMain bytes
        got := s.session.got x ++ bytes } := by
    simp [half, setContext, hsent, hgot]
  have hcontext := context_setContext s x ((s.context x).readMain bytes)
  apply hinv.of_onSide hon (hinv.session.next (e := .read x amt) trivial ht)
  · rw [hhalf]
    exact (hinv.flow x).read hmc
  · have hdemux : ((s.setContext x ((s.context x).readMain bytes)).context x).demux =
        (s.context x).demux := by rw [hcontext, hmc]
    exact hdemux
  · rwa [← hcontext] at htable
  · intro id hid
    have hslot : ((s.setContext x ((s.context x).readMain bytes)).context x).clientTable id =
        (s.context x).clientTable id := by rw [hcontext, hmc]
    rw [hon.lane_same hslot rfl rfl]
    exact hinv.lane id hid

/-! ## Messages are looked at -/

theorem onSide_handle (s : System) (x : Side) (mc : Context) (entries : List (ℤ × Entry)) :
    OnSide s (s.handle x mc entries) x [] entries where
  context := Function.update_of_ne (Side.peer_ne x) _ _
  composed := by rw [List.append_nil, Function.update_eq_self]; rfl
  handled := rfl
  taken := rfl
  sent := rfl
  got := rfl

@[simp]
theorem context_handle (s : System) (x : Side) (mc : Context) (entries : List (ℤ × Entry)) :
    (s.handle x mc entries).context x = mc := Function.update_self _ _ _

@[simp]
theorem half_handle (s : System) (x : Side) (mc : Context) (entries : List (ℤ × Entry)) :
    (s.handle x mc entries).half x =
      { s.half x with context := mc, handled := s.handled x ++ entries } := by
  unfold half
  rw [context_handle, (onSide_handle s x mc entries).handled, Function.update_self]
  rfl

/-- The entry that is done next is the next that the other side has said about its client. -/
theorem Inv.next_entry (hinv : Inv s) {k : ℤ} {e : Entry}
    (h : s.handled x ++ [(k, e)] <+: (s.composed x.peer).flatMap Message.entries) :
    ∃ id : ℕ, k = id ∧ 0 < id ∧ id < MAX_CLIENTS ∧
      (s.lane id x).heard ++ [e] <+: (s.lane id x.peer).said := by
  have hmem : (k, e) ∈ (s.composed x.peer).flatMap Message.entries :=
    h.subset (List.mem_append_right _ (List.mem_singleton_self _))
  obtain ⟨id, rfl, hid, hlt⟩ := (hinv.flow x.peer).ids _ hmem
  have hisPrefix := isPrefix_about id h
  rw [about_append, about_self] at hisPrefix
  exact ⟨id, rfl, hid, hlt, hisPrefix⟩

/-- `get_client` makes a client where there is none. -/
theorem Inv.create (hinv : Inv s) (hid : 0 < id) (hlt : id < MAX_CLIENTS) {e : Entry}
    (hnext : (s.lane id x).heard ++ [e] <+: (s.lane id x.peer).said)
    (hnone : (s.context x).client id = none) (answer : ConnectAnswer) :
    (s.context x).demux = true ∧
      Inv (s.setContext x ((s.context x).allocateClient id (Context.newClient answer))) := by
  have hlane := hinv.lane id hid
  obtain ⟨rfl, -⟩ := (hlane.next_client hnext).2.1 hnone
  refine ⟨hinv.demux .demux, ?_⟩
  exact hinv.of_touches (Context.touches_setSlot _ id _)
    ((hinv.table .demux).allocateClient hid hlt hnone rfl)
    (hlane.create hnext hnone rfl rfl rfl rfl Context.isConnecting_newClient ⟨rfl, rfl⟩)

/-- The lanes when an entry was done for a client that there is. -/
theorem Inv.lane_hear (hinv : Inv s) {e : Entry} (hon : OnSide s s' x [] entries)
    (hentries : entries = [((id : ℤ), e)]) (hid : 0 < id)
    (hnext : (s.lane id x).heard ++ [e] <+: (s.lane id x.peer).said)
    (hcd : (s.context x).client id = some cd)
    (htable : (s'.context x).clientTable = Function.update (s.context x).clientTable id
      { (s.context x).clientTable id with client := cd.hear e }) {k : ℕ} (hk : 0 < k) :
    Lane (s'.lane k) := by
  rw [hentries] at hon
  by_cases hkid : k = id
  · have hheard := (hinv.lane id hid).hear hnext hcd
    rw [hon.lane_eq, hkid, about_self, htable, Function.update_self, List.flatMap_nil, about_nil,
      List.append_nil]
    exact hheard
  · have hslot : (s'.context x).clientTable k = (s.context x).clientTable k := by
      rw [htable, Function.update_of_ne hkid]
    rw [hon.lane_same hslot rfl (about_of_ne hkid e)]
    exact hinv.lane k hk

theorem next_pair : s.next (.pair x answer) = some s' ↔ ∃ k karma pairs,
    (s.context x).pairs = (k, karma) :: pairs ∧ (s.context x).failed = false ∧
    s.handle x ({ s.context x with pairs := pairs }.readAckPair k karma answer)
      [(k, .ofKarma karma)] = s' := by
  simp only [next]
  cases (s.context x).pairs with
  | nil => simp
  | cons pair pairs =>
    obtain ⟨k, karma⟩ := pair
    simp [Option.ite_none_right_eq_some]

/-- A round of the loop of `read_ack`, for a client that there is. -/
theorem Inv.pair_some (hinv : Inv s) (answer : ConnectAnswer) (hid : 0 < id) {karma : ℤ}
    {pairs : List (ℤ × ℤ)}
    (hpairs : (s.context x).pairs = ((id : ℤ), karma) :: pairs)
    (hnext : (s.lane id x).heard ++ [.ofKarma karma] <+: (s.lane id x.peer).said)
    (hcd : (s.context x).client id = some cd) :
    Inv (s.handle x ({ s.context x with pairs := pairs }.readAckPair id karma answer)
      [((id : ℤ), .ofKarma karma)]) := by
  have htable : Context.Table { s.context x with pairs := pairs } :=
    (hinv.table x).of_eq rfl rfl rfl rfl rfl
  have hsound : Context.Sound { s.context x with pairs := pairs } := hinv.sound x
  obtain ⟨htable', htouches⟩ := htable.readAckPair hsound hid hcd karma answer
  generalize hmc : { s.context x with pairs := pairs }.readAckPair id karma answer = mc at *
  have hon := onSide_handle s x mc [((id : ℤ), .ofKarma karma)]
  apply hinv.of_onSide hon hinv.session
  · rw [half_handle]
    apply (hinv.flow x).pair hpairs
    obtain ⟨queue, controls, rfl⟩ := htouches
    rfl
  · rw [context_handle]
    obtain ⟨queue, controls, rfl⟩ := htouches
    rfl
  · rw [context_handle]
    exact htable'
  · intro k hk
    refine hinv.lane_hear hon rfl hid hnext hcd ?_ hk
    have hclientTable := Touches.clientTable_eq htouches
    rw [context_handle]
    exact hclientTable

@[simp]
theorem handle_setContext (s : System) (x : Side) (mc mc' : Context)
    (entries : List (ℤ × Entry)) :
    (s.setContext x mc).handle x mc' entries = s.handle x mc' entries := by
  unfold handle setContext
  simp

theorem Inv.pair (hinv : Inv s) (h : s.next (.pair x answer) = some s') : Inv s' := by
  obtain ⟨k, karma, pairs, hpairs, -, rfl⟩ := next_pair.mp h
  have hisPrefix : s.handled x ++ [(k, .ofKarma karma)] <+:
      (s.composed x.peer).flatMap Message.entries := by
    obtain ⟨rest, hrest⟩ : s.taken x <+: s.composed x.peer := (hinv.flow x).taken
    have hhandled : s.handled x ++ (s.context x).pairs.map
        (fun pair ↦ (pair.1, Entry.ofKarma pair.2)) = (s.taken x).flatMap Message.entries :=
      (hinv.flow x).handled
    rw [hpairs, List.map_cons] at hhandled
    rw [← hrest, List.flatMap_append, ← hhandled]
    exact ⟨pairs.map (fun pair ↦ (pair.1, Entry.ofKarma pair.2)) ++
      rest.flatMap Message.entries, by simp⟩
  obtain ⟨id, rfl, hid, hlt, hnext⟩ := hinv.next_entry hisPrefix
  cases hcd : (s.context x).client id with
  | some cd => exact hinv.pair_some answer hid hpairs hnext hcd
  | none =>
    obtain ⟨hdemux, hcreated⟩ := hinv.create hid hlt hnext hcd answer
    have hclient : ((s.setContext x ((s.context x).allocateClient id
        (Context.newClient answer))).context x).client id = some (Context.newClient answer) := by
      simp
    have hafter := hcreated.pair_some answer hid
      (by rw [context_setContext]; exact hpairs) hnext hclient
    have hcd' : Context.client { s.context x with pairs := pairs } id = none := hcd
    rw [Context.readAckPair_create hlt hcd' hdemux]
    rw [context_setContext, handle_setContext] at hafter
    exact hafter

theorem next_process : s.next (.process x answer) = some s' ↔
    ∃ h : Message.Whole (s.context x).rin,
      ((s.context x).pairs = [] ∧ (s.context x).failed = false) ∧
      { s.handle x ((s.context x).process (Message.ofRin _ h) answer)
          (if (Message.ofRin _ h).id = -1 then [] else (Message.ofRin _ h).entries) with
        taken := Function.update s.taken x (s.taken x ++ [Message.ofRin _ h]) } = s' := by
  simp only [next]
  by_cases h : Message.Whole (s.context x).rin
  · simp [h, Option.ite_none_right_eq_some]
  · simp [h]

theorem onSide_taken {s' : System} (h : OnSide s s' x messages entries) (taken : List Message) :
    OnSide s { s' with taken := Function.update s.taken x taken } x messages entries :=
  { h with taken := Function.update_of_ne (Side.peer_ne x) _ _ }

theorem half_taken (s : System) (x : Side) (mc : Context) (entries : List (ℤ × Entry))
    (taken : List Message) : System.half { s.handle x mc entries with
      taken := Function.update s.taken x taken } x =
    { s.half x with context := mc, taken := taken, handled := s.handled x ++ entries } := by
  simp [half, handle, setContext]

/-- `mainr` looks at an acknowledgement. -/
theorem Inv.process_ack (hinv : Inv s) {m : Message} (hrin : (s.context x).rin = m.bytes)
    (hpairs : (s.context x).pairs = []) (htaken : s.taken x ++ [m] <+: s.composed x.peer)
    (hm : m.id = -1) (answer : ConnectAnswer) :
    Inv { s.handle x ((s.context x).process m answer) [] with
      taken := Function.update s.taken x (s.taken x ++ [m]) } := by
  have hnonneg : 0 ≤ m.karma := (hinv.flow x.peer).karma_nonneg m
    (htaken.subset (List.mem_append_right _ (List.mem_singleton_self m)))
  have hmax := hinv.streamKarma_le htaken
  rw [acked_singleton] at hmax
  obtain ⟨hpos, -⟩ := hinv.streamKarma_eq x
  have hmc : (s.context x).process m answer = { s.context x with
      rin := []
      streamKarma := (s.context x).streamKarma + m.karma
      pairs := ackPairs (m.buf.drop 4) } :=
    Context.process_ack hm ⟨by omega, by omega⟩
  generalize (s.context x).process m answer = mc at hmc
  have hon := onSide_taken (onSide_handle s x mc []) (s.taken x ++ [m])
  have hentries : [] ++ (ackPairs (m.buf.drop 4)).map
      (fun pair ↦ (pair.1, Entry.ofKarma pair.2)) = m.entries := by
    rw [Message.entries, if_pos hm]
    rfl
  have hcontext := context_handle s x mc []
  apply hinv.of_onSide hon hinv.session
  · rw [half_taken]
    refine (hinv.flow x).process hrin hpairs htaken hentries ?_ hnonneg
    rw [hmc]
    rfl
  · have hdemux : ((s.handle x mc []).context x).demux = (s.context x).demux := by
      rw [hcontext, hmc]
    exact hdemux
  · have htable : mc.Table := by
      rw [hmc]
      exact (hinv.table x).of_eq rfl rfl rfl rfl rfl
    rwa [← hcontext] at htable
  · intro id hid
    have hslot : ((s.handle x mc []).context x).clientTable id =
        (s.context x).clientTable id := by rw [hcontext, hmc]
    rw [hon.lane_same hslot rfl rfl]
    exact hinv.lane id hid

/-- `mainr` looks at data for a client that there is. -/
theorem Inv.process_some (hinv : Inv s) {m : Message} (hrin : (s.context x).rin = m.bytes)
    (hpairs : (s.context x).pairs = []) (htaken : s.taken x ++ [m] <+: s.composed x.peer)
    (hid : 0 < id) (hm : m.id = id)
    (hnext : (s.lane id x).heard ++ [.data m.buf] <+: (s.lane id x.peer).said)
    (hcd : (s.context x).client id = some cd) (answer : ConnectAnswer) :
    Inv { s.handle x ((s.context x).process m answer) m.entries with
      taken := Function.update s.taken x (s.taken x ++ [m]) } := by
  have hnot : ¬ m.id = -1 := by omega
  have hkarma : m.karma = 0 := by rw [Message.karma, if_neg hnot]
  have hentries : m.entries = [((id : ℤ), .data m.buf)] := by
    rw [Message.entries, if_neg hnot, hm]
  have hroom : cd.outSz + m.buf.length ≤ CLIENT_KARMA := (hinv.lane id hid).room hnext hcd
  obtain ⟨htable, hmc⟩ := (hinv.table x).process hid hm hcd hroom answer
  generalize (s.context x).process m answer = mc at htable hmc
  have hon := onSide_taken (onSide_handle s x mc m.entries) (s.taken x ++ [m])
  have hcontext := context_handle s x mc m.entries
  apply hinv.of_onSide hon hinv.session
  · rw [half_taken]
    have hnothing : m.entries ++ ([] : List (ℤ × ℤ)).map
        (fun pair ↦ (pair.1, Entry.ofKarma pair.2)) = m.entries := List.append_nil _
    refine (hinv.flow x).process hrin hpairs htaken hnothing ?_ hkarma.ge
    rw [hmc, hkarma, add_zero, ← hpairs]
    rfl
  · have hdemux : ((s.handle x mc m.entries).context x).demux = (s.context x).demux := by
      rw [hcontext, hmc]
      rfl
    exact hdemux
  · rwa [← hcontext] at htable
  · intro k hk
    have hclientTable : ((s.handle x mc m.entries).context x).clientTable =
        Function.update (s.context x).clientTable id
          { (s.context x).clientTable id with client := cd.hear (.data m.buf) } := by
      rw [hcontext, hmc]
      rfl
    exact hinv.lane_hear hon hentries hid hnext hcd hclientTable hk

theorem Inv.process (hinv : Inv s) (h : s.next (.process x answer) = some s') : Inv s' := by
  obtain ⟨hwhole, ⟨hpairs, -⟩, rfl⟩ := next_process.mp h
  obtain ⟨hrin, htaken⟩ := hinv.taken_append hwhole
  generalize Message.ofRin (s.context x).rin hwhole = m at hrin htaken
  by_cases hm : m.id = -1
  · rw [if_pos hm]
    exact hinv.process_ack hrin hpairs htaken hm answer
  rw [if_neg hm]
  have hisPrefix : s.handled x ++ [(m.id, .data m.buf)] <+:
      (s.composed x.peer).flatMap Message.entries := by
    obtain ⟨rest, hrest⟩ := htaken
    have hhandled : s.handled x ++ (s.context x).pairs.map
        (fun pair ↦ (pair.1, Entry.ofKarma pair.2)) = (s.taken x).flatMap Message.entries :=
      (hinv.flow x).handled
    rw [hpairs, List.map_nil, List.append_nil] at hhandled
    have hentries : m.entries = [(m.id, .data m.buf)] := by rw [Message.entries, if_neg hm]
    rw [← hrest, List.flatMap_append, List.flatMap_append, List.flatMap_singleton, hentries,
      ← hhandled]
    exact List.prefix_append _ _
  obtain ⟨id, hid, hpos, hlt, hnext⟩ := hinv.next_entry hisPrefix
  cases hcd : (s.context x).client id with
  | some cd => exact hinv.process_some hrin hpairs htaken hpos hid hnext hcd answer
  | none =>
    obtain ⟨hdemux, hcreated⟩ := hinv.create hpos hlt hnext hcd answer
    have hclient : ((s.setContext x ((s.context x).allocateClient id
        (Context.newClient answer))).context x).client id = some (Context.newClient answer) := by
      simp
    have hafter := hcreated.process_some (m := m) (by rw [context_setContext]; exact hrin)
      (by rw [context_setContext]; exact hpairs) htaken hpos hid hnext hclient answer
    rw [Context.process_create hid hlt hcd hdemux]
    rw [context_setContext, handle_setContext] at hafter
    exact hafter

/-! ## Connections -/

/-- Neither the contexts nor what was written and read changes. -/
theorem Inv.of_session (hinv : Inv s) {t : Session} (ht : t.Inv)
    (hhistory : t.sent = s.session.sent ∧ t.got = s.session.got) :
    Inv { s with session := t } where
  session := ht
  flow x := by
    have hhalf : System.half { s with session := t } x = s.half x := by
      simp [half, hhistory.1, hhistory.2]
    rw [hhalf]
    exact hinv.flow x
  demux := hinv.demux
  table := hinv.table
  lane := hinv.lane

theorem next_connection {e : Event} (hfound : ∀ c, e = .adopt c → s.session.Found)
    (h : s.next (.connection e) = some s') :
    (∀ x bytes, e ≠ .write x bytes) ∧ (∀ x amt, e ≠ .read x amt) ∧
      ∃ t, s.session.next e = some t ∧ { s with session := t } = s' := by
  cases e with
  | write x bytes => cases h
  | read x amt => cases h
  | adopt c =>
    simp only [next, if_pos (hfound c rfl), Option.map_eq_some_iff] at h
    exact ⟨nofun, nofun, h⟩
  | connect | connected | disconnect | readPosition x amt | pay x amt =>
    simp only [next, Option.map_eq_some_iff] at h
    exact ⟨nofun, nofun, h⟩

theorem Inv.connection {e : Event} (hinv : Inv s) (hfound : ∀ c, e = .adopt c → s.session.Found)
    (h : s.next (.connection e) = some s') : Inv s' := by
  obtain ⟨hwrite, hread, t, ht, rfl⟩ := next_connection hfound h
  have hpermits : s.session.Permits e := by
    cases e with
    | write x bytes => exact absurd rfl (hwrite x bytes)
    | adopt c => exact hfound c rfl
    | connect | connected | disconnect | readPosition | pay | read => trivial
  exact hinv.of_session (hinv.session.next hpermits ht) (history_connection ht hwrite hread hfound)

/-! ## Runs -/

/-- What is asked of a run: the other process finds its context again, and the mux has not more
clients than there are ids. -/
def Permits (s : System) : Act → Prop
  | .connection (.adopt _) => s.session.Found
  | .accept id => id < MAX_CLIENTS
  | _ => True

instance (s : System) (e : Act) : Decidable (s.Permits e) := by
  unfold Permits
  split <;> infer_instance

theorem Inv.next {e : Act} (hinv : Inv s) (hpermits : s.Permits e) (h : s.next e = some s') :
    Inv s' := by
  cases e with
  | connection e => exact hinv.connection (fun c hc ↦ by subst hc; exact hpermits) h
  | accept id => exact hinv.accept hpermits h
  | clientConnected x id => exact hinv.clientConnected h
  | gone x id => exact hinv.gone h
  | grab x id bytes => exact hinv.grab h
  | ack x => exact hinv.ack h
  | write x amt => exact hinv.write h
  | read x amt => exact hinv.read h
  | process x answer => exact hinv.process h
  | pair x answer => exact hinv.pair h
  | clientWrite x id amt => exact hinv.clientWrite h

/-- Both processes, as long as the other process finds its context and the ids are enough. -/
def machine (key : List UInt8) : Machine System Act :=
  (Machine.ofNext (start key) next).guard Permits

theorem inv_of_run {key : List UInt8} (hkey : key.length = KEYSZ) {acts : List Act}
    (hrun : (machine key).Run acts s) : s.Inv := by
  apply hrun.invariant
  · rintro _ rfl
    exact inv_start hkey
  · rintro s e t hinv ⟨hstep, hpermits⟩
    exact hinv.next hpermits hstep

end System

end QNet.Tcpmux
