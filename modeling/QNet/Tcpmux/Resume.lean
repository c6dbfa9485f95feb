import QNet.Tcpmux.Stream

/-!
# The stream goes on where it was

Whatever connections break, and whichever of them the other process finds in what order, each side
reads the stream of the other one from its beginning, without a gap and without a byte twice. The
ring and the counters modulo its size are enough for this as long as a side never writes more than
`GLOBAL_KARMA - 1` bytes that the other has not read.
-/

namespace QNet.Tcpmux

variable {s s' : Session} {x : Side} {c amt : ℕ} {bytes : List UInt8}

@[simp]
theorem Side.peer_peer (x : Side) : x.peer.peer = x := by cases x <;> rfl

@[simp]
theorem Side.peer_ne (x : Side) : x.peer ≠ x := by cases x <;> decide

@[simp]
theorem Side.ne_peer (x : Side) : x ≠ x.peer := by cases x <;> decide

theorem Side.eq_or_eq_peer (x y : Side) : x = y ∨ x.peer = y := by cases x <;> cases y <;> decide

theorem GLOBAL_KARMA_pos : 0 < GLOBAL_KARMA := by decide

/-! ## The ring -/

/-- The place where a round of `write_cbuf` writes. -/
theorem cpos_eq {n opos csz len : ℕ} (hopos : opos < n) (hcsz : csz ≤ n)
    (hplace : (opos + csz) % n = len % n) :
    (if n ≤ opos + csz then opos + csz - n else opos + csz) = len % n := by
  rw [← hplace]
  split_ifs with hle
  · rw [Nat.mod_eq_sub_mod hle, Nat.mod_eq_of_lt (by omega)]
  · rw [Nat.mod_eq_of_lt (by omega)]

/-- What `*csz` becomes: with `rotsz` it is a place in the ring. -/
def counted (n : ℕ) (rotsz : Bool) (csz k : ℕ) : ℕ := if rotsz then (csz + k) % n else csz + k

theorem counted_zero {n csz : ℕ} {rotsz : Bool} (h : rotsz = true → csz < n) :
    counted n rotsz csz 0 = csz := by
  cases rotsz
  · rfl
  · exact Nat.mod_eq_of_lt (h rfl)

theorem counted_counted (n : ℕ) (rotsz : Bool) (csz k j : ℕ) :
    counted n rotsz (counted n rotsz csz k) j = counted n rotsz csz (k + j) := by
  cases rotsz
  · simp only [counted, Bool.false_eq_true, if_false, Nat.add_assoc]
  · simp only [counted, if_true, Nat.mod_add_mod, Nat.add_assoc]

/-- `write_cbuf` appends to what the ring still has. -/
theorem writeCbufLoop_spec {n opos csz fuel : ℕ} {rotsz : Bool} {ring : Mem}
    {stream wdata : List UInt8} (hring : Replay.Recent n ring stream) (hopos : opos < n)
    (hplace : (opos + csz) % n = stream.length % n) (hfuel : wdata.length ≤ fuel)
    (hrot : rotsz = true → opos = 0 ∧ csz < n) (hflat : rotsz = false → csz + wdata.length ≤ n) :
    Replay.Recent n (writeCbufLoop opos n rotsz fuel ring csz wdata).1 (stream ++ wdata) ∧
      (writeCbufLoop opos n rotsz fuel ring csz wdata).2 = counted n rotsz csz wdata.length := by
  have hn : 0 < n := Nat.zero_lt_of_lt hopos
  induction fuel generalizing ring csz stream wdata with
  | zero =>
    rw [List.length_eq_zero_iff.mp (Nat.le_zero.mp hfuel), writeCbufLoop, List.append_nil]
    exact ⟨hring, (counted_zero fun h ↦ (hrot h).2).symm⟩
  | succ fuel ih =>
    by_cases hpos : 0 < wdata.length
    · have hcsz : csz ≤ n := by
        cases rotsz
        · have := hflat rfl
          omega
        · exact (hrot rfl).2.le
      have hlt := Nat.mod_lt stream.length hn
      rw [writeCbufLoop, if_pos hpos]
      simp only [cpos_eq hopos hcsz hplace]
      generalize hamt : min wdata.length (n - stream.length % n) = amt
      have htake : (wdata.take amt).length = amt := by
        rw [List.length_take]
        omega
      have hnext : (if rotsz = true ∧ n ≤ csz + amt then csz + amt - n else csz + amt) =
          counted n rotsz csz amt := by
        cases rotsz
        · rfl
        · obtain ⟨hzero, hcsz⟩ := hrot rfl
          rw [hzero, Nat.zero_add, Nat.mod_eq_of_lt hcsz] at hplace
          simp only [counted, true_and, if_true]
          split_ifs with hle
          · rw [show csz + amt = n by omega, Nat.sub_self, Nat.mod_self]
          · rw [Nat.mod_eq_of_lt (Nat.not_le.mp hle)]
      have hplace' : (opos + counted n rotsz csz amt) % n =
          (stream ++ wdata.take amt).length % n := by
        rw [List.length_append, htake, Nat.add_mod stream.length, ← hplace, ← Nat.add_mod,
          Nat.add_assoc]
        cases rotsz
        · rfl
        · rw [(hrot rfl).1, counted, if_pos rfl, Nat.zero_add, Nat.zero_add, Nat.mod_mod]
      have hcounted : counted n rotsz (counted n rotsz csz amt) (wdata.drop amt).length =
          counted n rotsz csz wdata.length := by
        rw [counted_counted, List.length_drop, Nat.add_sub_cancel' (by omega)]
      rw [hnext, ← hcounted]
      have hleft : (wdata.drop amt).length ≤ fuel := by
        rw [List.length_drop]
        omega
      have hrest := ih (hring.append hn (by rw [htake]; omega)) hplace' hleft
        (fun h ↦ ⟨(hrot h).1, by rw [counted, if_pos h]; exact Nat.mod_lt _ hn⟩)
        (fun h ↦ by
          have hfits := hflat h
          rw [counted, if_neg (by simp [h]), List.length_drop]
          omega)
      rwa [List.append_assoc, List.take_append_drop] at hrest
    · have hnil := List.length_eq_zero_iff.mp (Nat.eq_zero_of_not_pos hpos)
      rw [writeCbufLoop, if_neg hpos, hnil, List.append_nil]
      exact ⟨hring, (counted_zero fun h ↦ (hrot h).2).symm⟩

/-! ## What the calls change of a side -/

namespace Transport

variable (t : Transport)

theorem readPosition_eq : t.readPosition bytes = { t with
    handshakeSt := t.handshakeSt + bytes.length
    debtBytes := t.debtBytes ++ bytes
    streamDebt := (t.readPosition bytes).streamDebt } := by
  unfold readPosition
  dsimp only
  split_ifs <;> rfl

theorem streamDebt_readPosition (h : t.handshakeSt + bytes.length = KEYSZ + 4) :
    (t.readPosition bytes).streamDebt =
      Replay.behind GLOBAL_KARMA t.streamPos (ntohl (t.debtBytes ++ bytes)) := by
  unfold readPosition
  dsimp only
  rw [if_pos h]

@[simp]
theorem readPosition_mainfd : (t.readPosition bytes).mainfd = t.mainfd := by rw [readPosition_eq]

@[simp]
theorem readPosition_isConnecting : (t.readPosition bytes).isConnecting = t.isConnecting := by
  rw [readPosition_eq]

@[simp]
theorem readPosition_handshakeSt :
    (t.readPosition bytes).handshakeSt = t.handshakeSt + bytes.length := by rw [readPosition_eq]

@[simp]
theorem readPosition_debtBytes : (t.readPosition bytes).debtBytes = t.debtBytes ++ bytes := by
  rw [readPosition_eq]

@[simp]
theorem readPosition_streamPos : (t.readPosition bytes).streamPos = t.streamPos := by
  rw [readPosition_eq]

@[simp]
theorem readPosition_stream : (t.readPosition bytes).stream = t.stream := by rw [readPosition_eq]

@[simp]
theorem readPosition_rstreamPos : (t.readPosition bytes).rstreamPos = t.rstreamPos := by
  rw [readPosition_eq]

end Transport

/-! ## What holds in every state -/

namespace Session

/-- What the counters and the ring of a side say of the two streams. -/
structure Kept (s : Session) (x : Side) : Prop where
  pos : (s.side x).streamPos = (s.sent x).length % GLOBAL_KARMA
  ring : Replay.Recent GLOBAL_KARMA (s.side x).stream (s.sent x)
  rpos : (s.side x).rstreamPos = (s.got x).length % GLOBAL_KARMA
  isPrefix_got : s.got x <+: s.sent x.peer
  window : (s.sent x.peer).length < (s.got x).length + GLOBAL_KARMA
  handshake : (s.side x).mainfd ≠ none →
    (s.side x).handshakeSt = KEYSZ + (s.side x).debtBytes.length

/-- What has come on a connection and is still to come: the position `p` that the peer told, and
then a part of the stream that goes on where this side has read to. -/
structure Toward (s : Session) (x : Side) (c : ℕ) (p body : List UInt8) : Prop where
  length : p.length = 4
  bytes : (s.side x).debtBytes ++ s.flight c x = p ++ body
  goes_on : body <+: (s.sent x.peer).drop (s.got x).length

/-- Nothing has come yet. -/
def Untold (s : Session) (x : Side) (c : ℕ) : Prop :=
  (s.side x).debtBytes = [] ∧ s.flight c x = []

/-- Both sides are on the connection: what the peer has told is where it has read to, and when it
was told itself what is on the way and what it owes is all that is missing. -/
def Paired (s : Session) (x : Side) (c : ℕ) : Prop :=
  ∃ p body, s.Toward x c p body ∧
    (¬ (s.side x).Ready → p = htonl ((s.got x.peer).length % GLOBAL_KARMA : ℕ)) ∧
    (¬ (s.side x.peer).Ready → body = []) ∧
    ((s.side x.peer).Ready →
      (body.length : ℤ) + (s.side x.peer).streamDebt = (s.sent x.peer).length - (s.got x).length)

/-- A connection that the other process has not found the context for. -/
structure Waits (s : Session) (c : ℕ) : Prop where
  lt : c < s.opened
  to_mux : s.flight c .mux = []
  demux_ne : (s.side .demux).mainfd ≠ some c
  mux_untold : (s.side .mux).mainfd = some c → (s.side .mux).debtBytes = []
  header : s.conn .mux = some c →
    s.flight c .demux = s.key ++ htonl ((s.got .mux).length % GLOBAL_KARMA : ℕ)
  connecting : (s.side .mux).mainfd = some c → (s.side .mux).isConnecting = true →
    s.flight c .demux = []
  told : s.flight c .demux = [] ∨ ∃ p, p.length = 4 ∧ s.flight c .demux = s.key ++ p

structure Inv (s : Session) : Prop where
  kept : ∀ x, s.Kept x
  flow : ∀ x c, s.conn x = some c → s.Untold x c ∨ ∃ p body, s.Toward x c p body
  paired : ∀ c, (∀ x, s.conn x = some c) → ∀ x, s.Paired x c
  waits : ∀ c, s.waiting c = true → s.Waits c
  connecting : ∀ c, (s.side .mux).mainfd = some c → (s.side .mux).isConnecting = true →
    s.waiting c = true
  connected : (s.side .demux).isConnecting = false
  lt_opened : ∀ x c, (s.side x).mainfd = some c → c < s.opened
  unopened : ∀ c x, s.opened ≤ c → s.flight c x = []
  length_key : s.key.length = KEYSZ

/-! ## The parts of a state after an event -/

@[simp]
theorem side_setSide (s : Session) (x z : Side) (t : Transport) :
    (s.setSide x t).side z = if z = x then t else s.side z := by
  simp [setSide, Function.update_apply]

@[simp]
theorem flight_setFlight (s : Session) (c d : ℕ) (x z : Side) (bytes : List UInt8) :
    (s.setFlight c x bytes).flight d z = if d = c ∧ z = x then bytes else s.flight d z := by
  unfold setFlight
  by_cases hd : d = c
  · rw [hd]
    simp [Function.update_apply]
  · simp [hd]

@[simp]
theorem side_pull (s : Session) (c amt : ℕ) (x : Side) : (s.pull c x amt).side = s.side := rfl

@[simp]
theorem side_push (s : Session) (c : ℕ) (x : Side) (bytes : List UInt8) :
    (s.push c x bytes).side = s.side := rfl

@[simp]
theorem flight_setSide (s : Session) (x : Side) (t : Transport) :
    (s.setSide x t).flight = s.flight := rfl

@[simp]
theorem flight_pull (s : Session) (c d amt : ℕ) (x z : Side) : (s.pull c x amt).flight d z =
    if d = c ∧ z = x then (s.flight c x).drop amt else s.flight d z := by
  rw [pull, flight_setFlight]

@[simp]
theorem flight_push (s : Session) (c d : ℕ) (x z : Side) (bytes : List UInt8) :
    (s.push c x bytes).flight d z =
      if d = c ∧ z = x then s.flight c x ++ bytes else s.flight d z := by
  rw [push, flight_setFlight]

@[simp]
theorem history_setSide (s : Session) (x : Side) (t : Transport) :
    (s.setSide x t).sent = s.sent ∧ (s.setSide x t).got = s.got := ⟨rfl, rfl⟩

@[simp]
theorem history_pull (s : Session) (c amt : ℕ) (x : Side) :
    (s.pull c x amt).sent = s.sent ∧ (s.pull c x amt).got = s.got := ⟨rfl, rfl⟩

@[simp]
theorem history_push (s : Session) (c : ℕ) (x : Side) (bytes : List UInt8) :
    (s.push c x bytes).sent = s.sent ∧ (s.push c x bytes).got = s.got := ⟨rfl, rfl⟩

theorem conn_eq_some {s : Session} {x : Side} {c : ℕ} :
    s.conn x = some c ↔ (s.side x).mainfd = some c ∧ (s.side x).isConnecting = false := by
  unfold conn
  cases (s.side x).isConnecting <;> simp

theorem inv_start {key : List UInt8} (h : key.length = KEYSZ) : Inv (start key) where
  kept x := by
    refine ⟨(Nat.zero_mod _).symm, Replay.recent_nil _ _, (Nat.zero_mod _).symm, List.nil_prefix,
      ?_, fun hne ↦ absurd rfl hne⟩
    simpa [start] using GLOBAL_KARMA_pos
  flow x c hc := by cases (conn_eq_some.mp hc).1
  paired c hc := by cases (conn_eq_some.mp (hc .mux)).1
  waits _ hc := by cases hc
  connecting _ hc := by cases hc
  connected := rfl
  lt_opened _ _ hc := by cases hc
  unopened _ _ _ := rfl
  length_key := h

/-! ## Events of one side on its connection -/

/-- What the events of side `x` on connection `c` have in common. -/
structure OnConnection (s s' : Session) (x : Side) (c : ℕ) : Prop where
  conn : s.conn x = some c
  busy : s.waiting c = false
  mainfd : ∀ z, (s'.side z).mainfd = (s.side z).mainfd
  isConnecting : ∀ z, (s'.side z).isConnecting = (s.side z).isConnecting
  peer : s'.side x.peer = s.side x.peer
  opened : s'.opened = s.opened
  waiting : s'.waiting = s.waiting
  key : s'.key = s.key
  flight : ∀ d, d ≠ c → s'.flight d = s.flight d
  sent_peer : s'.sent x.peer = s.sent x.peer
  got_peer : s'.got x.peer = s.got x.peer
  sent : s.sent x <+: s'.sent x

variable {s s' : Session} {x : Side} {c : ℕ}

theorem OnConnection.conn_eq (h : OnConnection s s' x c) (z : Side) : s'.conn z = s.conn z := by
  unfold Session.conn
  rw [h.mainfd, h.isConnecting]

/-- A connection on which something was read, or on which the peer has told its position, has been
found by the other process. -/
theorem Inv.busy (hinv : Inv s) (hc : s.conn x = some c)
    (hx : (s.side x).Ready ∨ s.flight c x ≠ []) : s.waiting c = false := by
  obtain ⟨hmainfd, _⟩ := conn_eq_some.mp hc
  by_contra hwaiting
  have hwaits := hinv.waits c (by simpa using hwaiting)
  cases x
  · rcases hx with hready | hne
    · have hhandshake := (hinv.kept .mux).handshake (by rw [hmainfd]; exact Option.some_ne_none c)
      rw [hwaits.mux_untold hmainfd] at hhandshake
      unfold Transport.Ready at hready
      simp at hhandshake
      omega
    · exact hne hwaits.to_mux
  · exact hwaits.demux_ne hmainfd

theorem Waits.frame {w : ℕ} (h : s.Waits w) (hs : OnConnection s s' x c) (hw : w ≠ c) :
    s'.Waits w := by
  obtain ⟨hmainfd, hconnecting⟩ := conn_eq_some.mp hs.conn
  -- The mux is not on `w` when it is the side of the event, and has not changed otherwise.
  have hmux (hon : (s.side .mux).mainfd = some w) :
      s'.side .mux = s.side .mux ∧ s'.got .mux = s.got .mux := by
    cases x
    · rw [hmainfd] at hon
      exact absurd (Option.some.inj hon).symm hw
    · exact ⟨hs.peer, hs.got_peer⟩
  constructor
  · rw [hs.opened]
    exact h.lt
  · rw [hs.flight w hw]
    exact h.to_mux
  · rw [hs.mainfd]
    exact h.demux_ne
  · intro hon
    rw [hs.mainfd] at hon
    rw [(hmux hon).1]
    exact h.mux_untold hon
  · intro hon
    rw [hs.conn_eq] at hon
    rw [hs.flight w hw, hs.key, (hmux (conn_eq_some.mp hon).1).2]
    exact h.header hon
  · intro hon hcon
    rw [hs.mainfd] at hon
    rw [hs.isConnecting] at hcon
    rw [hs.flight w hw]
    exact h.connecting hon hcon
  · rw [hs.flight w hw, hs.key]
    exact h.told

/-- A part of the stream stays one when more is written. -/
theorem Toward.frame {p body : List UInt8} (h : s.Toward x c p body)
    (hside : s'.side x = s.side x) (hflight : s'.flight c x = s.flight c x)
    (hgot : s'.got x = s.got x) (hsent : s.sent x.peer <+: s'.sent x.peer) :
    s'.Toward x c p body where
  length := h.length
  bytes := by
    rw [hside, hflight]
    exact h.bytes
  goes_on := by
    rw [hgot]
    exact h.goes_on.trans (hsent.drop _)

/-- It is enough to look at the side of the event, and at its peer if that is on the same
connection. -/
theorem Inv.of_onConnection (hinv : Inv s) (hs : OnConnection s s' x c) (hkept : ∀ z, s'.Kept z)
    (hflow : s'.Untold x c ∨ ∃ p body, s'.Toward x c p body)
    (hpaired : s.conn x.peer = some c → s'.Paired x c ∧ s'.Paired x.peer c) : Inv s' where
  kept := hkept
  flow z d hd := by
    rw [hs.conn_eq] at hd
    rcases Side.eq_or_eq_peer x z with rfl | rfl
    · rw [hs.conn] at hd
      exact Option.some.inj hd ▸ hflow
    · by_cases hdc : d = c
      · obtain ⟨p, body, hp, _⟩ := (hpaired (hdc ▸ hd)).2
        exact Or.inr ⟨p, body, hdc ▸ hp⟩
      · rcases hinv.flow x.peer d hd with huntold | ⟨p, body, hp⟩
        · left
          unfold Untold at huntold ⊢
          rwa [hs.peer, hs.flight d hdc]
        · right
          refine ⟨p, body, hp.frame hs.peer (by rw [hs.flight d hdc]) hs.got_peer ?_⟩
          rw [Side.peer_peer]
          exact hs.sent
  paired d hd z := by
    have hx := hd x
    rw [hs.conn_eq, hs.conn] at hx
    obtain rfl := Option.some.inj hx
    have hpeer := hpaired (by rw [← hs.conn_eq]; exact hd x.peer)
    rcases Side.eq_or_eq_peer x z with rfl | rfl
    · exact hpeer.1
    · exact hpeer.2
  waits w hw := by
    rw [hs.waiting] at hw
    refine (hinv.waits w hw).frame hs ?_
    rintro rfl
    rw [hs.busy] at hw
    cases hw
  connecting d hd hcon := by
    rw [hs.mainfd] at hd
    rw [hs.isConnecting] at hcon
    rw [hs.waiting]
    exact hinv.connecting d hd hcon
  connected := by
    rw [hs.isConnecting]
    exact hinv.connected
  lt_opened z d hd := by
    rw [hs.mainfd] at hd
    rw [hs.opened]
    exact hinv.lt_opened z d hd
  unopened d z hd := by
    rw [hs.opened] at hd
    have hne : d ≠ c := by
      have := hinv.lt_opened x c (conn_eq_some.mp hs.conn).1
      omega
    rw [hs.flight d hne]
    exact hinv.unopened d z hd
  length_key := by
    rw [hs.key]
    exact hinv.length_key

/-! ## The position -/

theorem next_readPosition : s.next (.readPosition x amt) = some s' ↔ ∃ c, s.conn x = some c ∧
    ((s.side x).handshakeSt < KEYSZ + 4 ∧ 0 < amt ∧ amt ≤ KEYSZ + 4 - (s.side x).handshakeSt ∧
      amt ≤ (s.flight c x).length) ∧
    (s.setSide x ((s.side x).readPosition ((s.flight c x).take amt))).pull c x amt = s' := by
  simp only [next, Option.bind_eq_some_iff, Option.ite_none_right_eq_some, Option.some.injEq]

theorem flight_ne_nil (hpos : 0 < amt) (hle : amt ≤ (s.flight c x).length) : s.flight c x ≠ [] := by
  intro hnil
  rw [hnil] at hle
  exact absurd (hpos.trans_le hle) (Nat.lt_irrefl 0)

theorem onConnection_pull (hinv : Inv s) (hc : s.conn x = some c) {t : Transport}
    (hmainfd : t.mainfd = (s.side x).mainfd) (hcon : t.isConnecting = (s.side x).isConnecting)
    (hpos : 0 < amt) (hle : amt ≤ (s.flight c x).length) :
    OnConnection s ((s.setSide x t).pull c x amt) x c where
  conn := hc
  busy := hinv.busy hc (Or.inr (flight_ne_nil hpos hle))
  mainfd z := by rcases Side.eq_or_eq_peer x z with rfl | rfl <;> simp [hmainfd]
  isConnecting z := by rcases Side.eq_or_eq_peer x z with rfl | rfl <;> simp [hcon]
  peer := by simp
  opened := rfl
  waiting := rfl
  key := rfl
  flight d hd := by
    funext z
    simp [hd]
  sent_peer := rfl
  got_peer := rfl
  sent := List.prefix_refl _

theorem Kept.of_eq {z : Side} (h : s.Kept z) (hpos : (s'.side z).streamPos = (s.side z).streamPos)
    (hstream : (s'.side z).stream = (s.side z).stream)
    (hrpos : (s'.side z).rstreamPos = (s.side z).rstreamPos) (hsent : s'.sent = s.sent)
    (hgot : s'.got = s.got) (hhandshake : (s'.side z).mainfd ≠ none →
      (s'.side z).handshakeSt = KEYSZ + (s'.side z).debtBytes.length) : s'.Kept z := by
  refine ⟨?_, ?_, ?_, ?_, ?_, hhandshake⟩
  · rw [hpos, hsent, h.pos]
  · rw [hstream, hsent]
    exact h.ring
  · rw [hrpos, hgot, h.rpos]
  · rw [hsent, hgot]
    exact h.isPrefix_got
  · rw [hsent, hgot]
    exact h.window

/-- The first bytes that come are those of the position. -/
theorem Toward.readPosition {p body : List UInt8} (h : s.Toward x c p body) :
    ((s.setSide x ((s.side x).readPosition ((s.flight c x).take amt))).pull c x amt).Toward x c
      p body where
  length := h.length
  bytes := by simpa using h.bytes
  goes_on := h.goes_on

theorem debtBytes_eq {p body bytes rest : List UInt8} (h : bytes ++ rest = p ++ body)
    (hlength : p.length = bytes.length) : bytes = p := (List.append_inj h hlength.symm).1

/-- The position that was told modulo the size of the ring gives the number of bytes that the peer
has not read. -/
theorem Inv.behind_eq (hinv : Inv s) (x : Side) :
    Replay.behind GLOBAL_KARMA (s.side x).streamPos
        (ntohl (htonl ((s.got x.peer).length % GLOBAL_KARMA : ℕ))) =
      (s.sent x).length - (s.got x.peer).length := by
  have hpeer := hinv.kept x.peer
  have hle := hpeer.isPrefix_got.length_le
  have hwindow := hpeer.window
  rw [Side.peer_peer] at hle hwindow
  have hlt : (s.got x.peer).length % GLOBAL_KARMA < 2 ^ 32 :=
    (Nat.mod_lt _ GLOBAL_KARMA_pos).trans (by decide)
  have hntohl : ntohl (htonl ((s.got x.peer).length % GLOBAL_KARMA : ℕ)) =
      ((s.got x.peer).length % GLOBAL_KARMA : ℕ) := by
    rw [ntohl_htonl]
    exact Int.emod_eq_of_lt (Int.natCast_nonneg _) (by exact_mod_cast hlt)
  rw [hntohl, (hinv.kept x).pos, Replay.behind_mod hle hwindow]
  omega

theorem conn_both (hc : s.conn x = some c) (hpeer : s.conn x.peer = some c) (z : Side) :
    s.conn z = some c := by
  rcases Side.eq_or_eq_peer x z with rfl | rfl
  · exact hc
  · exact hpeer

theorem Inv.readPosition (hinv : Inv s) (h : s.next (.readPosition x amt) = some s') : Inv s' := by
  obtain ⟨c, hc, ⟨hlt, hpos, hle, hflight⟩, rfl⟩ := next_readPosition.mp h
  have htake : ((s.flight c x).take amt).length = amt := List.length_take_of_le hflight
  have hready : ¬ (s.side x).Ready := Nat.ne_of_lt hlt
  have hhandshake := (hinv.kept x).handshake (by
    rw [(conn_eq_some.mp hc).1]
    exact Option.some_ne_none c)
  have hkept : ((s.setSide x ((s.side x).readPosition
      ((s.flight c x).take amt))).pull c x amt).Kept x :=
    (hinv.kept x).of_eq (by simp) (by simp) (by simp) rfl rfl (by simp; omega)
  apply hinv.of_onConnection (onConnection_pull hinv hc (by simp) (by simp) hpos hflight)
  · intro z
    rcases Side.eq_or_eq_peer x z with rfl | rfl
    · exact hkept
    · exact (hinv.kept x.peer).of_eq (by simp) (by simp) (by simp) rfl rfl
        (by simpa using (hinv.kept x.peer).handshake)
  · rcases hinv.flow x c hc with huntold | ⟨p, body, hp⟩
    · exact absurd huntold.2 (flight_ne_nil hpos hflight)
    · exact Or.inr ⟨p, body, hp.readPosition⟩
  · intro hpeer
    have hboth := conn_both hc hpeer
    obtain ⟨p, body, hp, htold, hempty, howes⟩ := hinv.paired c hboth x
    obtain ⟨p', body', hp', htold', hempty', howes'⟩ := hinv.paired c hboth x.peer
    rw [Side.peer_peer] at hempty' howes' htold'
    constructor
    · exact ⟨p, body, hp.readPosition, fun _ ↦ htold hready, by simpa using hempty,
        by simpa using howes⟩
    · refine ⟨p', body', hp'.frame (by simp) (by simp) rfl (List.prefix_refl _),
        by simpa using htold',
        fun _ ↦ by rw [Side.peer_peer] at *; exact hempty' hready, ?_⟩
      rw [Side.peer_peer]
      intro hnow
      have hfull : (s.side x).handshakeSt + ((s.flight c x).take amt).length = KEYSZ + 4 := by
        simpa [Transport.Ready] using hnow
      have hbytes : (s.side x).debtBytes ++ (s.flight c x).take amt = p := by
        have hsplit : (s.side x).debtBytes ++ (s.flight c x).take amt ++ (s.flight c x).drop amt =
            p ++ body := by
          rw [List.append_assoc, List.take_append_drop, hp.bytes]
        apply debtBytes_eq hsplit
        rw [hp.length, List.length_append]
        omega
      have hdebt : (((s.side x).readPosition ((s.flight c x).take amt)).streamDebt : ℤ) =
          (s.sent x).length - (s.got x.peer).length := by
        rw [Transport.streamDebt_readPosition _ hfull, hbytes, htold hready, hinv.behind_eq x]
      simpa [hempty' hready] using hdebt

/-! ## Writing -/

theorem onConnection_push (hinv : Inv s) (hc : s.conn x = some c) (hready : (s.side x).Ready)
    {t : Transport} (hmainfd : t.mainfd = (s.side x).mainfd)
    (hcon : t.isConnecting = (s.side x).isConnecting) {sent' : Side → List UInt8}
    (hpeer : sent' x.peer = s.sent x.peer) (hsent : s.sent x <+: sent' x) :
    OnConnection s { (s.setSide x t).push c x.peer bytes with sent := sent' } x c where
  conn := hc
  busy := hinv.busy hc (Or.inl hready)
  mainfd z := by
    change (((s.setSide x t).push c x.peer bytes).side z).mainfd = _
    rcases Side.eq_or_eq_peer x z with rfl | rfl <;> simp [hmainfd]
  isConnecting z := by
    change (((s.setSide x t).push c x.peer bytes).side z).isConnecting = _
    rcases Side.eq_or_eq_peer x z with rfl | rfl <;> simp [hcon]
  peer := by
    change ((s.setSide x t).push c x.peer bytes).side x.peer = _
    simp
  opened := rfl
  waiting := rfl
  key := rfl
  flight d hd := by
    change ((s.setSide x t).push c x.peer bytes).flight d = _
    funext z
    simp [hd]
  sent_peer := hpeer
  got_peer := rfl
  sent := hsent

/-- The part of the debt that is written next is a part of the stream, even where the ring begins
again. -/
theorem Kept.debtBuf_eq (h : s.Kept x) {d : ℕ} (hd : (s.side x).streamDebt = d)
    (hle : d ≤ (s.sent x).length) (hlt : d < GLOBAL_KARMA) : ∃ k,
      (s.side x).debtBuf = ((s.sent x).drop ((s.sent x).length - d)).take k := by
  have hplace := Replay.mod_sub hle hlt.le GLOBAL_KARMA_pos
  have hpos := Nat.mod_lt (s.sent x).length GLOBAL_KARMA_pos
  have hslice {m : ℕ} (hm : m ≤ d)
      (hend : ((s.sent x).length - d) % GLOBAL_KARMA + m ≤ GLOBAL_KARMA) :=
    h.ring.slice (i := (s.sent x).length - d) (m := m) (by omega) (by omega) hend
  unfold Transport.debtBuf Transport.debtPart
  dsimp only
  rw [hd, h.pos]
  by_cases hfits : d ≤ (s.sent x).length % GLOBAL_KARMA
  · rw [if_pos hfits] at hplace
    refine ⟨d, ?_⟩
    have hstart : ((s.sent x).length % GLOBAL_KARMA : ℕ) - (d : ℤ) =
        ((s.sent x).length % GLOBAL_KARMA - d : ℕ) := by omega
    rw [← hslice (Nat.le_refl d) (by omega), hplace, if_neg (by omega)]
    dsimp only
    rw [hstart, Int.toNat_natCast, Int.toNat_natCast]
  · rw [if_neg hfits] at hplace
    refine ⟨d - (s.sent x).length % GLOBAL_KARMA, ?_⟩
    have hstart : ((s.sent x).length % GLOBAL_KARMA : ℕ) - (d : ℤ) + GLOBAL_KARMA =
        ((s.sent x).length % GLOBAL_KARMA + GLOBAL_KARMA - d : ℕ) := by omega
    have hsize : (d : ℤ) - ((s.sent x).length % GLOBAL_KARMA : ℕ) =
        (d - (s.sent x).length % GLOBAL_KARMA : ℕ) := by omega
    rw [← hslice (Nat.sub_le _ _) (by omega), hplace, if_pos (by omega)]
    dsimp only
    rw [hstart, hsize, Int.toNat_natCast, Int.toNat_natCast]

theorem Toward.push {p body : List UInt8} (h : s.Toward x c p body)
    (hside : s'.side x = s.side x) (hflight : s'.flight c x = s.flight c x ++ bytes)
    (hgoes : body ++ bytes <+: (s'.sent x.peer).drop (s'.got x).length) :
    s'.Toward x c p (body ++ bytes) where
  length := h.length
  bytes := by rw [hside, hflight, ← List.append_assoc, h.bytes, List.append_assoc]
  goes_on := hgoes

theorem isPrefix_append_take {α : Type*} {body l : List α} (h : body <+: l) (n : ℕ) :
    body ++ (l.drop body.length).take n <+: l := by
  obtain ⟨rest, rfl⟩ := h
  rw [List.drop_left, List.prefix_append_right_inj]
  exact List.take_prefix n rest

theorem next_pay : s.next (.pay x amt) = some s' ↔ ∃ c, s.conn x = some c ∧
    ((s.side x).Ready ∧ 0 < (s.side x).streamDebt ∧ 0 < amt ∧ amt ≤ (s.side x).debtBuf.length) ∧
    (s.setSide x ((s.side x).pay amt)).push c x.peer ((s.side x).debtBuf.take amt) = s' := by
  simp only [next, Option.bind_eq_some_iff, Option.ite_none_right_eq_some, Option.some.injEq]

theorem Inv.pay (hinv : Inv s) (h : s.next (.pay x amt) = some s') : Inv s' := by
  obtain ⟨c, hc, ⟨hready, hdebt, hpos, hle⟩, rfl⟩ := next_pay.mp h
  have hon : OnConnection s ((s.setSide x ((s.side x).pay amt)).push c x.peer
      ((s.side x).debtBuf.take amt)) x c :=
    onConnection_push hinv hc hready (t := (s.side x).pay amt) rfl rfl rfl (List.prefix_refl _)
  apply hinv.of_onConnection hon
  · intro z
    rcases Side.eq_or_eq_peer x z with rfl | rfl
    · exact (hinv.kept x).of_eq (by simp [Transport.pay]) (by simp [Transport.pay])
        (by simp [Transport.pay]) rfl rfl (by simpa [Transport.pay] using (hinv.kept x).handshake)
    · exact (hinv.kept x.peer).of_eq (by simp) (by simp) (by simp) rfl rfl
        (by simpa using (hinv.kept x.peer).handshake)
  · rcases hinv.flow x c hc with huntold | ⟨p, body, hp⟩
    · left
      simpa [Untold, Transport.pay] using huntold
    · right
      refine ⟨p, body, hp.length, ?_, hp.goes_on⟩
      simpa [Transport.pay] using hp.bytes
  · intro hpeer
    have hboth := conn_both hc hpeer
    obtain ⟨p, body, hp, htold, hempty, howes⟩ := hinv.paired c hboth x
    obtain ⟨p', body', hp', htold', hempty', howes'⟩ := hinv.paired c hboth x.peer
    rw [Side.peer_peer] at hempty' howes' htold'
    constructor
    · refine ⟨p, body, ⟨hp.length, ?_, hp.goes_on⟩, ?_, ?_, ?_⟩
      · simpa [Transport.pay] using hp.bytes
      · simpa [Transport.pay, Transport.Ready] using htold
      · simpa using hempty
      · simpa using howes
    · have hlength := howes' hready
      have hsent := hp'.goes_on.length_le
      rw [Side.peer_peer, List.length_drop] at hsent
      have hwindow := (hinv.kept x.peer).window
      rw [Side.peer_peer] at hwindow
      obtain ⟨d, hd⟩ := Int.eq_ofNat_of_zero_le hdebt.le
      obtain ⟨k, hbuf⟩ := (hinv.kept x).debtBuf_eq hd (by omega) (by omega)
      have hgot : (s.sent x).length - d = (s.got x.peer).length + body'.length := by omega
      have hgoes : body' ++ (s.side x).debtBuf.take amt <+:
          (s.sent x).drop (s.got x.peer).length := by
        have happend := isPrefix_append_take hp'.goes_on (min amt k)
        rwa [Side.peer_peer, List.drop_drop, ← hgot, ← List.take_take, ← hbuf] at happend
      refine ⟨p', body' ++ (s.side x).debtBuf.take amt, hp'.push (by simp) (by simp) ?_,
        by simpa using htold', ?_, ?_⟩
      · simpa using hgoes
      · rw [Side.peer_peer]
        intro hnot
        exact absurd (by simpa [Transport.pay, Transport.Ready] using hready) hnot
      · rw [Side.peer_peer]
        intro _
        simp [Transport.pay, List.length_take_of_le hle]
        omega

theorem next_write : s.next (.write x bytes) = some s' ↔ ∃ c, s.conn x = some c ∧
    ((s.side x).Ready ∧ (s.side x).streamDebt ≤ 0 ∧ 0 < bytes.length) ∧
    { (s.setSide x ((s.side x).writeMainfd bytes)).push c x.peer bytes with
      sent := Function.update s.sent x (s.sent x ++ bytes) } = s' := by
  simp only [next, Option.bind_eq_some_iff, Option.ite_none_right_eq_some, Option.some.injEq]

/-- `write_mainfd` keeps the ring and its place. -/
theorem Kept.writeMainfd (h : s.Kept x) (bytes : List UInt8) :
    Replay.Recent GLOBAL_KARMA ((s.side x).writeMainfd bytes).stream (s.sent x ++ bytes) ∧
      ((s.side x).writeMainfd bytes).streamPos = (s.sent x ++ bytes).length % GLOBAL_KARMA := by
  have hlt := Nat.mod_lt (s.sent x).length GLOBAL_KARMA_pos
  have hplace : (0 + (s.side x).streamPos) % GLOBAL_KARMA = (s.sent x).length % GLOBAL_KARMA := by
    rw [h.pos, Nat.zero_add, Nat.mod_mod]
  have hspec : Replay.Recent GLOBAL_KARMA ((s.side x).writeMainfd bytes).stream
        (s.sent x ++ bytes) ∧ ((s.side x).writeMainfd bytes).streamPos =
      counted GLOBAL_KARMA true (s.side x).streamPos bytes.length :=
    writeCbufLoop_spec h.ring GLOBAL_KARMA_pos hplace (Nat.le_refl bytes.length)
      (fun _ ↦ ⟨rfl, by rw [h.pos]; exact hlt⟩) nofun
  refine ⟨hspec.1, hspec.2.trans ?_⟩
  rw [counted, if_pos rfl, h.pos, Nat.mod_add_mod, List.length_append]

/-- What each side keeps when bytes are written within the window. -/
theorem Inv.kept_write (hinv : Inv s) (c : ℕ)
    (hwindow : (s.sent x).length + bytes.length < (s.got x.peer).length + GLOBAL_KARMA) (z : Side) :
    Session.Kept { (s.setSide x ((s.side x).writeMainfd bytes)).push c x.peer bytes with
      sent := Function.update s.sent x (s.sent x ++ bytes) } z := by
  have hkept := hinv.kept x
  have hpeerKept := hinv.kept x.peer
  have hgotPrefix := hpeerKept.isPrefix_got
  rw [Side.peer_peer] at hgotPrefix
  rcases Side.eq_or_eq_peer x z with rfl | rfl
  · obtain ⟨hring, hplace⟩ := hkept.writeMainfd bytes
    refine ⟨?_, ?_, ?_, ?_, ?_, ?_⟩
    · simpa using hplace
    · simpa using hring
    · simpa [Transport.writeMainfd] using hkept.rpos
    · simpa using hkept.isPrefix_got
    · simpa using hkept.window
    · simpa [Transport.writeMainfd] using hkept.handshake
  · refine ⟨?_, ?_, ?_, ?_, ?_, ?_⟩
    · simpa using hpeerKept.pos
    · simpa using hpeerKept.ring
    · simpa using hpeerKept.rpos
    · simpa using hgotPrefix.trans (List.prefix_append _ bytes)
    · simpa using hwindow
    · simpa using hpeerKept.handshake

theorem Inv.write (hinv : Inv s) (h : s.next (.write x bytes) = some s')
    (hwindow : (s.sent x).length + bytes.length < (s.got x.peer).length + GLOBAL_KARMA) :
    Inv s' := by
  obtain ⟨c, hc, ⟨hready, hdebt, hpos⟩, rfl⟩ := next_write.mp h
  have hpeerSent : Function.update s.sent x (s.sent x ++ bytes) x.peer = s.sent x.peer :=
    Function.update_of_ne (Side.peer_ne x) _ _
  have hsent : Function.update s.sent x (s.sent x ++ bytes) x = s.sent x ++ bytes :=
    Function.update_self x _ _
  have hon : OnConnection s { (s.setSide x ((s.side x).writeMainfd bytes)).push c x.peer bytes with
      sent := Function.update s.sent x (s.sent x ++ bytes) } x c :=
    onConnection_push hinv hc hready (t := (s.side x).writeMainfd bytes) rfl rfl hpeerSent
      (by rw [hsent]; exact List.prefix_append _ _)
  have hgotPrefix := (hinv.kept x.peer).isPrefix_got
  rw [Side.peer_peer] at hgotPrefix
  apply hinv.of_onConnection hon
  · exact hinv.kept_write c hwindow
  · rcases hinv.flow x c hc with huntold | ⟨p, body, hp⟩
    · left
      simpa [Untold, Transport.writeMainfd] using huntold
    · right
      refine ⟨p, body, hp.length, ?_, ?_⟩
      · simpa [Transport.writeMainfd] using hp.bytes
      · simpa using hp.goes_on
  · intro hpeer
    have hboth := conn_both hc hpeer
    obtain ⟨p, body, hp, htold, hempty, howes⟩ := hinv.paired c hboth x
    obtain ⟨p', body', hp', htold', hempty', howes'⟩ := hinv.paired c hboth x.peer
    rw [Side.peer_peer] at hempty' howes' htold'
    constructor
    · refine ⟨p, body, ⟨hp.length, ?_, ?_⟩, ?_, ?_, ?_⟩
      · simpa [Transport.writeMainfd] using hp.bytes
      · simpa using hp.goes_on
      · simpa [Transport.writeMainfd, Transport.Ready] using htold
      · simpa using hempty
      · simpa using howes
    · have hlength := howes' hready
      have hgoes := hp'.goes_on
      rw [Side.peer_peer] at hgoes
      have hle := hgoes.length_le
      rw [List.length_drop] at hle
      have hgot := hgotPrefix.length_le
      have hwhole : body' = (s.sent x).drop (s.got x.peer).length := by
        apply hgoes.eq_of_length
        rw [List.length_drop]
        omega
      refine ⟨p', body' ++ bytes, hp'.push (by simp) (by simp) ?_, by simpa using htold', ?_, ?_⟩
      · have hnext : body' ++ bytes <+: (s.sent x ++ bytes).drop (s.got x.peer).length := by
          rw [List.drop_append_of_le_length hgot, hwhole]
        simpa using hnext
      · rw [Side.peer_peer]
        intro hnot
        exact absurd (by simpa [Transport.writeMainfd, Transport.Ready] using hready) hnot
      · rw [Side.peer_peer]
        intro _
        simp [Transport.writeMainfd]
        omega

/-! ## Reading -/

theorem next_read : s.next (.read x amt) = some s' ↔ ∃ c, s.conn x = some c ∧
    ((s.side x).Ready ∧ 0 < amt ∧ amt ≤ (s.flight c x).length) ∧
    { (s.setSide x ((s.side x).readMain amt)).pull c x amt with
      got := Function.update s.got x (s.got x ++ (s.flight c x).take amt) } = s' := by
  simp only [next, Option.bind_eq_some_iff, Option.ite_none_right_eq_some, Option.some.injEq]

/-- Behind the position everything that is on the way is stream. -/
theorem Toward.flight_eq {p body : List UInt8} (hkept : s.Kept x) (h : s.Toward x c p body)
    (hc : s.conn x = some c) (hready : (s.side x).Ready) :
    s.flight c x = body ∧ (s.side x).debtBytes = p := by
  have hhandshake := hkept.handshake (by
    rw [(conn_eq_some.mp hc).1]
    exact Option.some_ne_none c)
  have hlength : (s.side x).debtBytes.length = p.length := by
    unfold Transport.Ready at hready
    rw [h.length]
    omega
  obtain ⟨hdebtBytes, hflight⟩ := List.append_inj h.bytes hlength
  exact ⟨hflight, hdebtBytes⟩

/-- `mainr` counts modulo the size of the ring. -/
theorem rstreamPos_readMain {t : Transport} (hlt : t.rstreamPos < GLOBAL_KARMA)
    (hamt : amt < GLOBAL_KARMA) :
    (t.readMain amt).rstreamPos = (t.rstreamPos + amt) % GLOBAL_KARMA := by
  unfold Transport.readMain
  dsimp only
  rcases Nat.lt_or_ge (t.rstreamPos + amt) GLOBAL_KARMA with hin | hout
  · rw [if_neg (Nat.not_le.mpr hin), if_neg (Nat.not_le.mpr hin), Nat.mod_eq_of_lt hin]
  · rw [if_pos hout, if_neg (by omega), Nat.mod_eq_sub_mod hout, Nat.mod_eq_of_lt (by omega)]

/-- The history of a side after it has read. -/
theorem update_got (s : Session) (x : Side) (bytes : List UInt8) :
    Function.update s.got x bytes x.peer = s.got x.peer :=
  Function.update_of_ne (Side.peer_ne x) _ _

theorem Toward.read {p body : List UInt8} (hkept : s.Kept x) (h : s.Toward x c p body)
    (hc : s.conn x = some c) (hready : (s.side x).Ready) (hle : amt ≤ (s.flight c x).length) :
    Toward { (s.setSide x ((s.side x).readMain amt)).pull c x amt with
      got := Function.update s.got x (s.got x ++ (s.flight c x).take amt) } x c p
        (body.drop amt) where
  length := h.length
  bytes := by
    obtain ⟨hflight, hdebtBytes⟩ := h.flight_eq hkept hc hready
    simp [Transport.readMain, hflight, hdebtBytes]
  goes_on := by
    have hdrop := h.goes_on.drop amt
    rw [List.drop_drop] at hdrop
    simpa [Nat.min_eq_left hle] using hdrop

/-- What each side keeps when bytes are read. -/
theorem Inv.kept_read (hinv : Inv s) {c : ℕ} {p body : List UInt8} (hp : s.Toward x c p body)
    (hflight : s.flight c x = body) (hle : amt ≤ (s.flight c x).length) (z : Side) :
    Session.Kept { (s.setSide x ((s.side x).readMain amt)).pull c x amt with
      got := Function.update s.got x (s.got x ++ (s.flight c x).take amt) } z := by
  have hkept := hinv.kept x
  have hpeerKept := hinv.kept x.peer
  have hbody := hp.goes_on.length_le
  rw [List.length_drop] at hbody
  have hwindow := hkept.window
  have hgotLength := hkept.isPrefix_got.length_le
  have hamt : amt < GLOBAL_KARMA := by
    rw [hflight] at hle
    omega
  rcases Side.eq_or_eq_peer x z with rfl | rfl
  · have hgot : s.got x ++ (s.flight c x).take amt <+: s.sent x.peer := by
      obtain ⟨rest, hrest⟩ := hkept.isPrefix_got
      have hgoes := hp.goes_on
      rw [← hrest, List.drop_left] at hgoes
      rw [hflight, ← hrest, List.prefix_append_right_inj]
      exact (List.take_prefix amt body).trans hgoes
    have hcount : ((s.side x).readMain amt).rstreamPos =
        ((s.got x).length + amt) % GLOBAL_KARMA := by
      rw [rstreamPos_readMain _ hamt, hkept.rpos, Nat.mod_add_mod]
      rw [hkept.rpos]
      exact Nat.mod_lt _ GLOBAL_KARMA_pos
    refine ⟨?_, ?_, ?_, ?_, ?_, ?_⟩
    · simpa [Transport.readMain] using hkept.pos
    · simpa [Transport.readMain] using hkept.ring
    · simpa [Nat.min_eq_left hle] using hcount
    · simpa using hgot
    · simp [Nat.min_eq_left hle]
      omega
    · simpa [Transport.readMain] using hkept.handshake
  · refine ⟨?_, ?_, ?_, ?_, ?_, ?_⟩
    · simpa using hpeerKept.pos
    · simpa using hpeerKept.ring
    · simpa using hpeerKept.rpos
    · simpa using hpeerKept.isPrefix_got
    · simpa using hpeerKept.window
    · simpa using hpeerKept.handshake

theorem Inv.read (hinv : Inv s) (h : s.next (.read x amt) = some s') : Inv s' := by
  obtain ⟨c, hc, ⟨hready, hpos, hle⟩, rfl⟩ := next_read.mp h
  have hkept := hinv.kept x
  have hne := flight_ne_nil hpos hle
  obtain ⟨p, body, hp⟩ : ∃ p body, s.Toward x c p body := by
    rcases hinv.flow x c hc with huntold | hp
    · exact absurd huntold.2 hne
    · exact hp
  have hflight := (hp.flight_eq hkept hc hready).1
  have hon : OnConnection s { (s.setSide x ((s.side x).readMain amt)).pull c x amt with
      got := Function.update s.got x (s.got x ++ (s.flight c x).take amt) } x c :=
    { onConnection_pull hinv hc (t := (s.side x).readMain amt) rfl rfl hpos hle with
      got_peer := update_got s x _ }
  apply hinv.of_onConnection hon
  · exact hinv.kept_read hp hflight hle
  · exact Or.inr ⟨p, body.drop amt, hp.read hkept hc hready hle⟩
  · intro hpeer
    have hboth := conn_both hc hpeer
    obtain ⟨p, body, hp, htold, hempty, howes⟩ := hinv.paired c hboth x
    obtain ⟨p', body', hp', htold', hempty', howes'⟩ := hinv.paired c hboth x.peer
    have hflight := (hp.flight_eq hkept hc hready).1
    have hpeerReady : (s.side x.peer).Ready := by
      by_contra hnot
      exact hne (hflight.trans (hempty hnot))
    rw [hflight] at hle
    rw [Side.peer_peer] at hempty' howes'
    constructor
    · refine ⟨p, body.drop amt, hp.read hkept hc hready (hflight ▸ hle), ?_, ?_, ?_⟩
      · simpa [Transport.readMain, Transport.Ready] using htold
      · intro hnot
        exact absurd (by simpa using hpeerReady) hnot
      · intro _
        have hmissing := howes hpeerReady
        simp [hflight, Nat.min_eq_left hle]
        omega
    · refine ⟨p', body', ⟨hp'.length, ?_, ?_⟩, ?_, ?_, ?_⟩
      · simpa using hp'.bytes
      · simpa using hp'.goes_on
      · intro hnot
        exact absurd (by simpa using hpeerReady) hnot
      · simpa [Transport.readMain, Transport.Ready] using hempty'
      · simpa [Transport.readMain, Transport.Ready] using howes'

/-! ## Connections -/

/-- The mux opens a connection. -/
theorem Inv.connect (hinv : Inv s) (h : s.next .connect = some s') : Inv s' := by
  obtain rfl := Option.some.inj h
  constructor
  · intro z
    cases z
    · exact (hinv.kept .mux).of_eq (by simp [Transport.enter]) (by simp [Transport.enter])
        (by simp [Transport.enter]) rfl rfl (by simp [Transport.enter])
    · exact (hinv.kept .demux).of_eq (by simp) (by simp) (by simp) rfl rfl
        (by simpa using (hinv.kept .demux).handshake)
  · intro z d hd
    rw [conn_eq_some] at hd
    cases z
    · simp [Transport.enter] at hd
    · rcases hinv.flow .demux d (by rw [conn_eq_some]; simpa using hd) with huntold | ⟨p, body, hp⟩
      · left
        simpa [Untold] using huntold
      · exact Or.inr ⟨p, body, hp.frame (by simp) rfl rfl (List.prefix_refl _)⟩
  · intro d hd
    have hmux := hd .mux
    simp [conn_eq_some, Transport.enter] at hmux
  · intro w hw
    by_cases hnew : w = s.opened
    · rw [hnew]
      refine ⟨Nat.lt_succ_self _, hinv.unopened _ .mux (Nat.le_refl _), ?_, ?_, ?_, ?_, ?_⟩
      · intro hdemux
        exact absurd (hinv.lt_opened .demux s.opened (by simpa using hdemux)) (Nat.lt_irrefl _)
      · simp [Transport.enter]
      · simp [conn_eq_some, Transport.enter]
      · exact fun _ _ ↦ hinv.unopened _ .demux (Nat.le_refl _)
      · exact Or.inl (hinv.unopened _ .demux (Nat.le_refl _))
    · have hold := hinv.waits w (by simpa [Function.update_of_ne hnew] using hw)
      refine ⟨Nat.lt_succ_of_lt hold.lt, hold.to_mux, ?_, ?_, ?_, ?_, hold.told⟩
      · simpa using hold.demux_ne
      · simp [Transport.enter]
      · simp [conn_eq_some, Transport.enter]
      · intro hmux
        simp [Transport.enter] at hmux
        exact absurd hmux.symm hnew
  · intro d hd _
    simp [Transport.enter] at hd
    rw [← hd]
    exact Function.update_self _ _ _
  · simpa using hinv.connected
  · intro z d hd
    cases z
    · simp [Transport.enter] at hd
      rw [← hd]
      exact Nat.lt_succ_self _
    · exact Nat.lt_succ_of_lt (hinv.lt_opened .demux d (by simpa using hd))
  · intro d z hd
    exact hinv.unopened d z (Nat.le_of_succ_le hd)
  · exact hinv.length_key

theorem next_connected : s.next .connected = some s' ↔ ∃ c, (s.side .mux).mainfd = some c ∧
    (s.side .mux).isConnecting = true ∧
    (s.setSide .mux { s.side .mux with isConnecting := false }).push c .demux
      (s.key ++ (s.side .mux).position) = s' := by
  unfold next
  cases (s.side .mux).mainfd <;> simp

/-- The connection of the mux is there. -/
theorem Inv.afterConnected (hinv : Inv s) (h : s.next .connected = some s') : Inv s' := by
  obtain ⟨c, hc, hcon, rfl⟩ := next_connected.mp h
  have hwait := hinv.connecting c hc hcon
  have hwaits := hinv.waits c hwait
  have hempty := hwaits.connecting hc hcon
  have hposition : (s.side .mux).position = htonl ((s.got .mux).length % GLOBAL_KARMA : ℕ) := by
    rw [Transport.position, (hinv.kept .mux).rpos]
  constructor
  · intro z
    cases z
    · exact (hinv.kept .mux).of_eq (by simp) (by simp) (by simp) rfl rfl
        (by simpa using (hinv.kept .mux).handshake)
    · exact (hinv.kept .demux).of_eq (by simp) (by simp) (by simp) rfl rfl
        (by simpa using (hinv.kept .demux).handshake)
  · intro z d hd
    rw [conn_eq_some] at hd
    cases z
    · left
      have hdc : d = c := by simpa [hc, eq_comm] using hd
      rw [hdc]
      simpa [Untold] using And.intro (hwaits.mux_untold hc) hwaits.to_mux
    · have hdc : d ≠ c := by
        rintro rfl
        exact hwaits.demux_ne (by simpa using hd.1)
      rcases hinv.flow .demux d (by rw [conn_eq_some]; simpa using hd) with huntold | ⟨p, body, hp⟩
      · left
        simpa [Untold, hdc] using huntold
      · exact Or.inr ⟨p, body, hp.frame (by simp) (by simp [hdc]) rfl (List.prefix_refl _)⟩
  · intro d hd
    have hmux := conn_eq_some.mp (hd .mux)
    have hdemux := conn_eq_some.mp (hd .demux)
    have hdc : d = c := by simpa [hc, eq_comm] using hmux
    rw [hdc] at hdemux
    exact absurd (by simpa using hdemux.1) hwaits.demux_ne
  · intro w hw
    have hold := hinv.waits w hw
    by_cases hwc : w = c
    · rw [hwc]
      refine ⟨hwaits.lt, by simpa using hwaits.to_mux, by simpa using hwaits.demux_ne,
        by simpa using hwaits.mux_untold, ?_, by simp, ?_⟩
      · intro _
        simp [hempty, hposition, push, setFlight, setSide]
      · right
        exact ⟨(s.side .mux).position, length_htonl _, by simp [hempty, push, setFlight, setSide]⟩
    · refine ⟨hold.lt, by simpa using hold.to_mux, by simpa using hold.demux_ne,
        by simpa using hold.mux_untold, ?_, by simp, ?_⟩
      · intro hmux
        have := conn_eq_some.mp hmux
        exact absurd (by simpa [hc, eq_comm] using this) hwc
      · simpa [hwc, push, setFlight, setSide] using hold.told
  · intro d _ hcon'
    simp at hcon'
  · simpa using hinv.connected
  · intro z d hd
    cases z
    · exact hinv.lt_opened .mux d (by simpa using hd)
    · exact hinv.lt_opened .demux d (by simpa using hd)
  · intro d z hd
    have hdc : d ≠ c := by
      rintro rfl
      exact absurd (hwaits.lt.trans_le hd) (Nat.lt_irrefl _)
    simpa [hdc] using hinv.unopened d z hd
  · exact hinv.length_key

theorem next_adopt (hfound : s.Found) : s.next (.adopt c) = some s' ↔
    (s.waiting c ∧ (s.flight c .demux).take KEYSZ = s.key) ∧ s.adopt c = s' := by
  simp only [next, if_pos hfound, Option.ite_none_right_eq_some, Option.some.injEq]

/-- The key of a connection has come. -/
theorem Inv.flight_ne_nil (hinv : Inv s) (hkey : (s.flight c .demux).take KEYSZ = s.key) :
    s.flight c .demux ≠ [] := by
  intro hnil
  have hlength := hinv.length_key
  rw [← hkey, hnil] at hlength
  cases hlength

theorem Inv.drop_flight (hinv : Inv s) {p : List UInt8}
    (hflight : s.flight c .demux = s.key ++ p) : (s.flight c .demux).drop KEYSZ = p := by
  rw [hflight, ← hinv.length_key, List.drop_left]

theorem Inv.position_demux (hinv : Inv s) :
    (s.side .demux).position = htonl ((s.got .demux).length % GLOBAL_KARMA : ℕ) := by
  rw [Transport.position, (hinv.kept .demux).rpos]

/-- The mux has told its position on a connection whose key has come, if it is still on it, and
waits for the other position. -/
theorem Inv.mux_of_key (hinv : Inv s) (hwait : s.waiting c = true)
    (hkey : (s.flight c .demux).take KEYSZ = s.key) (hon : (s.side .mux).mainfd = some c) :
    (s.side .mux).isConnecting = false ∧ ¬ (s.side .mux).Ready := by
  have hwaits := hinv.waits c hwait
  constructor
  · by_contra hcon
    exact hinv.flight_ne_nil hkey (hwaits.connecting hon (by simpa using hcon))
  · have hhandshake := (hinv.kept .mux).handshake (by rw [hon]; exact Option.some_ne_none c)
    rw [hwaits.mux_untold hon] at hhandshake
    unfold Transport.Ready
    simp at hhandshake
    omega

theorem Inv.flow_adopt (hinv : Inv s) (hwait : s.waiting c = true)
    (hkey : (s.flight c .demux).take KEYSZ = s.key) (z : Side) (d : ℕ)
    (hd : (s.adopt c).conn z = some d) :
    (s.adopt c).Untold z d ∨ ∃ p body, (s.adopt c).Toward z d p body := by
  have hwaits := hinv.waits c hwait
  unfold Session.adopt at hd ⊢
  rw [conn_eq_some] at hd
  cases z
  · by_cases hdc : d = c
    · right
      refine ⟨(s.side .demux).position, [], length_htonl _, ?_, List.nil_prefix⟩
      have hon : (s.side .mux).mainfd = some c := by simpa [hdc] using hd.1
      simp [hdc, hwaits.mux_untold hon, hwaits.to_mux, push, pull, setFlight, setSide]
    · rcases hinv.flow .mux d (by rw [conn_eq_some]; simpa using hd) with huntold | ⟨p, body, hp⟩
      · left
        simpa [Untold, hdc] using huntold
      · exact Or.inr ⟨p, body, hp.frame (by simp) (by simp [hdc]) rfl (List.prefix_refl _)⟩
  · have hdc : d = c := by simpa [Transport.enter, eq_comm] using hd
    obtain ⟨p, hp, hflight⟩ := hwaits.told.resolve_left (hinv.flight_ne_nil hkey)
    right
    refine ⟨p, [], hp, ?_, List.nil_prefix⟩
    simp [hdc, Transport.enter, hinv.drop_flight hflight]

theorem Inv.paired_adopt (hinv : Inv s) (hwait : s.waiting c = true)
    (hkey : (s.flight c .demux).take KEYSZ = s.key) (d : ℕ)
    (hd : ∀ x, (s.adopt c).conn x = some d) (z : Side) : (s.adopt c).Paired z d := by
  have hwaits := hinv.waits c hwait
  unfold Session.adopt at hd ⊢
  have hmux := conn_eq_some.mp (hd .mux)
  have hdc : d = c := by simpa [Transport.enter, eq_comm] using conn_eq_some.mp (hd .demux)
  have hon : (s.side .mux).mainfd = some c := by simpa [hdc] using hmux.1
  obtain ⟨hconnected, huntold⟩ := hinv.mux_of_key hwait hkey hon
  have hheader := hwaits.header (conn_eq_some.mpr ⟨hon, hconnected⟩)
  rw [hdc]
  cases z
  · refine ⟨(s.side .demux).position, [], ⟨length_htonl _, ?_, List.nil_prefix⟩, ?_,
      fun _ ↦ rfl, ?_⟩
    · simp [hwaits.mux_untold hon, hwaits.to_mux, push, pull, setFlight, setSide]
    · exact fun _ ↦ hinv.position_demux
    · intro hready
      simp [Side.peer, Transport.enter, Transport.Ready] at hready
  · refine ⟨htonl ((s.got .mux).length % GLOBAL_KARMA : ℕ), [],
      ⟨length_htonl _, ?_, List.nil_prefix⟩, fun _ ↦ rfl, fun _ ↦ rfl, ?_⟩
    · simp [Transport.enter, hinv.drop_flight hheader]
    · intro hready
      exact absurd (by simpa [Side.peer] using hready) huntold

theorem Inv.waits_adopt (hinv : Inv s) (w : ℕ) (hw : (s.adopt c).waiting w = true) :
    (s.adopt c).Waits w := by
  unfold Session.adopt at hw ⊢
  have hwc : w ≠ c := by
    rintro rfl
    simp at hw
  have hold := hinv.waits w (by simpa [Function.update_of_ne hwc] using hw)
  refine ⟨hold.lt, by simpa [hwc] using hold.to_mux, ?_, by simpa using hold.mux_untold,
    ?_, ?_, ?_⟩
  · simpa [Transport.enter] using Ne.symm hwc
  · intro hmux
    have hheader := hold.header (by
      rw [conn_eq_some] at hmux ⊢
      simpa using hmux)
    simpa [hwc, push, pull, setFlight, setSide] using hheader
  · intro hmux hcon
    simpa [hwc] using hold.connecting (by simpa using hmux) (by simpa using hcon)
  · simpa [hwc, push, pull, setFlight, setSide] using hold.told

/-- The other process goes over to a connection. -/
theorem Inv.adopt (hinv : Inv s) (hfound : s.Found) (h : s.next (.adopt c) = some s') :
    Inv s' := by
  obtain ⟨⟨hwait, hkey⟩, rfl⟩ := (next_adopt hfound).mp h
  have hwaits := hinv.waits c hwait
  have hflow := hinv.flow_adopt hwait hkey
  have hpaired := hinv.paired_adopt hwait hkey
  have hstill := hinv.waits_adopt (c := c)
  unfold Session.adopt at hflow hpaired hstill ⊢
  constructor
  · intro z
    cases z
    · exact (hinv.kept .mux).of_eq (by simp) (by simp) (by simp) rfl rfl
        (by simpa using (hinv.kept .mux).handshake)
    · exact (hinv.kept .demux).of_eq (by simp [Transport.enter]) (by simp [Transport.enter])
        (by simp [Transport.enter]) rfl rfl (by simp [Transport.enter])
  · exact hflow
  · exact hpaired
  · exact hstill
  · intro d hd hcon
    have hdc : d ≠ c := by
      rintro rfl
      obtain ⟨hfalse, -⟩ := hinv.mux_of_key hwait hkey (by simpa using hd)
      simp [hfalse] at hcon
    have hold := hinv.connecting d (by simpa using hd) (by simpa using hcon)
    simpa [Function.update_of_ne hdc] using hold
  · simp [Transport.enter]
  · intro z d hd
    cases z
    · exact hinv.lt_opened .mux d (by simpa using hd)
    · have hdc : d = c := by simpa [Transport.enter, eq_comm] using hd
      rw [hdc]
      exact hwaits.lt
  · intro d z hd
    have hdc : d ≠ c := by
      rintro rfl
      exact absurd (hwaits.lt.trans_le hd) (Nat.lt_irrefl _)
    simpa [hdc] using hinv.unopened d z hd
  · exact hinv.length_key

theorem Inv.disconnect (hinv : Inv s) (h : s.next .disconnect = some s') : Inv s' := by
  obtain rfl := Option.some.inj h
  constructor
  · intro z
    cases z
    · exact (hinv.kept .mux).of_eq (by simp) (by simp) (by simp) rfl rfl
        (by simpa using (hinv.kept .mux).handshake)
    · exact (hinv.kept .demux).of_eq (by simp) (by simp) (by simp) rfl rfl (by simp)
  · intro z d hd
    rw [conn_eq_some] at hd
    cases z
    · rcases hinv.flow .mux d (by rw [conn_eq_some]; simpa using hd) with huntold | ⟨p, body, hp⟩
      · left
        simpa [Untold] using huntold
      · exact Or.inr ⟨p, body, hp.frame (by simp) rfl rfl (List.prefix_refl _)⟩
    · simp at hd
  · intro d hd
    have hdemux := conn_eq_some.mp (hd .demux)
    simp at hdemux
  · intro w hw
    have hold := hinv.waits w hw
    refine ⟨hold.lt, hold.to_mux, by simp, by simpa using hold.mux_untold, ?_, ?_, hold.told⟩
    · intro hmux
      refine hold.header ?_
      rw [conn_eq_some] at hmux ⊢
      simpa using hmux
    · simpa using hold.connecting
  · intro d hd hcon
    exact hinv.connecting d (by simpa using hd) (by simpa using hcon)
  · simpa using hinv.connected
  · intro z d hd
    cases z
    · exact hinv.lt_opened .mux d (by simpa using hd)
    · simp at hd
  · exact hinv.unopened
  · exact hinv.length_key

/-! ## Every event -/

/-- What `write_mainfd` and `mainr` need: the peer has not fallen back by the size of the ring, and
the other process finds its context. -/
def Permits (s : Session) : Event → Prop
  | .write x bytes => (s.sent x).length + bytes.length < (s.got x.peer).length + GLOBAL_KARMA
  | .adopt _ => s.Found
  | _ => True

theorem Inv.next {e : Event} (hinv : Inv s) (hpermits : s.Permits e) (h : s.next e = some s') :
    Inv s' := by
  cases e with
  | connect => exact hinv.connect h
  | connected => exact hinv.afterConnected h
  | adopt c => exact hinv.adopt hpermits h
  | disconnect => exact hinv.disconnect h
  | readPosition x amt => exact hinv.readPosition h
  | pay x amt => exact hinv.pay h
  | write x bytes => exact hinv.write h hpermits
  | read x amt => exact hinv.read h

/-- While both sides are on a connection and have told their positions, what was read and what is on
the way is everything but the debt. -/
theorem Inv.got_append_flight (hinv : Inv s) (hboth : ∀ z, s.conn z = some c)
    (hready : ∀ z, (s.side z).Ready) (x : Side) :
    s.got x ++ s.flight c x =
      (s.sent x.peer).take ((s.sent x.peer).length - (s.side x.peer).streamDebt.toNat) := by
  obtain ⟨p, body, hp, -, -, howes⟩ := hinv.paired c hboth x
  have hflight := (hp.flight_eq (hinv.kept x) (hboth x) (hready x)).1
  have hlength := howes (hready x.peer)
  have hbody := hp.goes_on.length_le
  rw [List.length_drop] at hbody
  have hgot := (hinv.kept x).isPrefix_got.length_le
  have hisPrefix : s.got x ++ s.flight c x <+: s.sent x.peer := by
    obtain ⟨rest, hrest⟩ := (hinv.kept x).isPrefix_got
    have hgoes := hp.goes_on
    rw [← hrest, List.drop_left] at hgoes
    rwa [hflight, ← hrest, List.prefix_append_right_inj]
  rw [List.prefix_iff_eq_take.mp hisPrefix]
  congr 1
  rw [List.length_append, hflight]
  omega

end Session

end QNet.Tcpmux
