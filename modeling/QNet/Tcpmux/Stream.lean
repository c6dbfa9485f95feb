import QNet.Lib.ByteStream
import QNet.Lib.Machine
import QNet.Lib.Replay

/-!
# The stream of `tcpmux` over connections that break

Two processes, one started as the mux and the other with `--demux`, exchange one stream of bytes in
each direction. What is written is also kept in the ring `stream`. When the connection breaks the
mux opens another one. It sends its key, by which the other process finds the context again, and
both say how much they have read; the difference to what was written is the debt, which is paid
from the ring before anything else is written.

A connection that was given up may still hold bytes, and the other process may read from it, or
find it, after a newer one was opened. A `Session` is the two contexts and all the connections that
the mux has opened. The events are the calls of `read` and `write` with what the system makes of
them; the two loops `mainr` and `mainw` are cut there, and the process of either side may be
anywhere in its loops when the other goes on.
-/

namespace QNet.Tcpmux

/-! ## Constants and numbers -/

def KEYSZ : ℕ := 32

def GLOBAL_KARMA : ℕ := 2 ^ 20

/-- The four bytes of an integer in network order. -/
def htonl (n : ℤ) : List UInt8 := (ByteStream.leBytes 4 (n % 2 ^ 32).toNat).reverse

/-- The unsigned number. -/
def ntohl (bytes : List UInt8) : ℤ := ByteStream.ofLe bytes.reverse

@[simp]
theorem length_htonl (n : ℤ) : (htonl n).length = 4 := by simp [htonl]

theorem ntohl_htonl (n : ℤ) : ntohl (htonl n) = n % 2 ^ 32 := by
  have hlt : (n % 2 ^ 32).toNat < 256 ^ 4 := by omega
  rw [ntohl, htonl, List.reverse_reverse, ByteStream.ofLe_leBytes hlt]
  omega

/-! ## The ring buffers -/

/-- The loop of `write_cbuf`: the buffer and `*csz`. Every round writes at least one byte, so that
the number of the bytes is enough `fuel`. -/
def writeCbufLoop (opos cmxsz : ℕ) (rotsz : Bool) :
    ℕ → Mem → ℕ → List UInt8 → Mem × ℕ
  | 0, cdata, csz, _ => (cdata, csz)
  | fuel + 1, cdata, csz, wdata =>
      if 0 < wdata.length then
        let cpos := opos + csz
        let cpos := if cmxsz ≤ cpos then cpos - cmxsz else cpos
        let amt := min wdata.length (cmxsz - cpos)
        let cdata := cdata.store cpos (wdata.take amt)
        let csz := csz + amt
        let csz := if rotsz ∧ cmxsz ≤ csz then csz - cmxsz else csz
        writeCbufLoop opos cmxsz rotsz fuel cdata csz (wdata.drop amt)
      else (cdata, csz)

def writeCbuf (cdata : Mem) (opos csz cmxsz : ℕ) (wdata : List UInt8) (rotsz : Bool) : Mem × ℕ :=
  writeCbufLoop opos cmxsz rotsz wdata.length cdata csz wdata

/-! ## One side -/

inductive Side
  | mux
  | demux
  deriving DecidableEq

def Side.peer : Side → Side
  | mux => demux
  | demux => mux

/-- The fields of `mux_context` that carry the stream. The position that the peer sends is read
into the bytes of `stream_debt`; `debtBytes` are those that have come. -/
structure Transport where
  mainfd : Option ℕ
  isConnecting : Bool
  handshakeSt : ℕ
  debtBytes : List UInt8
  streamPos : ℕ
  streamDebt : ℤ
  stream : Mem
  rstreamPos : ℕ

namespace Transport

/-- `make_context` -/
def init : Transport where
  mainfd := none
  isConnecting := false
  handshakeSt := 0
  debtBytes := []
  streamPos := 0
  streamDebt := 0
  stream := fun _ ↦ 0
  rstreamPos := 0

/-- The connection is there: `mainr` and `mainw` do nothing before. -/
def Connected (t : Transport) (c : ℕ) : Prop := t.mainfd = some c ∧ t.isConnecting = false

instance (t : Transport) (c : ℕ) : Decidable (t.Connected c) :=
  inferInstanceAs (Decidable (_ ∧ _))

/-- The position of the peer has come. -/
def Ready (t : Transport) : Prop := t.handshakeSt = KEYSZ + 4

instance (t : Transport) : Decidable t.Ready := inferInstanceAs (Decidable (_ = _))

/-- The last four bytes of `write_mux_header`. -/
def position (t : Transport) : List UInt8 := htonl t.rstreamPos

/-- A connection on which the key is already known. -/
def enter (t : Transport) (c : ℕ) (isConnecting : Bool) : Transport :=
  { t with mainfd := some c, isConnecting := isConnecting, handshakeSt := KEYSZ, debtBytes := [] }

/-- `mainr` has read bytes of the position. -/
def readPosition (t : Transport) (bytes : List UInt8) : Transport :=
  let t := { t with
    handshakeSt := t.handshakeSt + bytes.length
    debtBytes := t.debtBytes ++ bytes }
  if t.handshakeSt = KEYSZ + 4 then
    { t with streamDebt := Replay.behind GLOBAL_KARMA t.streamPos (ntohl t.debtBytes) }
  else t

/-- `pos` and `sz` of the part of the debt that `mainw` writes next. -/
def debtPart (t : Transport) : ℤ × ℤ :=
  let pos := t.streamPos - t.streamDebt
  if pos < 0 then (pos + GLOBAL_KARMA, t.streamDebt - t.streamPos) else (pos, t.streamDebt)

/-- The bytes of the ring that `mainw` offers to `write`. -/
def debtBuf (t : Transport) : List UInt8 := t.stream.slice t.debtPart.1.toNat t.debtPart.2.toNat

/-- `mainw` has written `amt` bytes of the debt. -/
def pay (t : Transport) (amt : ℕ) : Transport := { t with streamDebt := t.streamDebt - amt }

/-- `write_mainfd`, with the bytes that were written; `stream_karma` is in another record. -/
def writeMainfd (t : Transport) (bytes : List UInt8) : Transport :=
  let (stream, streamPos) := writeCbuf t.stream 0 t.streamPos GLOBAL_KARMA bytes true
  { t with stream := stream, streamPos := streamPos }

/-- `mainr` has read `amt` bytes of the stream. -/
def readMain (t : Transport) (amt : ℕ) : Transport :=
  let pos := t.rstreamPos + amt
  let pos := if GLOBAL_KARMA ≤ pos then pos - GLOBAL_KARMA else pos
  { t with rstreamPos := if GLOBAL_KARMA ≤ pos then pos - GLOBAL_KARMA else pos }

end Transport

/-! ## Both sides and their connections -/

/-- The bytes on their way to either side on every connection, and the connections whose key the
other process has not read yet. `sent` and `got` are the history: all that was put into the stream
with `write_mainfd` and all that `mainr` has read of it. -/
structure Session where
  key : List UInt8
  side : Side → Transport
  flight : ℕ → Side → List UInt8
  opened : ℕ
  waiting : ℕ → Bool
  sent : Side → List UInt8
  got : Side → List UInt8

inductive Event
  /-- `disconnect_main` and `initiate_main_connect` of the mux, also at its start. -/
  | connect
  /-- The connection of the mux is there, and `write_mux_header` writes the key and the position. -/
  | connected
  /-- The other process has read a whole key, and `mainr` goes over to the context with it. -/
  | adopt (c : ℕ)
  /-- `disconnect_main` with `--demux`. -/
  | disconnect
  | readPosition (x : Side) (amt : ℕ)
  | pay (x : Side) (amt : ℕ)
  | write (x : Side) (bytes : List UInt8)
  | read (x : Side) (amt : ℕ)

namespace Session

def start (key : List UInt8) : Session where
  key := key
  side _ := .init
  flight _ _ := []
  opened := 0
  waiting _ := false
  sent _ := []
  got _ := []

def setSide (s : Session) (x : Side) (t : Transport) : Session :=
  { s with side := Function.update s.side x t }

def setFlight (s : Session) (c : ℕ) (x : Side) (bytes : List UInt8) : Session :=
  { s with flight := Function.update s.flight c (Function.update (s.flight c) x bytes) }

/-- Bytes are written on a connection. -/
def push (s : Session) (c : ℕ) (x : Side) (bytes : List UInt8) : Session :=
  s.setFlight c x (s.flight c x ++ bytes)

/-- Bytes are read from a connection. -/
def pull (s : Session) (c : ℕ) (x : Side) (amt : ℕ) : Session :=
  s.setFlight c x ((s.flight c x).drop amt)

/-- The connection that a side may read from and write to. -/
def conn (s : Session) (x : Side) : Option ℕ :=
  if (s.side x).isConnecting then none else (s.side x).mainfd

/-- `mainr` finds the context by its key: not one whose position has not come. At first there is no
other context, and the preliminary one stays. -/
def Found (s : Session) : Prop := (s.side .demux).handshakeSt = 0 ∨ (s.side .demux).Ready

instance (s : Session) : Decidable s.Found := inferInstanceAs (Decidable (_ ∨ _))

/-- The context was not found, and the preliminary one stays in its place. -/
def forget (s : Session) : Session :=
  { s.setSide .demux .init with
    sent := Function.update s.sent .demux []
    got := Function.update s.got .demux [] }

/-- The other process goes over to connection `c`, of which it has read the key. -/
def adopt (s : Session) (c : ℕ) : Session :=
  { ((s.setSide .demux ((s.side .demux).enter c false)).pull c .demux KEYSZ).push c .mux
      (s.side .demux).position with
    waiting := Function.update s.waiting c false }

/-- One event. `none` where it cannot happen. -/
def next (s : Session) : Event → Option Session
  | .connect =>
      some { s.setSide .mux ((s.side .mux).enter s.opened true) with
        opened := s.opened + 1
        waiting := Function.update s.waiting s.opened true }
  | .connected =>
      match (s.side .mux).mainfd with
      | none => none
      | some c =>
          if (s.side .mux).isConnecting then
            some ((s.setSide .mux { s.side .mux with isConnecting := false }).push c .demux
              (s.key ++ (s.side .mux).position))
          else none
  | .adopt c =>
      if s.waiting c ∧ (s.flight c .demux).take KEYSZ = s.key then
        some ((if s.Found then s else s.forget).adopt c)
      else none
  | .disconnect => some (s.setSide .demux { s.side .demux with mainfd := none })
  | .readPosition x amt =>
      (s.conn x).bind fun c ↦
        let t := s.side x
        if t.handshakeSt < KEYSZ + 4 ∧ 0 < amt ∧ amt ≤ KEYSZ + 4 - t.handshakeSt ∧
            amt ≤ (s.flight c x).length then
          some ((s.setSide x (t.readPosition ((s.flight c x).take amt))).pull c x amt)
        else none
  | .pay x amt =>
      (s.conn x).bind fun c ↦
        let t := s.side x
        if t.Ready ∧ 0 < t.streamDebt ∧ 0 < amt ∧ amt ≤ t.debtBuf.length then
          some ((s.setSide x (t.pay amt)).push c x.peer (t.debtBuf.take amt))
        else none
  | .write x bytes =>
      (s.conn x).bind fun c ↦
        let t := s.side x
        if t.Ready ∧ t.streamDebt ≤ 0 ∧ 0 < bytes.length then
          some { (s.setSide x (t.writeMainfd bytes)).push c x.peer bytes with
            sent := Function.update s.sent x (s.sent x ++ bytes) }
        else none
  | .read x amt =>
      (s.conn x).bind fun c ↦
        let t := s.side x
        if t.Ready ∧ 0 < amt ∧ amt ≤ (s.flight c x).length then
          some { (s.setSide x (t.readMain amt)).pull c x amt with
            got := Function.update s.got x (s.got x ++ (s.flight c x).take amt) }
        else none

end Session

end QNet.Tcpmux
