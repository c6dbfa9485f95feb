import QNet.Tcpmux.Context

/-!
# Both processes

The mux, the context of the other process that has its key, and what is between them. The events are
the calls of the system as before, together with what the loops `mainr`, `mainw` and `clientw` do
between two of them; `mainr` calls `mainw`, so that whatever `mainw` does may come while `mainr` is
looking at a message or at the pairs of an acknowledgement.
-/

namespace QNet.Tcpmux

/-- `composed` and `taken` are the history of the messages that `mainw` has put together and that
`mainr` has looked at, and `handled` is what it has done of them. -/
structure System where
  session : Session
  context : Side → Context
  composed : Side → List Message
  taken : Side → List Message
  handled : Side → List (ℤ × Entry)

inductive Act
  /-- Connections, and what is written and read on them besides the stream. -/
  | connection (e : Event)
  /-- The mux accepts the connection of a client. -/
  | accept (id : ℕ)
  /-- `EPOLLOUT` of a client that was connecting. -/
  | clientConnected (x : Side) (id : ℕ)
  /-- `disconnect_client` where the socket of a client is at its end or broken. One that is not in
  the epoll set is connecting, and neither read nor written. -/
  | gone (x : Side) (id : ℕ)
  /-- `mainw` takes a client from its queue and reads a packet. A client that is connecting is not
  put into the queue. -/
  | grab (x : Side) (id : ℕ) (bytes : List UInt8)
  /-- `mainw` takes the control client from its queue. -/
  | ack (x : Side)
  | write (x : Side) (amt : ℕ)
  | read (x : Side) (amt : ℕ)
  | process (x : Side) (answer : ConnectAnswer)
  /-- A round of the loop of `read_ack`. -/
  | pair (x : Side) (answer : ConnectAnswer)
  | clientWrite (x : Side) (id : ℕ) (amt : ℕ)

namespace System

def start (key : List UInt8) : System where
  session := .start key
  context x := .init (x = .demux)
  composed _ := []
  taken _ := []
  handled _ := []

def setContext (s : System) (x : Side) (mc : Context) : System :=
  { s with context := Function.update s.context x mc }

/-- The other process has a context that is new. -/
def forget (s : System) : System :=
  { s.setContext .demux (.init true) with
    composed := Function.update s.composed .demux []
    taken := Function.update s.taken .demux []
    handled := Function.update s.handled .demux [] }

/-- `mainw` goes on to the queue of writers and to `wout`. -/
def Writing (s : System) (x : Side) : Prop :=
  (s.session.conn x).isSome ∧ (s.session.side x).Ready ∧ (s.session.side x).streamDebt ≤ 0

instance (s : System) (x : Side) : Decidable (s.Writing x) :=
  inferInstanceAs (Decidable (_ ∧ _ ∧ _))

/-- `mainw` has put a message together. -/
def compose (s : System) (x : Side) (mc : Context) (m : Message) : System :=
  { s.setContext x mc with composed := Function.update s.composed x (s.composed x ++ [m]) }

/-- `mainr` or `read_ack` has done what a message says about a client. -/
def handle (s : System) (x : Side) (mc : Context) (entries : List (ℤ × Entry)) : System :=
  { s.setContext x mc with handled := Function.update s.handled x (s.handled x ++ entries) }

/-- One event. `none` where it cannot happen. -/
@[simp]
def next (s : System) : Act → Option System
  | .connection (.write _ _) => none
  | .connection (.read _ _) => none
  | .connection (.adopt c) =>
      (s.session.next (.adopt c)).map fun session ↦
        { if s.session.Found then s else s.forget with session := session }
  | .connection e => (s.session.next e).map fun session ↦ { s with session := session }
  | .accept id =>
      let mc := s.context .mux
      if mc.client id = none ∧ (∀ k < id, mc.client k ≠ none) ∧ mc.failed = false then
        some (s.setContext .mux (mc.acceptClient id))
      else none
  | .clientConnected x id =>
      let mc := s.context x
      match mc.client id with
      | none => none
      | some cd =>
          if cd.s ∧ cd.added ∧ mc.failed = false then
            some (s.setContext x (mc.setClient id (some { cd with isConnecting := false })))
          else none
  | .gone x id =>
      let mc := s.context x
      match mc.client id with
      | none => none
      | some cd =>
          if cd.s ∧ cd.added ∧ mc.failed = false then
            some (s.setContext x (mc.disconnectClient id cd))
          else none
  | .grab x id bytes =>
      let mc := s.context x
      match mc.client id with
      | none => none
      | some cd =>
          if h : 0 < bytes.length ∧ bytes.length ≤ VPACKETSIZE ∧ IsInt id then
            if s.Writing x ∧ mc.wout.isNone ∧ cd.s ∧ cd.isConnecting = false ∧
                (bytes.length : ℤ) ≤ cd.wkarma ∧ mc.failed = false then
              let m : Message := ⟨id, bytes, h.2.2, h.1, h.2.1⟩
              some (s.compose x (mc.grab id cd m) m)
            else none
          else none
  | .ack x =>
      let mc := s.context x
      if s.Writing x ∧ mc.wout.isNone ∧ 0 < mc.controls ∧ mc.failed = false then
        some (s.compose x mc.writeAck mc.ackMessage)
      else none
  | .write x amt =>
      let mc := s.context x
      match mc.wout with
      | none => none
      | some m =>
          if (amt : ℤ) ≤ mc.streamKarma ∧ mc.wpos + amt ≤ m.bytes.length ∧ mc.failed = false then
            (s.session.next (.write x ((m.bytes.drop mc.wpos).take amt))).map fun session ↦
              { s.setContext x (mc.wrote m amt) with session := session }
          else none
  | .read x amt =>
      let mc := s.context x
      if ¬ Message.Whole mc.rin ∧ mc.pairs = [] ∧ mc.failed = false then
        match Message.rsz mc.rin with
        | none => some (s.setContext x mc.fail)
        | some rsz =>
            if mc.rin.length + amt ≤ rsz then
              (s.session.conn x).bind fun c ↦
                (s.session.next (.read x amt)).map fun session ↦
                  { s.setContext x (mc.readMain ((s.session.flight c x).take amt)) with
                    session := session }
            else none
      else none
  | .process x answer =>
      let mc := s.context x
      if h : Message.Whole mc.rin then
        if mc.pairs = [] ∧ mc.failed = false then
          let m := Message.ofRin mc.rin h
          some { s.handle x (mc.process m answer) (if m.id = -1 then [] else m.entries) with
            taken := Function.update s.taken x (s.taken x ++ [m]) }
        else none
      else none
  | .pair x answer =>
      let mc := s.context x
      match mc.pairs with
      | [] => none
      | (id, karma) :: pairs =>
          if mc.failed = false then
            some (s.handle x ({ mc with pairs := pairs }.readAckPair id karma answer)
              [(id, .ofKarma karma)])
          else none
  | .clientWrite x id amt =>
      let mc := s.context x
      match mc.client id with
      | none => none
      | some cd =>
          if cd.s ∧ cd.isConnecting = false ∧ 0 < amt ∧ amt ≤ cd.outgoing.length ∧
              mc.failed = false then
            some (s.setContext x (mc.clientWrote id cd amt))
          else none

end System

end QNet.Tcpmux
