import QNet.Tcpmux.Delivery

/-!
# What `tcpmux` delivers

The results are about every run of both processes, with any order of their steps, with connections
that break at any byte, and with clients to which no connection can be made. A run is asked two
things. Whenever the key of a new connection has come, the position of the mux has come on the one
before. Otherwise the other process does not find its context and makes another one, whose stream
and clients begin anew: what the mux has read is then no part of what the other side has sent, as
after `forgetRun`. And the mux never has as many clients as there are ids. Otherwise `get_client`
of the other process finds the id of the next one too large, and `mainr` gives up.

A context that nothing has been heard of for `MUX_TIMEOUT` is thrown away, which also makes the
other process forget; no context is here. Apart from `read`, `write` and the `connect` to a client,
the calls of the system succeed.
-/

namespace QNet.Tcpmux.System

variable {key : List UInt8} {acts : List Act} {s : System}

/-! ## Examples of runs -/

def sampleKey : List UInt8 := List.replicate KEYSZ 7

/-- A client of the mux sends three bytes. The connection breaks when ten bytes of the message were
read, and the eleventh is sent again on the next one. -/
def sampleRun : List Act :=
  [.connection .connect, .connection .connected, .connection (.adopt 0),
    .connection (.readPosition .mux 4), .connection (.readPosition .demux 1),
    .connection (.readPosition .demux 3), .accept 1, .grab .mux 1 [1, 2, 3], .write .mux 11,
    .read .demux 8, .read .demux 2, .connection .connect, .connection .connected,
    .connection (.adopt 1), .connection (.readPosition .mux 4),
    .connection (.readPosition .demux 4), .connection (.pay .mux 1), .read .demux 1,
    .process .demux .inProgress, .clientConnected .demux 1, .clientWrite .demux 1 2]

theorem exists_sampleRun : ∃ s, (machine sampleKey).Run sampleRun s ∧
    (s.session.got .demux).length = 11 ∧
    ((s.context .demux).clientTable 1).written 0 = [1, 2] :=
  Machine.exists_run_guard _ _ _ sampleRun (by decide)

/-! ## The stream -/

/-- Each side reads the stream of the other one, and in it the messages, from the first on, in their
order and each once, and while both are on one connection and know where the other one is, what is
on its way and what is owed is all that is missing. -/
theorem messages_in_order (hkey : key.length = KEYSZ) (hrun : (machine key).Run acts s) (x : Side) :
    s.session.got x <+: s.session.sent x.peer ∧ s.taken x <+: s.composed x.peer ∧
      ∀ c, (∀ z, s.session.conn z = some c) → (∀ z, (s.session.side z).Ready) →
        s.session.got x ++ s.session.flight c x = (s.session.sent x.peer).take
          ((s.session.sent x.peer).length - (s.session.side x.peer).streamDebt.toNat) := by
  have hinv := inv_of_run hkey hrun
  exact ⟨(hinv.session.kept x).isPrefix_got, (hinv.flow x).taken,
    fun _ hboth hready ↦ hinv.session.got_append_flight hboth hready x⟩

theorem messages_in_order_resumed : ∃ s, (machine sampleKey).Run sampleRun s ∧
    (s.session.got .demux).length = 11 ∧ s.taken .demux <+: s.composed .mux := by
  obtain ⟨s, hrun, hlength, -⟩ := exists_sampleRun
  exact ⟨s, hrun, hlength, (messages_in_order (by decide) hrun .demux).2.1⟩

/-- A run in which a connection breaks between the key and the position, when the other process has
sent twelve bytes. -/
def forgetRun : List Act :=
  [.connection .connect, .connection .connected, .connection (.adopt 0),
    .connection (.readPosition .mux 4), .connection (.readPosition .demux 4), .accept 1,
    .grab .mux 1 (List.replicate 300 0), .write .mux 308, .read .demux 8, .read .demux 300,
    .ack .demux, .write .demux 12, .read .mux 8, .read .mux 4, .connection .connect,
    .connection .connected, .connection (.adopt 1), .connection .connect, .connection .connected,
    .connection (.adopt 2), .connection (.readPosition .demux 4)]

set_option maxRecDepth 8000 in
-- The mux has read from a stream that is not there any more, and the other process owes a part of
-- the new one that was never written to it.
example : ∃ s, (Machine.ofNext (start sampleKey) next).Run forgetRun s ∧
    ((s.session.got .mux).length = 12 ∧ s.session.sent .demux = []) ∧
    (s.session.side .demux).streamDebt = GLOBAL_KARMA - 12 :=
  Machine.exists_run_ofNext _ _ _ (by decide)

/-! ## Karma -/

/-- The first message, and the data of a client with three bytes. -/
def firstMessage (answer : ConnectAnswer) : List Act :=
  [.connection .connect, .connection .connected, .connection (.adopt 0),
    .connection (.readPosition .mux 4), .connection (.readPosition .demux 4), .accept 1,
    .grab .mux 1 [1, 2, 3], .write .mux 11, .read .demux 8, .read .demux 3,
    .process .demux answer]

/-- The other process cannot connect the client. It hears that the client is gone, and does not say
so of its own. -/
def lostRun : List Act :=
  firstMessage .failed ++ [.gone .mux 1, .ack .mux, .write .mux 20, .read .demux 8,
    .read .demux 12, .process .demux .failed, .pair .demux .failed]

/-- Both clients are gone and both sides say so, but only the mux has heard it. -/
def closedRun : List Act :=
  firstMessage .quick ++ [.gone .mux 1, .gone .demux 1, .ack .mux, .ack .demux, .write .mux 20,
    .write .demux 20, .read .mux 8, .read .mux 12, .process .mux .quick, .pair .mux .quick]

end QNet.Tcpmux.System
