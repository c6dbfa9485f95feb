import QNet.Tcpmux.Messages

/-!
# The clients of one side

The part of `mux_context` that is not about connections: the message that is written and the one
that is read, the two counters of karma, the table of the clients and the queue of those that have
something to acknowledge. The queue of writers is not here. Which client writes next is left to the
run; of the control client, which writes the acknowledgements, `controls` counts how often it is in
that queue.

The bytes that were read from the socket of a client and those that were written to it are kept as
history in the entry of the table, for all the clients that had this id, in order.
-/

namespace QNet.Tcpmux

def CLIENT_KARMA : ℕ := 2 ^ 16

def MAX_CLIENTS : ℕ := 2 ^ 16

def ACK_THRESHOLD : ℕ := 2 ^ 8

/-- How `initiate_client_connect` ends. It returns 1 where `connect` fails at once, or where it is
in progress and `epoll_ctl` fails. -/
inductive ConnectAnswer
  | quick
  | inProgress
  | failed
  deriving DecidableEq

/-- `client_data`; `s` says whether it has a socket, and `added` whether the socket is in the epoll
set. -/
structure ClientData where
  isConnecting : Bool
  isRdead : Bool
  s : Bool
  added : Bool
  wkarma : ℤ
  rkarma : ℤ
  outPos : ℕ
  outSz : ℕ
  outBuf : Mem

namespace ClientData

/-- `allocate_client` -/
def init : ClientData where
  isConnecting := false
  isRdead := false
  s := false
  added := false
  wkarma := CLIENT_KARMA
  rkarma := 0
  outPos := 0
  outSz := 0
  outBuf := fun _ ↦ 0

/-- `noqueue` in `set_rkarma` and `clientw` -/
def Noqueue (cd : ClientData) : Prop := 0 ≤ cd.rkarma ∧ cd.rkarma < ACK_THRESHOLD

instance (cd : ClientData) : Decidable cd.Noqueue := inferInstanceAs (Decidable (_ ∧ _))

/-- A client whose connection was accepted. -/
def accepted : ClientData := { init with s := true, added := true }

/-- `initiate_client_connect` -/
def initiateConnect (cd : ClientData) (answer : ConnectAnswer) : ClientData :=
  { cd with s := true, isConnecting := answer ≠ .quick, added := answer ≠ .failed }

/-- What `clientw` writes next. -/
def outgoing (cd : ClientData) : List UInt8 :=
  cd.outBuf.slice cd.outPos (min cd.outSz (CLIENT_KARMA - cd.outPos))

/-- `clientw` has written `amt` bytes. -/
def wrote (cd : ClientData) (amt : ℕ) : ClientData :=
  let pos := cd.outPos + amt
  { cd with
    rkarma := cd.rkarma + amt
    outPos := if CLIENT_KARMA ≤ pos then pos - CLIENT_KARMA else pos
    outSz := cd.outSz - amt }

/-- `write_cbuf` in `mainr` -/
def store (cd : ClientData) (buf : List UInt8) : ClientData :=
  let (outBuf, outSz) := writeCbuf cd.outBuf cd.outPos cd.outSz CLIENT_KARMA buf false
  { cd with outBuf := outBuf, outSz := outSz }

end ClientData

/-- An entry of `client_table`. Of the clients that had its id `allocs` counts all, and `read n` and
`written n` are the history of the one that came after `n` others. -/
structure Slot where
  client : Option ClientData
  allocs : ℕ
  read : ℕ → List UInt8
  written : ℕ → List UInt8

namespace Slot

def empty : Slot where
  client := none
  allocs := 0
  read _ := []
  written _ := []

def alloc (slot : Slot) (cd : ClientData) : Slot :=
  { slot with client := some cd, allocs := slot.allocs + 1 }

/-- Bytes were read from the socket of the client. -/
def addRead (slot : Slot) (bytes : List UInt8) : Slot :=
  let n := slot.allocs - 1
  { slot with read := Function.update slot.read n (slot.read n ++ bytes) }

/-- Bytes were written to the socket of the client. -/
def addWritten (slot : Slot) (bytes : List UInt8) : Slot :=
  let n := slot.allocs - 1
  { slot with written := Function.update slot.written n (slot.written n ++ bytes) }

end Slot

structure Context where
  demux : Bool
  streamKarma : ℤ
  rstreamKarma : ℤ
  /-- `none` is `wout.id == 0`. -/
  wout : Option Message
  wpos : ℕ
  /-- The first `rpos` bytes of `rin`. -/
  rin : List UInt8
  /-- What the loop of `read_ack` has not come to. -/
  pairs : List (ℤ × ℤ)
  clientTable : ℕ → Slot
  karmaQueue : List ℕ
  controls : ℕ
  /-- `mainr` or `mainw` has returned 1, or an assertion has failed. -/
  failed : Bool

namespace Context

/-- `make_context`. The control client has the id 0. -/
def init (demux : Bool) : Context where
  demux := demux
  streamKarma := GLOBAL_KARMA - 1
  rstreamKarma := 0
  wout := none
  wpos := 0
  rin := []
  pairs := []
  clientTable := Function.update (fun _ ↦ .empty) 0 (Slot.empty.alloc .init)
  karmaQueue := []
  controls := 0
  failed := false

def fail (mc : Context) : Context := { mc with failed := true }

def setSlot (mc : Context) (id : ℕ) (slot : Slot) : Context :=
  { mc with clientTable := Function.update mc.clientTable id slot }

def client (mc : Context) (id : ℕ) : Option ClientData := (mc.clientTable id).client

def setClient (mc : Context) (id : ℕ) (cd : Option ClientData) : Context :=
  mc.setSlot id { mc.clientTable id with client := cd }

/-! ## The clients that have something to acknowledge -/

/-- `push_writer` with the control client -/
def pushControl (mc : Context) : Context := { mc with controls := mc.controls + 1 }

/-- The end of `set_rkarma` and of the loop in `clientw`. -/
def pushKarma (mc : Context) (id : ℕ) : Context :=
  let pushed := { mc with karmaQueue := mc.karmaQueue ++ [id] }
  if mc.karmaQueue = [] ∧ mc.rstreamKarma < ACK_THRESHOLD then pushed.pushControl else pushed

def setRkarma (mc : Context) (id : ℕ) (cd : ClientData) (nkarma : ℤ) : Context :=
  let mc := mc.setClient id (some { cd with rkarma := nkarma })
  if cd.Noqueue ∧ (nkarma = -1 ∨ ACK_THRESHOLD ≤ nkarma) then mc.pushKarma id else mc

/-- `disconnect_client`. It returns 1 when the socket is not in the epoll set. -/
def disconnectClient (mc : Context) (id : ℕ) (cd : ClientData) : Context :=
  if cd.added then mc.setRkarma id { cd with s := false, added := false } (-1)
  else mc.setClient id (some cd)

/-! ## Allocation -/

/-- `allocate_client`, and what its callers do with the new client. -/
def allocateClient (mc : Context) (nid : ℕ) (cd : ClientData) : Context :=
  mc.setSlot nid ((mc.clientTable nid).alloc cd)

/-- The connection of a client was accepted: the first id that is free is taken. -/
def acceptClient (mc : Context) (nid : ℕ) : Context :=
  (mc.allocateClient nid .accepted).setRkarma nid .accepted CLIENT_KARMA

/-- `get_client`. Where `initiate_client_connect` returns 1, so does `disconnect_client`, and the
client stays. -/
def getClient (mc : Context) (id : ℤ) (answer : ConnectAnswer) : Option (ClientData × Context) :=
  if id < 0 ∨ MAX_CLIENTS ≤ id then none
  else
    match mc.client id.toNat with
    | some cd => some (cd, mc)
    | none =>
        if mc.demux then
          let cd := { ClientData.init.initiateConnect answer with wkarma := 0 }
          some (cd, mc.allocateClient id.toNat cd)
        else none

/-! ## Acknowledgements -/

/-- One round of the loop of `read_ack`. -/
def readAckPair (mc : Context) (id karma : ℤ) (answer : ConnectAnswer) : Context :=
  match mc.getClient id answer with
  | none => mc
  | some (cd, mc) =>
      if 0 ≤ karma then
        mc.setClient id.toNat (some { cd with wkarma := cd.wkarma + karma })
      else if cd.s then
        mc.disconnectClient id.toNat { cd with isRdead := true }
      else if cd.rkarma = 0 then
        mc.setClient id.toNat none
      else
        mc.setClient id.toNat (some { cd with isRdead := true })

/-- The pairs for which `wout` has room. -/
def ROOM : ℕ := (VPACKETSIZE / 4 - 1) / 2

/-- The loop of `write_ack`, with the room that is left. -/
def writeAckLoop : ℕ → Context → List (ℤ × ℤ) × Context
  | 0, mc => ([], mc)
  | room + 1, mc =>
      match mc.karmaQueue with
      | [] => ([], mc)
      | id :: queue =>
          match mc.client id with
          | none => ([], mc)
          | some cd =>
              let mc := { mc with karmaQueue := queue }.setClient id
                (if cd.isRdead then none else some { cd with rkarma := 0 })
              let (pairs, mc) := writeAckLoop room mc
              ((id, cd.rkarma) :: pairs, mc)

theorem length_writeAckLoop_le (room : ℕ) (mc : Context) :
    (writeAckLoop room mc).1.length ≤ room := by
  induction room generalizing mc with
  | zero => exact Nat.le_refl 0
  | succ room ih =>
    rw [writeAckLoop]
    split
    · exact Nat.zero_le _
    · split
      · exact Nat.zero_le _
      · exact Nat.succ_le_succ (ih _)

/-- The assertions of `write_ack`. -/
def AckAsserts (mc : Context) : Prop :=
  (0 ≤ mc.rstreamKarma ∧ mc.rstreamKarma ≤ GLOBAL_KARMA) ∧
    (ACK_THRESHOLD ≤ mc.rstreamKarma ∨ mc.karmaQueue ≠ []) ∧
    ∀ id ∈ mc.karmaQueue.take ROOM, ∀ cd ∈ mc.client id,
      (cd.rkarma = -1 ∨ (ACK_THRESHOLD ≤ cd.rkarma ∧ cd.rkarma ≤ CLIENT_KARMA)) ∧
        (cd.isRdead = true → cd.rkarma = -1)

instance (mc : Context) : Decidable mc.AckAsserts := inferInstanceAs (Decidable (_ ∧ _ ∧ _))

/-- The bytes of `wout` after `write_ack`. -/
def ackBuf (karma : ℤ) (pairs : List (ℤ × ℤ)) : List UInt8 :=
  htonl karma ++ pairs.flatMap pairBytes

theorem length_ackBuf (karma : ℤ) (pairs : List (ℤ × ℤ)) :
    (ackBuf karma pairs).length = 4 + 8 * pairs.length := by
  rw [ackBuf, List.length_append, length_htonl, length_flatMap_pairBytes]

/-- The message that `write_ack` makes. -/
def ackMessage (mc : Context) : Message where
  id := -1
  buf := ackBuf mc.rstreamKarma (writeAckLoop ROOM mc).1
  isInt_id := by decide
  buf_pos := by
    rw [length_ackBuf]
    omega
  buf_le := by
    have hroom : (writeAckLoop ROOM mc).1.length ≤ 127 := length_writeAckLoop_le ROOM mc
    rw [length_ackBuf]
    change 4 + 8 * (writeAckLoop ROOM mc).1.length ≤ 1024
    omega

/-- `write_ack`, and what `mainw` does around it: the control client is taken from the queue of
writers and put back when there is more to acknowledge. -/
def writeAck (mc : Context) : Context :=
  if mc.AckAsserts then
    let next := (writeAckLoop ROOM mc).2
    { next with
      rstreamKarma := 0
      wout := some mc.ackMessage
      wpos := 0
      controls := if next.karmaQueue = [] then mc.controls - 1 else mc.controls }
  else mc.fail

/-! ## The data of the clients -/

/-- `mainw` has read a packet from a client. -/
def grab (mc : Context) (id : ℕ) (cd : ClientData) (m : Message) : Context :=
  let slot := mc.clientTable id
  { mc.setSlot id (Slot.addRead
      { slot with client := some { cd with wkarma := cd.wkarma - m.buf.length } } m.buf) with
    wout := some m
    wpos := 0 }

/-- `mainw` has written bytes of `wout`. -/
def wrote (mc : Context) (m : Message) (amt : ℕ) : Context :=
  { mc with
    streamKarma := mc.streamKarma - amt
    wpos := mc.wpos + amt
    wout := if mc.wpos + amt = m.bytes.length then none else some m }

/-- `mainr` has read bytes of `rin`. -/
def readMain (mc : Context) (bytes : List UInt8) : Context :=
  let next := { mc with
    rin := mc.rin ++ bytes
    rstreamKarma := mc.rstreamKarma + bytes.length }
  if mc.karmaQueue = [] ∧ mc.rstreamKarma < ACK_THRESHOLD ∧
      (ACK_THRESHOLD : ℤ) ≤ next.rstreamKarma then
    next.pushControl
  else next

/-- `mainr` has a whole message. Of an acknowledgement only the first number is looked at here. -/
def process (mc : Context) (m : Message) (answer : ConnectAnswer) : Context :=
  let mc := { mc with rin := [] }
  if m.id = -1 then
    let karma := (mc.streamKarma + m.karma).bmod (2 ^ 32)
    if 0 ≤ karma ∧ karma ≤ GLOBAL_KARMA then
      { mc with streamKarma := karma, pairs := ackPairs (m.buf.drop 4) }
    else mc.fail
  else
    match mc.getClient m.id answer with
    | none => mc.fail
    | some (cd, mc) =>
        if CLIENT_KARMA < cd.outSz + m.buf.length then mc.fail
        else mc.setClient m.id.toNat (some (cd.store m.buf))

/-- `clientw` has written bytes to a client. -/
def clientWrote (mc : Context) (id : ℕ) (cd : ClientData) (amt : ℕ) : Context :=
  let slot := mc.clientTable id
  let mc := mc.setSlot id (Slot.addWritten
    { slot with client := some (cd.wrote amt) } (cd.outgoing.take amt))
  if cd.Noqueue ∧ ACK_THRESHOLD ≤ (cd.wrote amt).rkarma then mc.pushKarma id else mc

end Context

end QNet.Tcpmux
