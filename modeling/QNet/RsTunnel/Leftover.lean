import QNet.RsTunnel.Loop

/-!
# What the blocks say about earlier packets

Two processes with the same options and the same first key take the same steps, on frames and
datagrams that may differ. Frames are told apart by nothing but the buffer; of two datagrams it is
asked that they leave the same variables apart from the buffer and the collected blocks, which is
what datagrams do that differ in the frames inside. Then the processes get a frame which they
encrypt to the same packet.

Ten blocks are cut from the buffer for every packet. `datagrams_eq_iff` says that the two groups
are the same if and only if earlier packets left the same bytes behind the packet.
-/

namespace QNet.RsTunnel

open Mem Tunnel

/-- The variables of the loop that hold no bytes of packets. -/
structure Control where
  keys : Keys
  curpakagenum : UInt8
  addr : Address
  curhost : Curhost
  curnumSend : ℕ
  recv : Recv Unit

def RsLoop.control (s : RsLoop) : Control :=
  ⟨s.keys, s.curpakagenum, s.addr, s.curhost, s.curnumSend, s.recv.map fun _ ↦ ()⟩

/-- What the two processes get. -/
inductive TwinInput
  | frames (answers : Answers) (frame frame' : List UInt8)
  | datagrams (answers : Answers) (source : Address) (datagram datagram' : List UInt8)

/-- One step of both processes. -/
inductive TwinStep (lib : Library) (leo : Leopard) (cfg : RsConfig) :
    RsLoop × RsLoop → TwinInput → RsLoop × RsLoop → Prop
  | frames {s t s' t' : RsLoop} {answers : Answers} {frame frame' : List UInt8}
      {effects effects' : List Effect} :
      rsTap2net lib leo cfg answers s frame = some (s', effects) →
      rsTap2net lib leo cfg answers t frame' = some (t', effects') →
      TwinStep lib leo cfg (s, t) (.frames answers frame frame') (s', t')
  | datagrams {s t s' t' : RsLoop} {answers : Answers} {source : Address}
      {datagram datagram' : List UInt8} {effects effects' : List Effect} :
      rsNet2tap lib leo cfg answers s source datagram = some (s', effects) →
      rsNet2tap lib leo cfg answers t source datagram' = some (t', effects') →
      s'.control = t'.control →
      TwinStep lib leo cfg (s, t) (.datagrams answers source datagram datagram') (s', t')

def twins (lib : Library) (leo : Leopard) (cfg : RsConfig) (nextkey : Option Bytes32)
    (start : Loop) : Machine (RsLoop × RsLoop) TwinInput where
  init pair := pair = (RsLoop.start lib nextkey start, RsLoop.start lib nextkey start)
  step := TwinStep lib leo cfg

/-! ## The bytes of a frame change nothing but the buffer -/

theorem Prepared.unique {lib : Library} {cfg : Config} {answers : Answers}
    {s t prepared prepared' : Loop} {tosend tosend' : Bool}
    (h : Prepared lib cfg answers s prepared tosend)
    (h' : Prepared lib cfg answers t prepared' tosend') (hkeys : s.keys = t.keys) :
    tosend = tosend' ∧ prepared.keys = prepared'.keys := by
  obtain ⟨flag, keys, hflag, hchoose, hcur⟩ := h.keys
  obtain ⟨flag', keys', hflag', hchoose', hcur'⟩ := h'.keys
  rw [← hkeys] at hflag' hchoose'
  obtain rfl : flag = flag' := Option.some.inj (hflag.symm.trans hflag')
  obtain ⟨rfl, rfl⟩ := Prod.mk.inj (Option.some.inj (hchoose.symm.trans hchoose'))
  cases tosend with
  | false => exact ⟨rfl, hcur.trans hcur'.symm⟩
  | true =>
    obtain ⟨cur, hcur, hprepared⟩ := hcur
    obtain ⟨cur', hcur', hprepared'⟩ := hcur'
    obtain rfl : cur = cur' := Option.some.inj (hcur.symm.trans hcur')
    exact ⟨rfl, hprepared.trans hprepared'.symm⟩

theorem control_eq_of_frames {lib : Library} {leo : Leopard} {cfg : RsConfig} {answers : Answers}
    {s t s' t' : RsLoop} {frame frame' : List UInt8} {effects effects' : List Effect}
    (haes : cfg.aes = true) (hcontrol : s.control = t.control)
    (hs : rsTap2net lib leo cfg answers s frame = some (s', effects))
    (ht : rsTap2net lib leo cfg answers t frame' = some (t', effects')) :
    s'.control = t'.control := by
  obtain ⟨prepared, cnt, tosend, hprepared, hs⟩ := rsTap2net_spec haes hs
  obtain ⟨prepared', cnt', tosend', hprepared', ht⟩ := rsTap2net_spec haes ht
  have hspec := preparePacket_spec cfg.prog_eq haes hprepared
  have hspec' := preparePacket_spec cfg.prog_eq haes hprepared'
  simp only [RsLoop.control, Control.mk.injEq] at hcontrol ⊢
  obtain ⟨hkeys, hnum, haddr, hhost, hgroup, hrecv⟩ := hcontrol
  obtain ⟨rfl, hused⟩ := hspec.unique hspec' hkeys
  have hrest : prepared.curpakagenum = prepared'.curpakagenum ∧ prepared.addr = prepared'.addr ∧
      prepared.curhost = prepared'.curhost := by
    rw [hspec.curpakagenum, hspec'.curpakagenum, hspec.addr, hspec'.addr, hspec.curhost,
      hspec'.curhost, hnum, haddr, hhost]
    exact ⟨rfl, rfl, rfl⟩
  cases tosend with
  | false =>
    obtain ⟨_, rfl⟩ := hs
    obtain ⟨_, rfl⟩ := ht
    exact ⟨hused, hrest.1, hrest.2.1, hrest.2.2, hgroup, hrecv⟩
  | true =>
    obtain ⟨_, rotated, buf, hrotated, rfl⟩ := hs
    obtain ⟨_, rotated', buf', hrotated', rfl⟩ := ht
    rw [← hused] at hrotated'
    exact ⟨Option.some.inj (hrotated.symm.trans hrotated'), hrest.1, hrest.2.1, hrest.2.2,
      congrArg nextGroup hgroup, hrecv⟩

/-- All variables but the buffers and the collected blocks are the same in both processes. -/
theorem control_eq_of_reachable {lib : Library} {leo : Leopard} {cfg : RsConfig}
    {nextkey : Option Bytes32} {start : Loop} {pair : RsLoop × RsLoop} (haes : cfg.aes = true)
    (hreach : (twins lib leo cfg nextkey start).Reachable pair) :
    pair.1.control = pair.2.control := by
  apply hreach.invariant (P := fun pair ↦ pair.1.control = pair.2.control)
  · rintro _ rfl
    rfl
  · intro pair input next hcontrol hstep
    cases hstep with
    | frames hs ht => exact control_eq_of_frames haes hcontrol hs ht
    | datagrams _ _ hnext => exact hnext

/-! ## The two groups -/

theorem preparePacket_of_encryptedPacket {lib : Library} {cfg : RsConfig} {answers : Answers}
    {s : RsLoop} {frame packet : List UInt8}
    (h : encryptedPacket lib cfg answers s frame = some packet) :
    ∃ prepared, preparePacket lib cfg.toConfig answers s.toLoop frame =
      some (prepared, packet.length, true) ∧ prepared.buf.slice 0 packet.length = packet := by
  obtain ⟨⟨prepared, cnt, tosend⟩, hprepared, h⟩ := Option.bind_eq_some_iff.mp h
  cases tosend with
  | false => cases h
  | true =>
    obtain rfl := Option.some.inj h
    refine ⟨prepared, ?_, ?_⟩
    · rw [length_slice, hprepared]
    · rw [length_slice]

/-- The datagrams of a frame are the blocks of its packet. -/
theorem sent_of_encryptedPacket {lib : Library} {leo : Leopard} {cfg : RsConfig}
    {answers : Answers} {s s' : RsLoop} {frame packet : List UInt8} {effects : List Effect}
    (haes : cfg.aes = true) (hpacket : encryptedPacket lib cfg answers s frame = some packet)
    (h : rsTap2net lib leo cfg answers s frame = some (s', effects)) :
    ∃ tx : TxFrame, tx.packet = packet ∧ 32 ≤ tx.cnt ∧
      (∀ p, tx.cnt ≤ p → tx.buf p = s.buf.store 4 (frame.take 1518) p) ∧
      sent effects = (sendBlocks leo tx s.curnumSend).map Datagram.bytes := by
  obtain ⟨prepared, hprepared, hslice⟩ := preparePacket_of_encryptedPacket hpacket
  obtain ⟨prepared', cnt, tosend, hprepared', h⟩ := rsTap2net_spec haes h
  cases Option.some.inj (hprepared.symm.trans hprepared')
  obtain ⟨rfl, _⟩ := h
  obtain ⟨hlength, hbehind⟩ := preparePacket_behind cfg.prog_eq haes hprepared
  exact ⟨⟨prepared.buf, packet.length, preparePacket_le cfg.prog_eq haes hprepared⟩, hslice,
    hlength, hbehind, sent_sendGroup leo cfg.toConfig { s with toLoop := prepared } packet.length⟩

/-- Without a key in the header both processes encrypt a frame to the same packet. -/
theorem encryptedPacket_congr {lib : Library} {cfg : RsConfig} {answers : Answers}
    {s t : RsLoop} {frame packet packet' : List UInt8} (haes : cfg.aes = true)
    (hcontrol : s.control = t.control) (hflag : headerFlag cfg.toConfig s.keys ≠ some 2)
    (hpacket : encryptedPacket lib cfg answers s frame = some packet)
    (hpacket' : encryptedPacket lib cfg answers t frame = some packet') : packet = packet' := by
  have hkeys : s.keys = t.keys := congrArg Control.keys hcontrol
  have hnum : s.curpakagenum = t.curpakagenum := congrArg Control.curpakagenum hcontrol
  obtain ⟨prepared, hprepared, hslice⟩ := preparePacket_of_encryptedPacket hpacket
  obtain ⟨prepared', hprepared', hslice'⟩ := preparePacket_of_encryptedPacket hpacket'
  obtain ⟨flag, keys, cur, hs, hchoose, hcur, hbytes⟩ :=
    preparePacket_packet cfg.prog_eq haes hprepared
  obtain ⟨flag', keys', cur', ht, hchoose', hcur', hbytes'⟩ :=
    preparePacket_packet cfg.prog_eq haes hprepared'
  rw [← hkeys] at ht hchoose'
  obtain rfl : flag = flag' := Option.some.inj (hs.symm.trans ht)
  obtain ⟨rfl, _⟩ := Prod.mk.inj (Option.some.inj (hchoose.symm.trans hchoose'))
  obtain rfl : cur = cur' := Option.some.inj (hcur.symm.trans hcur')
  have hne : flag ≠ 2 := fun h ↦ hflag (h ▸ hs)
  rw [← hslice, ← hslice', hbytes, hbytes', plainPacket, plainPacket, if_neg hne, if_neg hne, hnum]

theorem groups_eq_iff {lib : Library} {leo : Leopard} {cfg : RsConfig} {s t s' t' : RsLoop}
    {answers : Answers} {frame packet : List UInt8} {effects effects' : List Effect}
    (haes : cfg.aes = true) (hgroup : s.curnumSend = t.curnumSend)
    (hpacket : encryptedPacket lib cfg answers s frame = some packet)
    (hpacket' : encryptedPacket lib cfg answers t frame = some packet)
    (hs : rsTap2net lib leo cfg answers s frame = some (s', effects))
    (ht : rsTap2net lib leo cfg answers t frame = some (t', effects')) :
    sent effects = sent effects' ↔
      ∀ p, packet.length + 2 ≤ p → 4 + (frame.take 1518).length ≤ p →
        p < originalCount * bufferBytes → s.buf p = t.buf p := by
  obtain ⟨tx, htx, hlength, hbehind, hsent⟩ := sent_of_encryptedPacket haes hpacket hs
  obtain ⟨tx', htx', hlength', hbehind', hsent'⟩ := sent_of_encryptedPacket haes hpacket' ht
  have hcnt : tx.cnt = packet.length := by rw [← htx, TxFrame.packet, length_slice]
  have hcnt' : tx'.cnt = packet.length := by rw [← htx', TxFrame.packet, length_slice]
  rw [TxFrame.packet, hcnt] at htx
  rw [TxFrame.packet, hcnt'] at htx'
  have hread {p : ℕ} (hp : packet.length + 2 ≤ p) :
      tx.buf p = tx'.buf p ↔ (4 + (frame.take 1518).length ≤ p → s.buf p = t.buf p) := by
    rw [hbehind p (by omega), hbehind' p (by omega)]
    rcases Nat.lt_or_ge p (4 + (frame.take 1518).length) with hlow | hhigh
    · -- The frame itself was read to this place of both buffers.
      obtain ⟨i, rfl⟩ : ∃ i, p = 4 + i := ⟨p - 4, by omega⟩
      have hmem : i < (frame.take 1518).length := by omega
      rw [store_of_mem hmem, store_of_mem hmem]
      exact iff_of_true rfl fun hhigh ↦ absurd hlow (Nat.not_lt.mpr hhigh)
    · rw [store_of_ge hhigh, store_of_ge hhigh]
      exact ⟨fun h _ ↦ h, fun h ↦ h hhigh⟩
  rw [hsent, hsent', ← hgroup, (List.map_injective_iff.mpr Datagram.bytes_injective).eq_iff,
    ← groupDatagrams_eq_sendBlocks, ← groupDatagrams_eq_sendBlocks, hcnt, hcnt',
    groupDatagrams_prefixLength_eq_iff (htx.trans htx'.symm)]
  constructor
  · intro h p hp hhigh hlt
    exact (hread hp).mp (h p hp hlt) hhigh
  · intro h p hp hlt
    exact (hread hp).mpr fun hhigh ↦ h p hp hhigh hlt

/-- The datagrams of the frame are the same if and only if, before it is read, the buffers agree on
what follows the packet and the frame in the ten blocks. -/
theorem datagrams_eq_iff {lib : Library} {leo : Leopard} {cfg : RsConfig}
    {nextkey : Option Bytes32} {start : Loop} {s t s' t' : RsLoop} {answers : Answers}
    {frame packet : List UInt8} {effects effects' : List Effect} (haes : cfg.aes = true)
    (hreach : (twins lib leo cfg nextkey start).Reachable (s, t))
    (hpacket : encryptedPacket lib cfg answers s frame = some packet)
    (hpacket' : encryptedPacket lib cfg answers t frame = some packet)
    (hs : rsTap2net lib leo cfg answers s frame = some (s', effects))
    (ht : rsTap2net lib leo cfg answers t frame = some (t', effects')) :
    sent effects = sent effects' ↔
      ∀ p, packet.length + 2 ≤ p → 4 + (frame.take 1518).length ≤ p →
        p < originalCount * bufferBytes → s.buf p = t.buf p :=
  groups_eq_iff haes (congrArg Control.curnumSend (control_eq_of_reachable haes hreach)) hpacket
    hpacket' hs ht

/-! ## Two processes with different frames before -/

def sampleRsConfig : RsConfig := ⟨sampleConfig, rfl⟩

def startSample : RsLoop := RsLoop.start sampleLibrary (some fun _ ↦ 5) sampleLoop

/-- A frame without payload, which is sent after a longer one. -/
def laterFrame : List UInt8 := List.replicate 14 0

noncomputable def sendSample (s : RsLoop) (frame : List UInt8) : Option (RsLoop × List Effect) :=
  rsTap2net sampleLibrary sampleLeopard sampleRsConfig noAnswers s frame

/-- A frame of 200 bytes reaches behind the block that is sent last. -/
def earlierFrames : List TwinInput :=
  [.frames noAnswers (List.replicate 200 1) (List.replicate 200 2)]

noncomputable def sampleTwins : Machine (RsLoop × RsLoop) TwinInput :=
  twins sampleLibrary sampleLeopard sampleRsConfig (some fun _ ↦ 5) sampleLoop

theorem sendSample_first {byte : UInt8} (hbyte : byte = 1 ∨ byte = 2) :
    ∃ first, sendSample startSample (List.replicate 200 byte) = some first ∧
      headerFlag sampleConfig first.1.keys ≠ some 2 ∧
      (∃ packet, packet.length = 64 ∧
        encryptedPacket sampleLibrary sampleRsConfig noAnswers first.1 laterFrame = some packet) ∧
      (∃ second, sendSample first.1 laterFrame = some second) ∧ first.1.buf 200 = byte := by
  have hruns : ((sendSample startSample (List.replicate 200 byte)).any fun first ↦
      headerFlag sampleConfig first.1.keys ≠ some 2 ∧
      (encryptedPacket sampleLibrary sampleRsConfig noAnswers first.1 laterFrame).any
        (fun packet ↦ packet.length = 64) ∧
      (sendSample first.1 laterFrame).isSome ∧ first.1.buf 200 = byte) = true := by
    rcases hbyte with rfl | rfl <;> decide +kernel
  obtain ⟨first, hfirst, h⟩ := (Option.any_eq_true _ _).mp hruns
  obtain ⟨hflag, hpacket, hsecond, hbuf⟩ := of_decide_eq_true h
  obtain ⟨packet, hpacket, hlength⟩ := (Option.any_eq_true _ _).mp hpacket
  exact ⟨first, hfirst, hflag, ⟨packet, of_decide_eq_true hlength, hpacket⟩,
    Option.isSome_iff_exists.mp hsecond, hbuf⟩

/-- After different frames both processes encrypt the next one to the same packet. -/
theorem exists_sampleTwins :
    ∃ s t packet, sampleTwins.Run earlierFrames (s, t) ∧ packet.length = 64 ∧
      encryptedPacket sampleLibrary sampleRsConfig noAnswers s laterFrame = some packet ∧
      encryptedPacket sampleLibrary sampleRsConfig noAnswers t laterFrame = some packet ∧
      (∃ s' effects, sendSample s laterFrame = some (s', effects)) ∧
      (∃ t' effects', sendSample t laterFrame = some (t', effects')) ∧ s.buf 200 ≠ t.buf 200 := by
  obtain ⟨first, hfirst, hflag, ⟨packet, hlength, hpacket⟩, ⟨second, hsecond⟩, hbuf⟩ :=
    sendSample_first (.inl rfl)
  obtain ⟨first', hfirst', _, ⟨packet', _, hpacket'⟩, ⟨second', hsecond'⟩, hbuf'⟩ :=
    sendSample_first (.inr rfl)
  have hrun : sampleTwins.Run earlierFrames (first.1, first'.1) :=
    .snoc (.start rfl) (.frames hfirst hfirst')
  have hsame : packet = packet' :=
    encryptedPacket_congr rfl (control_eq_of_reachable rfl ⟨_, hrun⟩) hflag hpacket hpacket'
  have hne : first.1.buf 200 ≠ first'.1.buf 200 := by
    rw [hbuf, hbuf']
    decide
  exact ⟨first.1, first'.1, packet, hrun, hlength, hpacket, hsame ▸ hpacket',
    ⟨second.1, second.2, hsecond⟩, ⟨second'.1, second'.2, hsecond'⟩, hne⟩

theorem datagrams_eq_iff_laterFrame :
    ∃ s t s' t' effects effects', s.buf 200 ≠ t.buf 200 ∧
      sendSample s laterFrame = some (s', effects) ∧ sendSample t laterFrame = some (t', effects') ∧
      (sent effects = sent effects' ↔ ∀ p, 66 ≤ p → 18 ≤ p → p < 1920 → s.buf p = t.buf p) := by
  obtain ⟨s, t, packet, hrun, hlength, hpacket, hpacket', ⟨s', effects, hs⟩,
    ⟨t', effects', ht⟩, hbuf⟩ := exists_sampleTwins
  have hiff := datagrams_eq_iff rfl ⟨_, hrun⟩ hpacket hpacket' hs ht
  rw [hlength] at hiff
  exact ⟨s, t, s', t', effects, effects', hbuf, hs, ht, hiff⟩

/-- The frames sent before were different, and the datagrams of the same packet are. -/
theorem not_datagrams_eq_laterFrame :
    ∃ s t packet s' t' effects effects', sampleTwins.Run earlierFrames (s, t) ∧
      encryptedPacket sampleLibrary sampleRsConfig noAnswers s laterFrame = some packet ∧
      encryptedPacket sampleLibrary sampleRsConfig noAnswers t laterFrame = some packet ∧
      sendSample s laterFrame = some (s', effects) ∧ sendSample t laterFrame = some (t', effects') ∧
      sent effects ≠ sent effects' := by
  obtain ⟨s, t, packet, hrun, hlength, hpacket, hpacket', ⟨s', effects, hs⟩,
    ⟨t', effects', ht⟩, hbuf⟩ := exists_sampleTwins
  have hgroup := congrArg Control.curnumSend (control_eq_of_reachable rfl ⟨_, hrun⟩)
  refine ⟨s, t, packet, s', t', effects, effects', hrun, hpacket, hpacket', hs, ht, ?_⟩
  rw [Ne, groups_eq_iff rfl hgroup hpacket hpacket' hs ht, hlength]
  exact fun hall ↦ hbuf (hall 200 (by decide) (by decide) (by decide))

end QNet.RsTunnel
