import QNet.Tunnel.Packet

/-!
# Round trip of a packet

A frame is sent by one end of the tunnel and received by the other, and compression is off. With
flag 0 or 1 the frame arrives. With flag 2 the sender copies the payload from the start of the
buffer instead of from behind the header, and the receiver looks for the key 32 bytes behind its
place; `roundTrip_iff` says which coincidences make up for that.
-/

namespace QNet.Tunnel

open Mem

/-- A frame as it is read from the TAP device. -/
structure TapFrame where
  bytes : List UInt8
  length_pos : 0 < bytes.length
  length_le : bytes.length ≤ 1518

/-- The key under which the send branch encrypts, when it sends. -/
def packetKey (lib : Library) (cfg : Config) (answers : Answers) (s : Loop) : Option Key :=
  if cfg.aes then
    (chooseKey lib.sha256 cfg.haslimit answers.choose s.keys).bind fun next ↦ next.1.curKey1
  else none

/-- The packet of a frame before encryption. -/
def framePlain (lib : Library) (cfg : Config) (s : Loop) (flag : UInt8) (frame : List UInt8) :
    List UInt8 :=
  plainPacket flag s.curpakagenum (s.keys.curKeyToSend.getD fun _ ↦ 0) (s.buf.slice 0 4)
    (payload lib cfg frame)

/-! ## What is sent -/

/-- Whatever the send branch sends is a packet with a header. -/
theorem tap2net_sent {lib : Library} {cfg : Config} {answers : Answers} {s s' : Loop}
    {frame packet : List UInt8} {dest : Address} (hprog : cfg.prog ≠ .ctapudp)
    (h : tap2net lib cfg answers s frame = some (s', [.sendto dest packet])) :
    (packetKey lib cfg answers s).isSome = cfg.aes ∧
      ∃ flag, headerFlag cfg s.keys = some flag ∧
        packet =
          wirePacket lib (packetKey lib cfg answers s) (framePlain lib cfg s flag frame) := by
  cases haes : cfg.aes with
  | false =>
    obtain ⟨⟨built, cnt⟩, hbuilt, hsent⟩ := Option.bind_eq_some_iff.mp h
    obtain ⟨flag, hflag, hbuf, hcnt, _⟩ := buildPacket_spec hprog hbuilt
    simp only [haes, Bool.false_eq_true, if_false, sendPacket, Option.some.injEq, Prod.mk.injEq,
      List.cons.injEq, Effect.sendto.injEq, and_true] at hsent
    have hkey : packetKey lib cfg answers s = none := by rw [packetKey, haes]; rfl
    refine ⟨by rw [hkey]; rfl, flag, hflag, ?_⟩
    rw [← hsent.2.2, hkey]
    exact slice_of_holds hbuf hcnt.symm
  | true =>
    obtain ⟨built, cnt, keys, tosend, hbuilt, hchoose, hcases⟩ := tap2net_cases haes h
    obtain ⟨flag, hflag, hbuf, hcnt, hkeys⟩ := buildPacket_spec hprog hbuilt
    rcases hcases with ⟨_, _, hnothing⟩ | ⟨rfl, cur, hcur, _, hpacket⟩
    · cases hnothing
    · have hkey : packetKey lib cfg answers s = some cur := by
        have hchosen : (chooseKey lib.sha256 cfg.haslimit answers.choose built.keys).bind
            (fun next ↦ next.1.curKey1) = some cur := by
          rw [hchoose]
          exact hcur
        rw [packetKey, haes, if_pos rfl, ← hchosen, hkeys]
        split_ifs
        · rw [chooseKey_toSend lib.sha256 cfg.haslimit answers.choose s.keys none]
          cases chooseKey lib.sha256 cfg.haslimit answers.choose s.keys <;> rfl
        · rfl
      simp only [List.cons.injEq, Effect.sendto.injEq, and_true] at hpacket
      refine ⟨by rw [hkey]; rfl, flag, hflag, ?_⟩
      rw [hkey, hpacket.2, hcnt]
      exact sealPacket_spec hprog cur hbuf

/-! ## What arrives -/

theorem headerEffects_append_write_inj {flag : UInt8} {key key' : Bytes32}
    {frame frame' : List UInt8} :
    headerEffects flag key ++ [.write frame] = headerEffects flag key' ++ [.write frame'] ↔
      (flag = 2 → key = key') ∧ frame = frame' := by
  unfold headerEffects
  by_cases hone : flag = 1
  · simp [hone]
  · by_cases htwo : flag = 2
    · simp [htwo]
    · simp [hone, htwo]

/-- A packet without a key behind the header brings its payload. -/
theorem receivedPayload_of_ne {flag pnum : UInt8} {key : Bytes32} {stale payload : List UInt8}
    {m : Mem} (hflag : flag ≠ 2) (hm : m.Holds 0 (plainPacket flag pnum key stale payload)) :
    receivedPayload flag m payload.length = payload := by
  rw [plainPacket, if_neg hflag, holds_append] at hm
  rw [receivedPayload, if_neg hflag]
  exact hm.2

/-- Byte `j` of the payload in a packet with flag 2. -/
def shiftedByte (stale frame : ℕ → UInt8) (j : ℕ) : UInt8 :=
  if j < 4 then stale j else frame (j - 4)

theorem shiftedByte_of_periodic {stale frame : ℕ → UInt8} {j : ℕ}
    (h : ∀ i < j, frame i = stale (i % 4)) : shiftedByte stale frame j = stale (j % 4) := by
  unfold shiftedByte
  split_ifs with hj
  · rw [Nat.mod_eq_of_lt hj]
  · rw [h (j - 4) (by omega)]
    congr 1
    omega

/-- The key and the payload that are taken from a packet with flag 2 are the right ones if and
only if the frame repeats the four stale bytes and so does the key, as far as the frame covers
it. -/
theorem key_and_payload_iff (n : ℕ) (frame stale : ℕ → UInt8) (behind key : Bytes32) :
    ((∀ i : Fin 32, (if i < n then shiftedByte stale frame i else behind i) = key i) ∧
        ∀ i < n, (if i + 4 < n then shiftedByte stale frame i
          else if h : i < 32 then key ⟨i, h⟩ else shiftedByte stale frame (i - 32)) = frame i) ↔
      (∀ i < n, frame i = stale (i % 4)) ∧
        ∀ i : Fin 32, key i = if i < n then stale (i % 4) else behind i := by
  constructor
  · rintro ⟨hkey, hframe⟩
    have hperiodic : ∀ i < n, frame i = stale (i % 4) := by
      intro i
      induction i using Nat.strong_induction_on with
      | h i ih =>
        intro hi
        have hbefore : ∀ j < i, frame j = stale (j % 4) := fun j hj ↦ ih j hj (hj.trans hi)
        rw [← hframe i hi]
        split_ifs with hinside hcovered
        · exact shiftedByte_of_periodic hbefore
        · rw [← hkey ⟨i, hcovered⟩, if_pos hi]
          exact shiftedByte_of_periodic hbefore
        · rw [shiftedByte_of_periodic fun j hj ↦ hbefore j (by omega)]
          congr 1
          omega
    refine ⟨hperiodic, fun i ↦ ?_⟩
    rw [← hkey i]
    split_ifs with hcovered
    · exact shiftedByte_of_periodic fun j hj ↦ hperiodic j (hj.trans hcovered)
    · rfl
  · rintro ⟨hperiodic, hkey⟩
    refine ⟨fun i ↦ ?_, fun i hi ↦ ?_⟩
    · rw [hkey i]
      split_ifs with hcovered
      · exact shiftedByte_of_periodic fun j hj ↦ hperiodic j (hj.trans hcovered)
      · rfl
    · rw [hperiodic i hi]
      split_ifs with hinside hcovered
      · exact shiftedByte_of_periodic fun j hj ↦ hperiodic j (hj.trans hi)
      · rw [hkey ⟨i, hcovered⟩, if_pos hi]
      · rw [shiftedByte_of_periodic fun j hj ↦ hperiodic j (by omega)]
        congr 1
        omega

/-- The byte of the receiver's memory at place `i` of a key that is read from behind the packet:
what lay in the buffer, or, when the packet is encrypted, the end of its ciphertext. -/
def byteBehind (r : Loop) (encrypted : Bool) (packet : List UInt8) (key : Bytes32) (i : Fin 32) :
    UInt8 :=
  if encrypted then packet.getD (68 + i) (key i) else r.buf (36 + i)

/-- The frame consists of repetitions of the four bytes that lay before it in the sender's buffer,
and so does the key; what the frame is too short for lies behind the packet at the receiver. -/
def Coincides (s r : Loop) (encrypted : Bool) (packet frame : List UInt8) (key : Bytes32) : Prop :=
  (∀ i (h : i < frame.length), frame[i] = s.buf (i % 4)) ∧
    ∀ i : Fin 32, key i =
      if i < frame.length then s.buf (i % 4) else byteBehind r encrypted packet key i

section KeyPacket

variable {pnum : UInt8} {key : Bytes32} {stale payload : List UInt8} {m : Mem}

theorem shifted_of_holds (hstale : stale.length = 4)
    (hm : m.Holds 0 (plainPacket 2 pnum key stale payload)) {i : ℕ} (hi : i < payload.length) :
    m (36 + i) = shiftedByte (stale.getD · 0) (payload.getD · 0) i := by
  rw [plainPacket, if_pos rfl, holds_append, holds_append, length_pheader, List.length_ofFn] at hm
  have hbyte := hm.2.2.apply (i := i) (by simp; omega)
  rw [Nat.zero_add] at hbyte
  change m (36 + i) = _ at hbyte
  simp only [hbyte, List.getElem_take, List.getElem_append, shiftedByte, hstale]
  split_ifs with hlt
  · exact (List.getD_eq_getElem stale 0 (by omega)).symm
  · exact (List.getD_eq_getElem payload 0 (by omega)).symm

theorem key_of_holds (hm : m.Holds 0 (plainPacket 2 pnum key stale payload)) (i : Fin 32) :
    m (4 + i) = key i := by
  rw [plainPacket, if_pos rfl, holds_append, holds_append, length_pheader] at hm
  have hbyte := hm.2.1.apply (i := i) (by simp)
  rwa [List.getElem_ofFn] at hbyte

theorem behind_of_arrivedBuf (lib : Library) (r : Loop) (sender : Option Key)
    (i : Fin 32) (hi : payload.length ≤ i) :
    arrivedBuf lib r.buf sender (plainPacket 2 pnum key stale payload) (36 + i) =
      byteBehind r sender.isSome (wirePacket lib sender (plainPacket 2 pnum key stale payload))
        key i := by
  have hlength : (plainPacket 2 pnum key stale payload).length = payload.length + 32 + 4 := by
    rw [length_plainPacket, if_pos rfl]
  cases sender with
  | none => exact store_of_ge (by omega)
  | some sender =>
    have hall := length_wirePacket_some lib sender (plainPacket 2 pnum key stale payload)
    simp only [arrivedBuf, byteBehind, Option.isSome_some, if_true]
    rcases Nat.lt_or_ge (68 + i.val)
      (wirePacket lib (some sender) (plainPacket 2 pnum key stale payload)).length with hlt | hge
    · rw [openedBuf_of_lt r.buf (by omega) (by omega), List.getD_eq_getElem _ _ hlt]
      congr 1
      omega
    · rw [openedBuf_of_ge r.buf (by omega) (by omega) (by omega), List.getD_eq_default _ _ hge]
      have hkey := key_of_holds
        (holds_store (fun _ ↦ 0) 0 (plainPacket 2 pnum key stale payload)) i
      have hbyte : store (fun _ ↦ 0) 0 (plainPacket 2 pnum key stale payload) (0 + (4 + i)) = _ :=
        store_of_mem (by omega)
      rw [Nat.zero_add, hkey] at hbyte
      rw [hbyte]
      congr 1
      omega

end KeyPacket

/-- What the receiver makes of a packet with flag 2, in terms of the bytes in its buffer. -/
theorem receivedPayload_eq_iff {m : Mem} {frame : List UInt8} :
    receivedPayload 2 m frame.length = frame ↔
      ∀ i (h : i < frame.length),
        (if i + 4 < frame.length then m (36 + i) else m (4 + i)) = frame[i] := by
  have hbyte (i : ℕ) : (m.memmove 0 32 frame.length) (4 + i) =
      if i + 4 < frame.length then m (36 + i) else m (4 + i) := by
    split_ifs with hi
    · have hmoved : m.memmove 0 32 frame.length (0 + (4 + i)) = m (32 + (4 + i)) :=
        memmove_of_mem (by omega)
      rwa [Nat.zero_add, ← Nat.add_assoc] at hmoved
    · exact memmove_of_ge (by omega)
  rw [receivedPayload, if_pos rfl, slice_eq_iff]
  simp only [true_and, hbyte]

/-- A packet with flag 2 brings its key and its payload exactly in case of the coincidence. -/
theorem key_and_payload_of_arrived {lib : Library} {s r : Loop} {sender : Option Key}
    {pnum : UInt8} {key : Bytes32} {frame : List UInt8} {m : Mem}
    (hm : m = arrivedBuf lib r.buf sender (plainPacket 2 pnum key (s.buf.slice 0 4) frame)) :
    (readBytes32 m 36 = key ∧ receivedPayload 2 m frame.length = frame) ↔
      Coincides s r sender.isSome
        (wirePacket lib sender (plainPacket 2 pnum key (s.buf.slice 0 4) frame)) frame key := by
  have hholds : m.Holds 0 (plainPacket 2 pnum key (s.buf.slice 0 4) frame) :=
    hm ▸ arrivedBuf_holds lib r.buf sender _
  have hshifted {i : ℕ} (hi : i < frame.length) :
      m (36 + i) = shiftedByte ((s.buf.slice 0 4).getD · 0) (frame.getD · 0) i :=
    shifted_of_holds (by simp) hholds hi
  have hkeyByte (i : Fin 32) : m (36 + i) =
      if i < frame.length then shiftedByte ((s.buf.slice 0 4).getD · 0) (frame.getD · 0) i
      else byteBehind r sender.isSome
        (wirePacket lib sender (plainPacket 2 pnum key (s.buf.slice 0 4) frame)) key i := by
    split_ifs with hi
    · exact hshifted hi
    · rw [hm]
      exact behind_of_arrivedBuf lib r sender i (Nat.not_lt.mp hi)
  have hframeByte {i : ℕ} (hi : i < frame.length) :
      (if i + 4 < frame.length then m (36 + i) else m (4 + i)) =
        if i + 4 < frame.length then shiftedByte ((s.buf.slice 0 4).getD · 0) (frame.getD · 0) i
        else if h : i < 32 then key ⟨i, h⟩
        else shiftedByte ((s.buf.slice 0 4).getD · 0) (frame.getD · 0) (i - 32) := by
    split_ifs with hinside hcovered
    · exact hshifted hi
    · exact key_of_holds hholds ⟨i, hcovered⟩
    · rw [← hshifted (by omega)]
      congr 1
      omega
  have hstale (i : ℕ) : (s.buf.slice 0 4).getD (i % 4) 0 = s.buf (i % 4) := by
    rw [List.getD_eq_getElem _ _ (by rw [length_slice]; omega), getElem_slice, Nat.zero_add]
  have hget {i : ℕ} (hi : i < frame.length) : frame[i] = frame.getD i 0 :=
    (List.getD_eq_getElem frame 0 hi).symm
  rw [receivedPayload_eq_iff, funext_iff]
  unfold Coincides
  simp only [readBytes32, hkeyByte]
  have hiff := key_and_payload_iff frame.length (frame.getD · 0) ((s.buf.slice 0 4).getD · 0)
    (byteBehind r sender.isSome
      (wirePacket lib sender (plainPacket 2 pnum key (s.buf.slice 0 4) frame)) key) key
  simp only [hstale] at hiff
  refine Iff.trans (and_congr Iff.rfl (forall₂_congr fun i hi ↦ ?_))
    (hiff.trans (and_congr (forall₂_congr fun i hi ↦ ?_) Iff.rfl))
  · rw [hframeByte hi, hget hi]
  · rw [hget hi]

/-- A frame sent with any flag, in any state of the two ends that share the key of the packet,
arrives together with the key that was sent, and with nothing else, if and only if the flag is not
2 or the bytes left over in both buffers happen to stand for those the program misses. -/
theorem roundTrip_iff {lib : Library} {cfg peer : Config} {answers answers' : Answers}
    {s s' r : Loop} (frame : TapFrame) {packet : List UInt8} {dest source addr : Address}
    {flag : UInt8} (hprog : cfg.prog ≠ .ctapudp) (hpeer : peer.prog ≠ .ctapudp)
    (haes : peer.aes = cfg.aes) (hgzip : cfg.gzip = false) (hpeerzip : peer.gzip = false)
    (hsend : tap2net lib cfg answers s frame.bytes = some (s', [.sendto dest packet]))
    (hflag : headerFlag cfg s.keys = some flag)
    (hshared : SharedKey (packetKey lib cfg answers s) r)
    (hsource : acceptAddress peer r source = some addr) :
    (net2tap lib peer answers' r source packet).map Prod.snd =
        some (headerEffects flag (s.keys.curKeyToSend.getD fun _ ↦ 0) ++ [.write frame.bytes]) ↔
      flag ≠ 2 ∨ Coincides s r cfg.aes packet frame.bytes (s.keys.curKeyToSend.getD fun _ ↦ 0) := by
  obtain ⟨hsome, flag', hflag', rfl⟩ := tap2net_sent hprog hsend
  obtain rfl : flag = flag' := Option.some.inj (hflag.symm.trans hflag')
  have hpayload : payload lib cfg frame.bytes = frame.bytes := by
    rw [payload, hgzip]
    exact List.take_of_length_le frame.length_le
  have hplain : framePlain lib cfg s flag frame.bytes = plainPacket flag s.curpakagenum
      (s.keys.curKeyToSend.getD fun _ ↦ 0) (s.buf.slice 0 4) frame.bytes := by
    rw [framePlain, hpayload]
  rw [hplain]
  generalize packetKey lib cfg answers s = sender at hshared hsome ⊢
  generalize (s.keys.curKeyToSend.getD fun _ ↦ 0) = key
  have hlength := length_plainPacket flag s.curpakagenum key (s.buf.slice 0 4) frame.bytes
  have hcnt := frame.length_le
  have hne : plainPacket flag s.curpakagenum key (s.buf.slice 0 4) frame.bytes ≠ [] :=
    List.ne_nil_of_length_pos (by omega)
  obtain ⟨cnt, hreceived⟩ := net2tap_wirePacket lib answers' hpeer (hsome.trans haes.symm)
    hshared hsource (fun _ ↦ hne) (by rw [hlength]; split_ifs <;> omega)
  have hholds := arrivedBuf_holds lib r.buf sender
    (plainPacket flag s.curpakagenum key (s.buf.slice 0 4) frame.bytes)
  obtain ⟨hm0, hm2⟩ := pheader_of_holds hholds (by omega)
  rw [hreceived, Option.map_some, Option.some_inj, deliver_effects hpeer]
  dsimp only
  rw [hm0, hm2, hpeerzip, if_neg Bool.false_ne_true, headerEffects_append_write_inj]
  by_cases htwo : flag = 2
  · subst htwo
    simp only [true_imp_iff, ne_eq, not_true_eq_false, false_or, ← hsome]
    exact key_and_payload_of_arrived rfl
  · simp only [htwo, false_imp_iff, ne_eq, not_false_eq_true, true_or, true_and, iff_true]
    exact receivedPayload_of_ne htwo hholds

/-- A frame of one byte. -/
def oneByte : TapFrame := ⟨[1], by decide, by decide⟩

/-- Without encryption the datagram is the header and the frame. -/
def plainConfig : Config := { sampleConfig with aes := false }

/-- The encrypted datagram of that frame: the key id, header and frame, and the padding. -/
def oneBytePacket : List UInt8 :=
  List.replicate 32 7 ++ [0, 0, 1, 0, 1] ++ List.replicate 11 11

theorem roundTrip_oneByte :
    (net2tap sampleLibrary sampleConfig noAnswers sampleLoop ⟨0, 0⟩ oneBytePacket).map Prod.snd =
      some [.write [1]] := by
  have hsend : (tap2net sampleLibrary sampleConfig noAnswers sampleLoop oneByte.bytes).map
      Prod.snd = some [.sendto ⟨0, 0⟩ oneBytePacket] := by decide
  obtain ⟨⟨s', _⟩, hsent, rfl⟩ := Option.map_eq_some_iff.mp hsend
  have hshared :
      SharedKey (packetKey sampleLibrary sampleConfig noAnswers sampleLoop) sampleLoop := by
    intro key hkey
    cases hkey
    exact ⟨sampleKey, rfl, rfl, rfl⟩
  exact (roundTrip_iff oneByte (by decide) (by decide) rfl rfl rfl hsent rfl hshared rfl).mpr
    (.inl (by decide))

/-- A key waits for the next packet. -/
def keyLoop : Loop :=
  { sampleLoop with keys := { sampleLoop.keys with curKeyToSend := some fun _ ↦ 9 } }

def keyPacket : List UInt8 := [2, 0, 1, 0] ++ List.replicate 32 9 ++ [0]

/-- The peer does not register this key or does not write this frame; in fact it does neither. -/
theorem not_roundTrip_keyPacket :
    (tap2net sampleLibrary plainConfig noAnswers keyLoop oneByte.bytes).map Prod.snd =
        some [.sendto ⟨0, 0⟩ keyPacket] ∧
      headerFlag plainConfig keyLoop.keys = some 2 ∧
      (net2tap sampleLibrary plainConfig noAnswers sampleLoop ⟨0, 0⟩ keyPacket).map Prod.snd ≠
        some [.putKey fun _ ↦ 9, .write oneByte.bytes] := by
  decide

end QNet.Tunnel
