import QNet.Lib.Mailbox
import QNet.Tunnel.Plaintext
import QNet.Tunnel.Rotation

/-!
# Requested keys on their way to the peer

A packet with flag 1 asks the server for a key. It requests one from the keyworker and keeps it in
`curKeyToSend` until the next frame, whose packet takes it along with flag 2. There is room for one
key, and it is taken out before it is known whether the packet will be sent. `intact_iff` says
when the keys reach the peer: if and only if no second request comes before a frame, and no frame
is dropped for want of a key while one is waiting.
-/

namespace QNet.Tunnel

open Mem

/-- The process, with the keys that were requested and those that went out in packets. -/
structure Courier where
  loop : Loop
  requested : List Bytes32
  delivered : List Bytes32

/-- The key that a packet with flag 2 takes along. -/
def carriedKey (plain : Mem) : Option Bytes32 :=
  if plain 0 = 2 then some (readBytes32 plain 4) else none

/-- The key that goes out with a frame, if something is sent. -/
def carried (lib : Library) (cfg : Config) (s : Loop) (bytes : List UInt8)
    (effects : List Effect) : List Bytes32 :=
  if sent effects = [] then []
  else ((buildPacket lib cfg s bytes).bind fun built ↦ carriedKey built.1.buf).toList

namespace Courier

variable (lib : Library) (cfg : Config)

/-- One iteration. -/
def next (s : Courier) (input : Input) : Option Courier :=
  (react lib cfg s.loop input).map fun (loop, effects) ↦
    match input with
    | .frame _ bytes =>
        { s with loop := loop, delivered := s.delivered ++ carried lib cfg s.loop bytes effects }
    | .datagram answers .. =>
        { s with
          loop := loop
          requested :=
            s.requested ++ (if .requestKey ∈ effects then answers.request.toList else []) }

def start (nextkey : Option Bytes32) (s : Loop) : Courier :=
  ⟨(Process.start lib nextkey s).loop, [], []⟩

/-- All runs. -/
def machine (nextkey : Option Bytes32) (s : Loop) : Machine Courier Input :=
  .ofNext (start lib nextkey s) (next lib cfg)

def mailbox (s : Courier) : Mailbox Bytes32 :=
  ⟨s.requested, s.delivered, s.loop.keys.curKeyToSend⟩

/-- Every key that was requested went out in one packet, in this order, but for the one that is
still waiting. -/
def Intact (s : Courier) : Prop := s.mailbox.Kept

instance (s : Courier) : Decidable s.Intact := inferInstanceAs (Decidable s.mailbox.Kept)

end Courier

/-! ## Conditions on the inputs -/

/-- The flag of the packet that a datagram delivers. -/
def receivedFlag (lib : Library) (cfg : Config) (answers : Answers) (s : Loop) (source : Address)
    (datagram : List UInt8) : Option UInt8 :=
  if cfg.aes then
    (opening lib cfg (.loop answers s source) datagram).bind fun o ↦
      if o.opened.ok = false ∨ o.opened.plaintext.length = 0 then none else some (o.buf 32)
  else (acceptAddress cfg s source).map fun _ ↦ s.buf.store 0 (datagram.take 2000) 0

/-- There is no key to encrypt a frame with. -/
def FrameDropped (lib : Library) (cfg : Config) (answers : Answers) (k : Keys) : Prop :=
  cfg.aes = true ∧ ∃ keys, chooseKey lib.sha256 cfg.haslimit answers.choose k = some (keys, false)

/-- A request comes when no key is waiting, and a frame that should take a key along is not
dropped. -/
def Courier.InTurn (lib : Library) (cfg : Config) (s : Courier) : Input → Prop
  | .frame answers _ => s.loop.keys.curKeyToSend ≠ none →
      ¬ FrameDropped lib cfg answers s.loop.keys
  | .datagram answers source bytes =>
      receivedFlag lib cfg answers s.loop source bytes = some 1 → s.loop.keys.curKeyToSend = none

/-- Whether there is a key can be computed. -/
instance (lib : Library) (cfg : Config) (answers : Answers) (k : Keys) :
    Decidable (FrameDropped lib cfg answers k) :=
  decidable_of_iff
    (cfg.aes = true ∧ false ∈ (chooseKey lib.sha256 cfg.haslimit answers.choose k).map Prod.snd)
    (and_congr_right' (by simp [Option.mem_def]))

instance (lib : Library) (cfg : Config) (s : Courier) : DecidablePred (s.InTurn lib cfg)
  | .frame answers _ =>
      inferInstanceAs (Decidable (s.loop.keys.curKeyToSend ≠ none →
        ¬ FrameDropped lib cfg answers s.loop.keys))
  | .datagram answers source bytes =>
      inferInstanceAs (Decidable
        (receivedFlag lib cfg answers s.loop source bytes = some 1 →
          s.loop.keys.curKeyToSend = none))

/-! ## The key to send -/

section KeyToSend

variable {sha256 : Bytes32 → Bytes32} {haslimit : Bool} {nextkey : Option Bytes32} {k k' : Keys}

/-- What does not look at the key to send leaves it as it is. -/
theorem curKeyToSend_of_toSend {f : Keys → Option (Keys × Bool)} {done : Bool}
    (hf : ∀ key, f { k with curKeyToSend := key } =
      (f k).map fun next ↦ ({ next.1 with curKeyToSend := key }, next.2))
    (h : f k = some (k', done)) : k'.curKeyToSend = k.curKeyToSend := by
  have hself : f k = _ := hf k.curKeyToSend
  rw [h, Option.map_some] at hself
  exact congrArg (fun next ↦ next.1.curKeyToSend) (Option.some.inj hself)

theorem chooseKey_curKeyToSend {tosend : Bool}
    (h : chooseKey sha256 haslimit nextkey k = some (k', tosend)) :
    k'.curKeyToSend = k.curKeyToSend :=
  curKeyToSend_of_toSend (chooseKey_toSend sha256 haslimit nextkey k) h

theorem rotateKey_curKeyToSend {ppk : UInt16}
    (h : rotateKey sha256 haslimit ppk nextkey k = some k') :
    k'.curKeyToSend = k.curKeyToSend := by
  unfold rotateKey at h
  split at h
  · cases h
  · split_ifs at h
    · obtain ⟨next, hnext, rfl⟩ := Option.map_eq_some_iff.mp h
      exact curKeyToSend_of_toSend (renewKey_toSend sha256 haslimit nextkey k) hnext
    · obtain rfl := Option.some.inj h
      rfl

end KeyToSend

/-! ## Datagrams -/

section Datagrams

variable {lib : Library} {cfg : Config} {answers : Answers} {k : Keys}

/-- A key is requested, and its place is taken by the answer, if and only if the flag is 1. -/
structure Answered (answers : Answers) (k : Keys) (flag : Option UInt8)
    (result : Option (Loop × List Effect)) : Prop where
  lives : flag ≠ none → result ≠ none
  toSend : ∀ next ∈ result, next.1.keys.curKeyToSend =
    if flag = some 1 then answers.request else k.curKeyToSend
  requests : ∀ next ∈ result, Effect.requestKey ∈ next.2 ↔ flag = some 1

/-- A datagram that is dropped. -/
theorem answered_dropped {result : Option (Loop × List Effect)}
    (h : ∀ next, result = some next →
      next.2 = [] ∧ next.1.keys.curKeyToSend = k.curKeyToSend) :
    Answered answers k none result where
  lives hflag := absurd rfl hflag
  toSend next hnext := (h next hnext).2
  requests next hnext := by
    rw [(h next hnext).1]
    exact iff_of_false List.not_mem_nil nofun

/-- A packet with a header. -/
theorem answered_deliver {s : Loop} {cnt : ℕ} (hprog : cfg.prog ≠ .ctapudp)
    (hs : s.keys.curKeyToSend = k.curKeyToSend) :
    Answered answers k (some (s.buf 0)) (some (deliver lib cfg answers s cnt)) where
  lives _ := nofun
  toSend next hnext := by
    obtain rfl := Option.some.inj hnext
    rw [deliver_header lib answers s cnt hprog]
    dsimp only
    rw [writeFrame_keys, takeHeader_keys, hs]
    simp only [Option.some_inj]
  requests next hnext := by
    obtain rfl := Option.some.inj hnext
    rw [deliver_effects hprog, requestKey_mem_headerEffects, Option.some_inj]

/-- A packet that was decrypted. -/
theorem answered_openSealed {s : Loop} (hprog : cfg.prog = .rsctapudp) {key : Key} {n : ℕ}
    {o : Opening} (hkey : s.keys.curKey2 = some key) (ho : openUnder lib key s.buf s.buf n = o)
    (hn : 0 < o.cnt) (hs : s.keys.curKeyToSend = k.curKeyToSend) :
    Answered answers k
      (if o.opened.ok = false ∨ o.opened.plaintext.length = 0 then none else some (o.buf 32))
      (openSealed lib cfg answers s (n + 32)) := by
  have hheader : cfg.prog ≠ .ctapudp := by
    rw [hprog]
    decide
  have hfirst : o.buf.memmove 0 32 o.cnt 0 = o.buf 32 := by
    rw [memmove_apply, origin_of_lt hn]
  rw [openSealed_eq hkey ho, if_pos hprog, unshiftPacket_header hheader, ← hfirst]
  dsimp only
  by_cases hdropped : o.opened.ok = false ∨ o.opened.plaintext.length = 0
  · rw [if_pos hdropped, if_pos hdropped]
    refine answered_dropped fun next hnext ↦ ?_
    obtain rfl := Option.some.inj hnext
    exact ⟨rfl, hs⟩
  · rw [if_neg hdropped, if_neg hdropped]
    exact answered_deliver (s := { s with buf := o.buf.memmove 0 32 o.cnt }) hheader hs

/-- What comes of a datagram, by the flag of the packet it delivers. -/
theorem answered_net2tap (lib : Library) (answers : Answers) (hprog : cfg.prog = .rsctapudp)
    (s : Loop) (source : Address) (datagram : List UInt8) :
    Answered answers s.keys (receivedFlag lib cfg answers s source datagram)
      (net2tap lib cfg answers s source datagram) := by
  have hheader : cfg.prog ≠ .ctapudp := by
    rw [hprog]
    decide
  unfold receivedFlag
  cases haes : cfg.aes with
  | false =>
    have haccept : acceptAddress cfg { s with buf := s.buf.store 0 (datagram.take 2000) } source =
        acceptAddress cfg s source := rfl
    unfold net2tap
    dsimp only
    simp only [haes, Bool.false_eq_true, if_false, haccept]
    cases acceptAddress cfg s source with
    | none =>
      refine answered_dropped fun next hnext ↦ ?_
      obtain rfl := Option.some.inj hnext
      exact ⟨rfl, rfl⟩
    | some addr =>
      exact answered_deliver
        (s := { s with buf := s.buf.store 0 (datagram.take 2000), addr := addr }) hheader rfl
  | true =>
    rw [if_pos rfl]
    rcases net2tap_opening lib answers s source datagram haes with
      ⟨t, key, n, hkey, ht, hlong, hopening, hnet⟩ | ⟨hopening, hdropped⟩
    · have hpos : 0 < n := by omega
      rw [hopening, hnet]
      exact answered_openSealed hprog hkey rfl hpos ht
    · rw [hopening]
      exact answered_dropped hdropped

end Datagrams

/-! ## Frames -/

section Frames

variable {lib : Library} {cfg : Config} {answers : Answers}

/-- The key to send is taken out when the packet is built, and the packet carries it. -/
theorem buildPacket_server (lib : Library) (hprog : cfg.prog = .rsctapudp)
    (hserver : cfg.isserver = true) (s : Loop) (bytes : List UInt8) :
    ∃ built cnt, buildPacket lib cfg s bytes = some (built, cnt) ∧
      built.keys = { s.keys with curKeyToSend := none } ∧
      carriedKey built.buf = s.keys.curKeyToSend := by
  have hflag : headerFlag cfg s.keys =
      some (if s.keys.curKeyToSend.isSome then 2 else 0) := by
    simp [headerFlag, hserver]
  obtain ⟨⟨built, cnt⟩, hbuilt⟩ : ∃ built, buildPacket lib cfg s bytes = some built := by
    rw [buildPacket, hprog]
    dsimp only
    rw [hflag]
    exact ⟨_, rfl⟩
  have hheader : cfg.prog ≠ .ctapudp := by
    rw [hprog]
    decide
  obtain ⟨flag, hflag', hbuf, _, hkeys⟩ := buildPacket_spec hheader hbuilt
  refine ⟨built, cnt, hbuilt, ?_⟩
  obtain rfl := Option.some.inj (hflag.symm.trans hflag')
  rw [plainPacket, holds_append] at hbuf
  have hfirst := hbuf.1.apply (i := 0) (by simp)
  rw [hkeys]
  cases hslot : s.keys.curKeyToSend with
  | none =>
    rw [hslot] at hfirst
    have hzero : built.buf 0 = 0 := hfirst
    refine ⟨?_, if_neg (by rw [hzero]; decide)⟩
    rw [if_neg (by decide), ← hslot]
  | some key =>
    rw [hslot] at hfirst hbuf
    have htwo : built.buf 0 = 2 := hfirst
    refine ⟨rfl, ?_⟩
    rw [carriedKey, if_pos htwo]
    have hkey := hbuf.2
    simp only [Option.isSome_some, if_true, holds_append] at hkey
    exact congrArg some (readBytes32_of_holds hkey.1)

/-- The choice of the key shows whether the frame is dropped. -/
theorem frameDropped_iff {k keys : Keys} {tosend : Bool} (haes : cfg.aes = true)
    (h : chooseKey lib.sha256 cfg.haslimit answers.choose { k with curKeyToSend := none } =
      some (keys, tosend)) : FrameDropped lib cfg answers k ↔ tosend = false := by
  rw [chooseKey_toSend] at h
  obtain ⟨next, hnext, heq⟩ := Option.map_eq_some_iff.mp h
  obtain ⟨rfl, rfl⟩ := Prod.mk.inj heq
  constructor
  · rintro ⟨_, keys, hkeys⟩
    exact congrArg Prod.snd (Option.some.inj (hnext.symm.trans hkeys))
  · intro hdropped
    exact ⟨haes, next.1, by rw [hnext, ← hdropped]⟩

/-- A frame takes the key to send out, and along with it unless it is dropped. -/
theorem tap2net_carries (lib : Library) (answers : Answers) (hprog : cfg.prog = .rsctapudp)
    (hserver : cfg.isserver = true) (s : Loop) (bytes : List UInt8) :
    (FrameDropped lib cfg answers s.keys → tap2net lib cfg answers s bytes ≠ none) ∧
    ∀ next, tap2net lib cfg answers s bytes = some next → next.1.keys.curKeyToSend = none ∧
      (FrameDropped lib cfg answers s.keys → carried lib cfg s bytes next.2 = []) ∧
      (¬ FrameDropped lib cfg answers s.keys →
        carried lib cfg s bytes next.2 = s.keys.curKeyToSend.toList) := by
  obtain ⟨built, cnt, hbuilt, hkeys, hcarried⟩ := buildPacket_server lib hprog hserver s bytes
  have hsent (dest : Address) (packet : List UInt8) :
      carried lib cfg s bytes [.sendto dest packet] = s.keys.curKeyToSend.toList := by
    have hne : sent [.sendto dest packet] ≠ [] := List.cons_ne_nil _ _
    rw [carried, if_neg hne, hbuilt, Option.bind_some, hcarried]
  cases haes : cfg.aes with
  | false =>
    have hnever : ¬ FrameDropped lib cfg answers s.keys := fun h ↦ by
      cases haes.symm.trans h.1
    refine ⟨fun h ↦ absurd h hnever, fun next hnext ↦ ?_⟩
    simp only [tap2net, hbuilt, Option.bind_eq_bind, Option.bind_some, haes, Bool.false_eq_true,
      if_false] at hnext
    obtain rfl := Option.some.inj hnext
    refine ⟨?_, fun h ↦ absurd h hnever, fun _ ↦ hsent _ _⟩
    change built.keys.curKeyToSend = none
    rw [hkeys]
  | true =>
    constructor
    · rintro ⟨_, keys, hchoose⟩
      have hchosen := chooseKey_toSend lib.sha256 cfg.haslimit answers.choose s.keys none
      rw [hchoose, Option.map_some, ← hkeys] at hchosen
      simp only [tap2net, hbuilt, Option.bind_eq_bind, Option.bind_some, haes, if_true, hchosen]
      exact Option.some_ne_none _
    · rintro ⟨s', effects⟩ hnext
      obtain ⟨built', cnt', keys, tosend, hbuilt', hchoose, hcases⟩ := tap2net_cases haes hnext
      obtain ⟨rfl, rfl⟩ := Prod.mk.inj (Option.some.inj (hbuilt.symm.trans hbuilt'))
      have htoSend : keys.curKeyToSend = none := by
        rw [chooseKey_curKeyToSend hchoose, hkeys]
      rw [hkeys] at hchoose
      rw [frameDropped_iff haes hchoose]
      rcases hcases with ⟨rfl, hs', rfl⟩ | ⟨rfl, cur, _, hrotate, rfl⟩
      · exact ⟨hs' ▸ htoSend, fun _ ↦ rfl, fun h ↦ absurd rfl h⟩
      · refine ⟨?_, (fun h ↦ by cases h), fun _ ↦ hsent _ _⟩
        exact (rotateKey_curKeyToSend hrotate).trans htoSend

end Frames

/-! ## Runs -/

namespace Courier

variable {lib : Library} {cfg : Config} {s t : Courier}

theorem mailbox_datagram (hprog : cfg.prog = .rsctapudp) {answers : Answers} {source : Address}
    {bytes : List UInt8} (h : s.next lib cfg (.datagram answers source bytes) = some t) :
    (receivedFlag lib cfg answers s.loop source bytes = some 1 →
        t.mailbox = s.mailbox.replace answers.request) ∧
      (receivedFlag lib cfg answers s.loop source bytes ≠ some 1 → t.mailbox = s.mailbox) := by
  obtain ⟨⟨loop, effects⟩, hnext, rfl⟩ := Option.map_eq_some_iff.mp h
  have hanswered := answered_net2tap lib answers hprog s.loop source bytes
  have htoSend : loop.keys.curKeyToSend = _ := hanswered.toSend _ hnext
  have hrequests : .requestKey ∈ effects ↔ _ := hanswered.requests _ hnext
  constructor
  · intro hflag
    rw [if_pos hflag] at htoSend
    simp only [mailbox, Mailbox.replace, htoSend, if_pos (hrequests.mpr hflag)]
  · intro hflag
    rw [if_neg hflag] at htoSend
    simp only [mailbox, htoSend, if_neg (mt hrequests.mp hflag), List.append_nil]

theorem mailbox_frame (hprog : cfg.prog = .rsctapudp) (hserver : cfg.isserver = true)
    {answers : Answers} {bytes : List UInt8}
    (h : s.next lib cfg (.frame answers bytes) = some t) :
    (FrameDropped lib cfg answers s.loop.keys → t.mailbox = s.mailbox.drop) ∧
      (¬ FrameDropped lib cfg answers s.loop.keys → t.mailbox = s.mailbox.deliver) := by
  obtain ⟨⟨loop, effects⟩, hnext, rfl⟩ := Option.map_eq_some_iff.mp h
  obtain ⟨htoSend, hdropped, hcarried⟩ :=
    (tap2net_carries lib answers hprog hserver s.loop bytes).2 _ hnext
  dsimp only at htoSend hdropped hcarried
  constructor
  · intro hdrop
    simp only [mailbox, Mailbox.drop, htoSend, hdropped hdrop, List.append_nil]
  · intro hdrop
    simp only [mailbox, Mailbox.deliver, htoSend, hcarried hdrop]

/-- One step keeps the keys together if and only if it comes in its turn. -/
theorem Intact.next_iff (hprog : cfg.prog = .rsctapudp) (hserver : cfg.isserver = true)
    (hs : s.Intact) (input : Input) :
    (∀ t, s.next lib cfg input = some t → t.Intact) ↔ s.InTurn lib cfg input := by
  have hkept {t : Courier} : t.Intact ↔ t.mailbox.Kept := Iff.rfl
  cases input with
  | frame answers bytes =>
    by_cases hdropped : FrameDropped lib cfg answers s.loop.keys
    · obtain ⟨⟨loop, effects⟩, hnext⟩ := Option.ne_none_iff_exists'.mp
        ((tap2net_carries lib answers hprog hserver s.loop bytes).1 hdropped)
      obtain ⟨t, ht⟩ : ∃ t, s.next lib cfg (.frame answers bytes) = some t :=
        ⟨_, congrArg (Option.map _) hnext⟩
      have hdrop : t.Intact ↔ s.loop.keys.curKeyToSend = none := by
        rw [hkept, (mailbox_frame hprog hserver ht).1 hdropped]
        exact Mailbox.Kept.drop_iff hs
      constructor
      · intro hall hslot
        exact absurd (hdrop.mp (hall t ht)) hslot
      · intro hturn t' ht'
        obtain rfl := Option.some.inj (ht.symm.trans ht')
        exact hdrop.mpr (not_not.mp fun hslot ↦ hturn hslot hdropped)
    · refine iff_of_true (fun t ht ↦ ?_) fun _ ↦ hdropped
      rw [hkept, (mailbox_frame hprog hserver ht).2 hdropped]
      exact Mailbox.Kept.deliver hs
  | datagram answers source bytes =>
    by_cases hflag : receivedFlag lib cfg answers s.loop source bytes = some 1
    · have hanswered := answered_net2tap lib answers hprog s.loop source bytes
      obtain ⟨⟨loop, effects⟩, hnext⟩ := Option.ne_none_iff_exists'.mp
        (hanswered.lives (hflag ▸ nofun))
      obtain ⟨t, ht⟩ : ∃ t, s.next lib cfg (.datagram answers source bytes) = some t :=
        ⟨_, congrArg (Option.map _) hnext⟩
      have hreplace : t.Intact ↔ s.loop.keys.curKeyToSend = none := by
        rw [hkept, (mailbox_datagram hprog ht).1 hflag]
        exact Mailbox.Kept.replace_iff hs answers.request
      constructor
      · intro hall _
        exact hreplace.mp (hall t ht)
      · intro hturn t' ht'
        obtain rfl := Option.some.inj (ht.symm.trans ht')
        exact hreplace.mpr (hturn hflag)
    · refine iff_of_true (fun t ht ↦ ?_) fun h ↦ absurd h hflag
      rw [hkept, (mailbox_datagram hprog ht).2 hflag]
      exact hs

theorem intact_start (nextkey : Option Bytes32) (s₀ : Loop) :
    (start lib nextkey s₀).Intact := by
  cases nextkey <;> rfl

/-- Over every run of the server side of `rsctapudp`: every requested key goes out in one packet, in
the order of the requests, but for one that is still waiting, if and only if all requests and frames
come in their turn. -/
theorem intact_iff (lib : Library) (cfg : Config) (hprog : cfg.prog = .rsctapudp)
    (hserver : cfg.isserver = true) (nextkey : Option Bytes32) (s₀ : Loop) (inputs : List Input) :
    (∀ before s, before <+: inputs → (machine lib cfg nextkey s₀).Run before s → s.Intact) ↔
      ∀ before input s, before ++ [input] <+: inputs → (machine lib cfg nextkey s₀).Run before s →
        s.InTurn lib cfg input :=
  Machine.forall_states_iff (intact_start nextkey s₀)
    (fun _ input hs ↦ hs.next_iff hprog hserver input) inputs

/-- A request under the first key of the process, and the answer of the keyworker. -/
def requestInput (answer : Bytes32) : Input :=
  .datagram { noAnswers with request := some answer } ⟨0, 0⟩
    (List.ofFn (fun _ : Fin 32 ↦ 8) ++ checkedLibrary.encrypt (fun _ ↦ 8) (pheader 1 0 0))

/-- A request, the frame that takes its key along, and a second request. -/
def servedRequests : List Input :=
  [requestInput fun _ ↦ 5, .frame noAnswers [7], requestInput fun _ ↦ 6]

theorem intact_iff_servedRequests :
    ∃ s, (machine checkedLibrary sampleConfig (some fun _ ↦ 8) sampleLoop).Run servedRequests s ∧
      (s.requested = [fun _ ↦ 5, fun _ ↦ 6] ∧ s.delivered = [fun _ ↦ 5]) ∧ s.Intact := by
  obtain ⟨s, hrun, hkeys⟩ := Machine.exists_run_ofNext
    (start checkedLibrary (some fun _ ↦ 8) sampleLoop) (next checkedLibrary sampleConfig)
    servedRequests
    (P := fun s ↦ s.requested = [fun _ ↦ 5, fun _ ↦ 6] ∧ s.delivered = [fun _ ↦ 5])
    (by decide +kernel)
  refine ⟨s, hrun, hkeys, ?_⟩
  exact (intact_iff checkedLibrary sampleConfig rfl rfl (some fun _ ↦ 8) sampleLoop
    servedRequests).mpr (Machine.forall_steps_of_meets (by decide +kernel)) _ s
      (List.prefix_refl _) hrun

/-- Two requests with no frame between them. -/
theorem not_intact_twoRequests : ¬ ∀ before s,
    before <+: [requestInput fun _ ↦ 5, requestInput fun _ ↦ 6] →
    (machine checkedLibrary sampleConfig (some fun _ ↦ 8) sampleLoop).Run before s →
    s.Intact := by
  intro hall
  obtain ⟨s, hrun, hbroken⟩ := Machine.exists_run_ofNext
    (start checkedLibrary (some fun _ ↦ 8) sampleLoop) (next checkedLibrary sampleConfig)
    [requestInput fun _ ↦ 5, requestInput fun _ ↦ 6] (P := fun s ↦ ¬ s.Intact)
    (by decide +kernel)
  exact hbroken (hall _ s (List.prefix_refl _) hrun)

end Courier

end QNet.Tunnel
