import QNet.Tunnel.Lookup

/-!
# Discarded datagrams

A datagram which is not delivered should change nothing, so that forged ones can neither redirect
the tunnel nor flush the keys that were loaded. The loop does not wait until it knows a datagram
to be good: without a current key it takes the first one of `q2` before it looks at the datagram,
with `autoaddress` it takes over the source of every datagram, and the search for a key id passes
over all keys in front of it, also when no key has this id. What is left alone by a discarded
datagram, and by a stream of them, is said exactly by `discarded_iff`.
-/

namespace QNet.Tunnel

open Mem

/-- The peer and the receiver's keys, with the keys queued for sending, are as they were. -/
structure Undisturbed (s s' : Loop) : Prop where
  addr : s'.addr = s.addr
  curKey2 : s'.keys.curKey2 = s.keys.curKey2
  q1 : s'.keys.q1 = s.keys.q1
  q2 : s'.keys.q2 = s.keys.q2

theorem Undisturbed.trans {s s' s'' : Loop} (h : Undisturbed s s') (h' : Undisturbed s' s'') :
    Undisturbed s s'' where
  addr := h'.addr.trans h.addr
  curKey2 := h'.curKey2.trans h.curKey2
  q1 := h'.q1.trans h.q1
  q2 := h'.q2.trans h.q2

/-- Nothing is written to the TAP device. -/
def Discarded (effects : List Effect) : Prop := ∀ frame, Effect.write frame ∉ effects

/-- When a discarded datagram changes nothing: the receiver has a key or nothing is queued, the
source is the peer where it would be taken over, and the id is that of the current key where it is
looked for, or there is no other key to pass to. -/
def Harmless (cfg : Config) (answers : Answers) (s : Loop) (source : Address)
    (datagram : List UInt8) : Prop :=
  match s.keys.curKey2 with
  | none => s.keys.q2.items = []
  | some cur =>
      (cfg.autoaddress = true → source = s.addr) ∧
        ((acceptAddress cfg s source).isSome → 32 + 16 ≤ (datagram.take 2000).length →
          cur.sha ≠ datagramId datagram → s.keys.q2.items = [] ∧ answers.bySha = none)

/-! ## The search for a key -/

theorem findKey_found {nextkey : Option Bytes32} {sha : Bytes32} {fuel : ℕ} {k k' : Keys}
    {found : Bool} (h : findKey nextkey sha fuel k = some (k', found)) :
    (found = true → ∃ cur, k'.curKey2 = some cur ∧ cur.sha = sha) ∧
      (found = false → nextkey = none) := by
  induction fuel generalizing k with
  | zero => cases h
  | succ fuel ih =>
    rw [findKey] at h
    split at h
    · cases h
    · rename_i cur hcur
      split_ifs at h with hsha
      · cases h
        exact ⟨fun _ ↦ ⟨cur, hcur, hsha⟩, fun hfound ↦ absurd hfound (by decide)⟩
      · split at h
        · exact ih h
        · split at h
          · rename_i hasked
            cases h
            exact ⟨fun hfound ↦ absurd hfound (by decide), fun _ ↦ Option.map_eq_none_iff.mp hasked⟩
          · split at h
            · exact ih h
            · exact ih h

/-- The search does not leave more keys in `q2` than there were. -/
theorem findKey_length {nextkey : Option Bytes32} {sha : Bytes32} {fuel : ℕ} {k k' : Keys}
    {found : Bool} (h : findKey nextkey sha fuel k = some (k', found)) :
    k'.q2.items.length ≤ k.q2.items.length := by
  refine findKey_invariant (P := fun next ↦ next.q2.items.length ≤ k.q2.items.length)
    ?_ ?_ ?_ le_rfl h
  · intro next key q2 hq2 hle
    obtain ⟨hitems, _⟩ := BoundedQueue.dequeue_eq_some_iff.mp hq2
    rw [hitems, List.length_cons] at hle
    exact Nat.le_of_succ_le hle
  · intro _ asked _ _ hempty _
    rw [hempty]
    exact Nat.zero_le _
  · intro next asked key q2 hempty hasked hq2 _
    -- the key that was asked for is the only one
    obtain ⟨buff, _, rfl⟩ := Option.map_eq_some_iff.mp hasked
    have hloaded : (next.load (constructKeySha buff sha)).q2.items.length ≤ 1 := by
      rw [Keys.load, BoundedQueue.items_enqueue, hempty]
      split <;> simp
    obtain ⟨hitems, _⟩ := BoundedQueue.dequeue_eq_some_iff.mp hq2
    rw [hitems, List.length_cons] at hloaded
    dsimp only
    omega

/-- The search leaves the keys alone exactly when the current key has the id, or when there is
neither a queued key to pass to nor an answer of the keyworker. -/
theorem findKey_kept_iff {nextkey : Option Bytes32} {sha : Bytes32} {fuel : ℕ} {k k' : Keys}
    {cur : Key} {found : Bool} (hcur : k.curKey2 = some cur)
    (h : findKey nextkey sha fuel k = some (k', found)) :
    (k'.curKey2 = k.curKey2 ∧ k'.q1 = k.q1 ∧ k'.q2 = k.q2) ↔
      (cur.sha ≠ sha → k.q2.items = [] ∧ nextkey = none) := by
  by_cases hsha : cur.sha = sha
  · cases fuel with
    | zero => cases h
    | succ fuel =>
      rw [findKey_of_eq hcur hsha] at h
      cases h
      exact iff_of_true ⟨rfl, rfl, rfl⟩ fun hne ↦ absurd hsha hne
  · cases fuel with
    | zero => cases h
    | succ fuel =>
      constructor
      · rintro ⟨hcurKept, _, hq2Kept⟩ _
        have hfound : found = false := by
          by_contra htrue
          obtain ⟨last, hlast, hlastSha⟩ := (findKey_found h).1 (eq_true_of_ne_false htrue)
          rw [hcurKept, hcur] at hlast
          cases hlast
          exact hsha hlastSha
        refine ⟨?_, (findKey_found h).2 hfound⟩
        by_contra hitems
        rw [findKey] at h
        simp only [hcur, if_neg hsha] at h
        cases hq2 : k.q2.dequeue with
        | none => exact hitems (BoundedQueue.dequeue_eq_none_iff.mp hq2)
        | some next =>
          rw [hq2] at h
          have hlength : k'.q2.items.length ≤ next.2.items.length := findKey_length h
          rw [hq2Kept, (BoundedQueue.dequeue_eq_some_iff.mp hq2).1, List.length_cons] at hlength
          omega
      · intro hkept
        obtain ⟨hitems, rfl⟩ := hkept hsha
        have hq2 := BoundedQueue.dequeue_eq_none_iff.mpr hitems
        rw [findKey] at h
        simp only [hcur, if_neg hsha, hq2, getKeyBySha, Option.map_none] at h
        cases h
        exact ⟨rfl, rfl, rfl⟩

/-! ## What is not delivered -/

/-- A packet that is not or no longer encrypted is always delivered. -/
theorem deliver_writes (lib : Library) (cfg : Config) (answers : Answers) (s : Loop) (cnt : ℕ) :
    ∃ frame, Effect.write frame ∈ (deliver lib cfg answers s cnt).2 := by
  have hwrite (off : ℕ) (t : Loop) (n : ℕ) :
      ∃ frame, Effect.write frame ∈ (writeFrame lib cfg off t n).2 := by
    rw [writeFrame_effects]
    exact ⟨_, List.mem_singleton_self _⟩
  unfold deliver
  split
  · exact hwrite 0 s cnt
  · obtain ⟨frame, hframe⟩ := hwrite 4 (takeHeader answers s).1 (takeHeader answers s).2.2
    exact ⟨frame, List.mem_append_right _ hframe⟩

/-- A packet that cannot be decrypted changes only the buffer. -/
theorem openSealed_discarded {lib : Library} {cfg : Config} {answers : Answers} {s s' : Loop}
    {cnt : ℕ} {effects : List Effect} (hdiscarded : Discarded effects)
    (h : openSealed lib cfg answers s cnt = some (s', effects)) :
    s'.addr = s.addr ∧ s'.keys = s.keys := by
  rcases openSealed_cases h with ⟨_, rfl, _⟩ | ⟨_, _, hdelivered⟩
  · exact ⟨rfl, rfl⟩
  · obtain ⟨frame, hframe⟩ := deliver_writes lib cfg answers _ _
    rw [hdelivered] at hframe
    exact absurd hframe (hdiscarded frame)

/-- How far a datagram comes that is discarded although the receiver has a key. -/
theorem net2tap_discarded {lib : Library} {cfg : Config} {answers : Answers} {s s' : Loop}
    {source : Address} {datagram : List UInt8} {effects : List Effect} {keys : Keys}
    (haes : cfg.aes = true) (hfirst : firstKey s.keys = some keys)
    (h : net2tap lib cfg answers s source datagram = some (s', effects))
    (hdiscarded : Discarded effects) :
    acceptAddress cfg s source = none ∧ s'.addr = s.addr ∧ s'.keys = keys ∨
      acceptAddress cfg s source = some s'.addr ∧
        ((datagram.take 2000).length < 32 + 16 ∧ s'.keys = keys ∨
          32 + 16 ≤ (datagram.take 2000).length ∧
            ∃ ok, findKey answers.bySha (datagramId datagram) (keys.q2.items.length + 3) keys =
              some (s'.keys, ok)) := by
  have haddr : acceptAddress cfg { s with buf := s.buf.store 0 (datagram.take 2000) } source =
      acceptAddress cfg s source := rfl
  unfold net2tap at h
  simp only [haes, if_true, hfirst, haddr] at h
  cases haccept : acceptAddress cfg s source with
  | none =>
    simp only [haccept] at h
    cases h
    exact .inl ⟨rfl, rfl, rfl⟩
  | some addr =>
    simp only [haccept] at h
    split_ifs at h with hshort
    · cases h
      exact .inr ⟨rfl, .inl ⟨hshort, rfl⟩⟩
    · have hlong : 32 + 16 ≤ (datagram.take 2000).length := Nat.le_of_not_lt hshort
      obtain ⟨⟨found, ok⟩, hfound, h⟩ := Option.bind_eq_some_iff.mp h
      rw [readBytes32_received s.buf (by omega)] at hfound
      have hs' : s'.addr = addr ∧ s'.keys = found := by
        cases ok with
        | false =>
          cases h
          exact ⟨rfl, rfl⟩
        | true => exact openSealed_discarded hdiscarded h
      rw [hs'.1, hs'.2]
      exact .inr ⟨rfl, .inr ⟨hlong, ok, hfound⟩⟩

/-- Without AES a datagram is only discarded because of its source. -/
theorem net2tap_discarded_plain {lib : Library} {cfg : Config} {answers : Answers} {s s' : Loop}
    {source : Address} {datagram : List UInt8} {effects : List Effect} (haes : cfg.aes = false)
    (h : net2tap lib cfg answers s source datagram = some (s', effects))
    (hdiscarded : Discarded effects) : Undisturbed s s' := by
  unfold net2tap at h
  simp only [haes] at h
  cases haddr : acceptAddress cfg { s with buf := s.buf.store 0 (datagram.take 2000) } source with
  | none =>
    simp only [haddr] at h
    cases h
    exact ⟨rfl, rfl, rfl, rfl⟩
  | some addr =>
    simp only [haddr] at h
    obtain ⟨frame, hframe⟩ := deliver_writes lib cfg answers
      { s with buf := s.buf.store 0 (datagram.take 2000), addr := addr }
      (datagram.take 2000).length
    have hout : deliver lib cfg answers _ _ = (s', effects) := Option.some.inj h
    rw [hout] at hframe
    exact absurd hframe (hdiscarded frame)

/-- Without a current key the first key of `q2` becomes the current one, whatever arrives. -/
theorem undisturbed_iff_of_noKey {lib : Library} {cfg : Config} {answers : Answers}
    {s s' : Loop} {source : Address} {datagram : List UInt8} {effects : List Effect}
    (haes : cfg.aes = true) (hcur : s.keys.curKey2 = none)
    (h : net2tap lib cfg answers s source datagram = some (s', effects))
    (hdiscarded : Discarded effects) : Undisturbed s s' ↔ s.keys.q2.items = [] := by
  constructor
  · intro hkept
    by_contra hitems
    obtain ⟨⟨key, q2⟩, hq2⟩ := Option.ne_none_iff_exists'.mp
      (mt BoundedQueue.dequeue_eq_none_iff.mp hitems)
    have hfirst : firstKey s.keys = some { s.keys with q2 := q2, curKey2 := some key } := by
      rw [firstKey, hcur, hq2]
      rfl
    have hlength : s'.keys.q2.items.length ≤ q2.items.length := by
      rcases net2tap_discarded haes hfirst h hdiscarded with
        ⟨_, _, hkeys⟩ | ⟨_, ⟨_, hkeys⟩ | ⟨_, ok, hfound⟩⟩
      · rw [hkeys]
      · rw [hkeys]
      · exact findKey_length hfound
    rw [hkept.q2, (BoundedQueue.dequeue_eq_some_iff.mp hq2).1, List.length_cons] at hlength
    omega
  · intro hitems
    have hfirst : firstKey s.keys = none := by
      rw [firstKey, hcur]
      exact Option.map_eq_none_iff.mpr (BoundedQueue.dequeue_eq_none_iff.mpr hitems)
    unfold net2tap at h
    simp only [haes, if_true, hfirst] at h
    cases h
    exact ⟨rfl, rfl, rfl, rfl⟩

/-- An accepted source is the peer afterwards; it was the peer before unless it is taken over. -/
theorem acceptAddress_eq_iff {cfg : Config} {s : Loop} {source addr : Address}
    (h : acceptAddress cfg s source = some addr) :
    addr = s.addr ↔ (cfg.autoaddress = true → source = s.addr) := by
  unfold acceptAddress at h
  dsimp only at h
  cases hauto : cfg.autoaddress with
  | true =>
    rw [hauto, if_pos rfl] at h
    cases h
    exact ⟨fun heq _ ↦ heq, fun himp ↦ himp rfl⟩
  | false =>
    rw [hauto, if_neg Bool.false_ne_true] at h
    split_ifs at h
    cases h
    exact iff_of_true rfl nofun

/-- A source that is refused is not taken over. -/
theorem autoaddress_of_refused {cfg : Config} {s : Loop} {source : Address}
    (h : acceptAddress cfg s source = none) : cfg.autoaddress = false := by
  by_contra hauto
  rw [acceptAddress, if_pos (eq_true_of_ne_false hauto)] at h
  cases h

/-- For every state of the loop and every datagram that is discarded without an end of the
process: it changes nothing if and only if it is harmless. Without AES nothing changes anyway. -/
theorem undisturbed_iff {lib : Library} {cfg : Config} {answers : Answers} {s s' : Loop}
    {source : Address} {datagram : List UInt8} {effects : List Effect}
    (h : net2tap lib cfg answers s source datagram = some (s', effects))
    (hdiscarded : Discarded effects) :
    Undisturbed s s' ↔ (cfg.aes = true → Harmless cfg answers s source datagram) := by
  cases haes : cfg.aes with
  | false => exact iff_of_true (net2tap_discarded_plain haes h hdiscarded) nofun
  | true =>
    rw [Harmless, forall_prop_of_true rfl]
    cases hcur : s.keys.curKey2 with
    | none => exact undisturbed_iff_of_noKey haes hcur h hdiscarded
    | some cur =>
      have hfirst : firstKey s.keys = some s.keys := by rw [firstKey, hcur]
      rcases net2tap_discarded haes hfirst h hdiscarded with
        ⟨hrefused, haddr, hkeys⟩ | ⟨haccept, hcases⟩
      · have hkept : Undisturbed s s' := ⟨haddr, by rw [hkeys], by rw [hkeys], by rw [hkeys]⟩
        refine iff_of_true hkept ⟨fun hauto ↦ ?_, fun hsome ↦ ?_⟩
        · rw [autoaddress_of_refused hrefused] at hauto
          cases hauto
        · rw [hrefused] at hsome
          cases hsome
      · have haddr := acceptAddress_eq_iff haccept
        have hkeys : (s'.keys.curKey2 = s.keys.curKey2 ∧ s'.keys.q1 = s.keys.q1 ∧
            s'.keys.q2 = s.keys.q2) ↔ (32 + 16 ≤ (datagram.take 2000).length →
              cur.sha ≠ datagramId datagram → s.keys.q2.items = [] ∧ answers.bySha = none) := by
          rcases hcases with ⟨hshort, hkeys⟩ | ⟨hlong, ok, hfound⟩
          · rw [hkeys]
            exact iff_of_true ⟨rfl, rfl, rfl⟩ fun hlong ↦ absurd hshort (Nat.not_lt.mpr hlong)
          · rw [findKey_kept_iff hcur hfound]
            exact ⟨fun himp _ ↦ himp, fun himp ↦ himp hlong⟩
        constructor
        · rintro ⟨haddrKept, hcurKept, hq1, hq2⟩
          exact ⟨haddr.mp haddrKept, fun _ ↦ hkeys.mp ⟨hcurKept, hq1, hq2⟩⟩
        · rintro ⟨hauto, hsearch⟩
          obtain ⟨hcurKept, hq1, hq2⟩ := hkeys.mpr (hsearch (by rw [haccept]; rfl))
          exact ⟨haddr.mpr hauto, hcurKept, hq1, hq2⟩

/-! ## Streams of forged datagrams -/

/-- The loop as it receives datagrams all of which are discarded. -/
def flood (lib : Library) (cfg : Config) (s₀ : Loop) :
    Machine Loop (Answers × Address × List UInt8) where
  init s := s = s₀
  step s e s' := ∃ effects,
    net2tap lib cfg e.1 s e.2.1 e.2.2 = some (s', effects) ∧ Discarded effects

/-- Any number of harmless datagrams changes nothing. -/
theorem undisturbed_of_reachable {lib : Library} {cfg : Config} {s₀ s : Loop}
    (hreach : ((flood lib cfg s₀).guard fun s e ↦
      cfg.aes = true → Harmless cfg e.1 s e.2.1 e.2.2).Reachable s) : Undisturbed s₀ s := by
  apply hreach.invariant
  · intro s hs
    cases hs
    exact ⟨rfl, rfl, rfl, rfl⟩
  · rintro s ⟨answers, source, datagram⟩ s' hkept ⟨⟨effects, hstep, hdiscarded⟩, hharmless⟩
    have hnext : Undisturbed s s' := (undisturbed_iff hstep hdiscarded).mpr hharmless
    exact hkept.trans hnext

/-- A discarded datagram changes nothing if and only if it is harmless, and any number of harmless
ones changes nothing. -/
theorem discarded_iff (lib : Library) (cfg : Config) :
    (∀ answers s s' source datagram effects,
      net2tap lib cfg answers s source datagram = some (s', effects) → Discarded effects →
        (Undisturbed s s' ↔ (cfg.aes = true → Harmless cfg answers s source datagram))) ∧
      ∀ s₀ s, ((flood lib cfg s₀).guard fun s e ↦
        cfg.aes = true → Harmless cfg e.1 s e.2.1 e.2.2).Reachable s → Undisturbed s₀ s := by
  constructor
  · intro answers s s' source datagram effects h hdiscarded
    exact undisturbed_iff h hdiscarded
  · intro s₀ s hreach
    exact undisturbed_of_reachable hreach

/-- The options of `ctapudp -s`. -/
def ctapudpConfig : Config := { sampleConfig with prog := .ctapudp }

/-- The process has got its first key, which is queued for receiving. -/
def keyQueued : Process := Process.start sampleLibrary (some fun _ ↦ 9) sampleLoop

/-- An empty datagram from the peer takes the key out of the queue. -/
theorem discarded_iff_empty : ∃ s', net2tap sampleLibrary ctapudpConfig noAnswers keyQueued.loop
    ⟨0, 0⟩ [] = some (s', []) ∧ ¬ Undisturbed keyQueued.loop s' := by
  refine ⟨_, rfl, fun hkept ↦ ?_⟩
  have hharmless := ((discarded_iff sampleLibrary ctapudpConfig).1 noAnswers keyQueued.loop _
    ⟨0, 0⟩ [] [] rfl nofun).mp hkept rfl
  exact absurd hharmless (List.cons_ne_nil _ _)

/-- An empty datagram from elsewhere redirects the tunnel and takes the key out of the queue. -/
theorem not_undisturbed_empty :
    ¬ ∀ (lib : Library) (cfg : Config) (nextkey : Option Bytes32) (s₀ : Loop) (p : Process)
        (answers : Answers) (source : Address) (datagram : List UInt8) (s' : Loop)
        (effects : List Effect), cfg.prog = .ctapudp → (process lib cfg nextkey s₀).Reachable p →
        net2tap lib cfg answers p.loop source datagram = some (s', effects) →
        Discarded effects → Undisturbed p.loop s' := by
  intro hall
  have hkept := hall sampleLibrary ctapudpConfig (some fun _ ↦ 9) sampleLoop keyQueued noAnswers
    ⟨1, 1⟩ [] _ [] rfl ⟨[], .start rfl⟩ rfl nofun
  exact absurd (congrArg Address.ip hkept.addr) (by decide)

end QNet.Tunnel
