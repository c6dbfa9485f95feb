import Mathlib.Data.List.Perm.Basic
import QNet.Kks.Disclosure

/-!
# The sample for the error rate

`get_qber_key` takes its places modulo the size the key had at first, although the key shrinks with
every bit that is taken, and it starts the generator with the time, although its parameter `seed` is
meant to be that of the other end.

So a place may lie behind the key (`sampled_iff` says for which answers of `random()` none does),
and the seed that is sent has no effect: whatever the generator is, the two ends sample the same
places only when their clocks show the same second (`aligned_iff`).
-/

namespace QNet.Kks

variable {α β : Type*}

/-! ## Places in the key -/

/-- One round of the loop of `get_qber_key`, which is undefined at a place behind the key. -/
def drawBit (random : ℕ → ℕ) (size : ℕ) (s : List α × List α) (i : ℕ) :
    Option (List α × List α) := do
  let pos := random i % size
  let bit ← s.2[pos]?
  return (s.1 ++ [bit], s.2.eraseIdx pos)

/-- `get_qber_key`, when all its accesses are defined. -/
def drawQberKey (random : UInt32 → ℕ → ℕ) (seed : UInt32) (key : List α) :
    Option (List α × List α) :=
  (List.range ((key.length + 9) / 10)).foldlM (drawBit (random seed) key.length) ([], key)

/-- All accesses are in the key, a tenth of the bits is taken, and the others keep their order. -/
def Sampled (random : UInt32 → ℕ → ℕ) (seed : UInt32) (key : List α) : Prop :=
  ∃ s, drawQberKey random seed key = some s ∧ s.1.length = (key.length + 9) / 10 ∧
    (s.1 ++ s.2).Perm key ∧ s.2.Sublist key

/-- The state of the loop after `n` rounds. -/
structure Drawn (key : List α) (n : ℕ) (s : List α × List α) : Prop where
  length : s.1.length = n
  perm : (s.1 ++ s.2).Perm key
  sublist : s.2.Sublist key

theorem Drawn.length_rest {key : List α} {n : ℕ} {s : List α × List α} (h : Drawn key n s) :
    s.2.length = key.length - n := by
  have hlength := h.perm.length_eq
  rw [List.length_append, h.length] at hlength
  omega

theorem Drawn.next {key : List α} {n : ℕ} {s : List α × List α} (h : Drawn key n s)
    {random : ℕ → ℕ} {i : ℕ} (hpos : random i % key.length < key.length - n) :
    ∃ t, drawBit random key.length s i = some t ∧ Drawn key (n + 1) t := by
  have hlt : random i % key.length < s.2.length := h.length_rest ▸ hpos
  refine ⟨_, by rw [drawBit, List.getElem?_eq_getElem hlt]; rfl, ?_, ?_, ?_⟩
  · rw [List.length_append, h.length, List.length_singleton]
  · have hsplit := (List.getElem_cons_eraseIdx_perm hlt).append_left s.1
    rw [List.append_assoc, List.singleton_append]
    exact hsplit.trans h.perm
  · exact (List.eraseIdx_sublist _ _).trans h.sublist

theorem Drawn.drawBit_eq_none {key : List α} {n : ℕ} {s : List α × List α} (h : Drawn key n s)
    {random : ℕ → ℕ} {i : ℕ} (hpos : ¬ random i % key.length < key.length - n) :
    drawBit random key.length s i = none := by
  have hle : s.2.length ≤ random i % key.length := by
    rw [h.length_rest]
    exact Nat.not_lt.mp hpos
  rw [drawBit, List.getElem?_eq_none hle]
  rfl

/-- The loop gets through when every place lies in what is left of the key by then. -/
theorem drawn_range {random : ℕ → ℕ} {key : List α} {n : ℕ}
    (hall : ∀ i < n, random i % key.length < key.length - i) :
    ∃ s, (List.range n).foldlM (drawBit random key.length) ([], key) = some s ∧ Drawn key n s := by
  induction n with
  | zero => exact ⟨_, rfl, rfl, List.Perm.refl key, List.Sublist.refl key⟩
  | succ n ih =>
    obtain ⟨s, hs, hdrawn⟩ := ih fun i hi ↦ hall i (Nat.lt_succ_of_lt hi)
    obtain ⟨t, ht, hnext⟩ := hdrawn.next (hall n (Nat.lt_succ_self n))
    refine ⟨t, ?_, hnext⟩
    rw [List.range_succ, List.foldlM_append, hs]
    exact (bind_pure _).trans ht

/-- A place that lies behind the key ends it. -/
theorem lt_of_drawn {random : ℕ → ℕ} {key : List α} {n : ℕ} {s : List α × List α}
    (h : (List.range n).foldlM (drawBit random key.length) ([], key) = some s) :
    ∀ i < n, random i % key.length < key.length - i := by
  induction n generalizing s with
  | zero => exact fun i hi ↦ absurd hi (Nat.not_lt_zero i)
  | succ n ih =>
    rw [List.range_succ, List.foldlM_append] at h
    obtain ⟨middle, hmiddle, hlast⟩ := Option.bind_eq_some_iff.mp h
    have hfront := ih hmiddle
    obtain ⟨s', hs', hdrawn⟩ := drawn_range hfront
    obtain rfl : middle = s' := Option.some.inj (hmiddle.symm.trans hs')
    intro i hi
    rcases Nat.lt_succ_iff_lt_or_eq.mp hi with hlt | rfl
    · exact hfront i hlt
    · by_contra hpos
      rw [List.foldlM_cons, hdrawn.drawBit_eq_none hpos] at hlast
      cases hlast

theorem places_of_sampled {random : UInt32 → ℕ → ℕ} {seed : UInt32} {key : List α}
    (h : Sampled random seed key) :
    ∀ i < (key.length + 9) / 10, random seed i % key.length < key.length - i := by
  obtain ⟨s, hs, _⟩ := h
  exact lt_of_drawn hs

theorem sampled_of_places {random : UInt32 → ℕ → ℕ} {seed : UInt32} {key : List α}
    (h : ∀ i < (key.length + 9) / 10, random seed i % key.length < key.length - i) :
    Sampled random seed key := by
  obtain ⟨s, hs, hdrawn⟩ := drawn_range h
  exact ⟨s, hs, hdrawn.length, hdrawn.perm, hdrawn.sublist⟩

/-- For every key and all answers of `random()`: the sample is what it should be if and only if the
place of every round lies in what is left of the key by then. -/
theorem sampled_iff (random : UInt32 → ℕ → ℕ) (seed : UInt32) (key : List α) :
    Sampled random seed key ↔
      ∀ i < (key.length + 9) / 10, random seed i % key.length < key.length - i :=
  ⟨places_of_sampled, sampled_of_places⟩

/-- The second of two rounds may take the last of eleven places again. -/
theorem not_sampled_elevenBits : ¬ Sampled (fun _ _ ↦ 10) 0 (List.replicate 11 true) := by
  rintro ⟨s, hs, _⟩
  cases hs

/-- No answers of `random()` do harm exactly when there is one round at most. -/
theorem forall_sampled_iff (key : List α) :
    (∀ random seed, Sampled random seed key) ↔ key.length ≤ 10 := by
  constructor
  · intro hall
    by_contra hlong
    have hplace := places_of_sampled (hall (fun _ _ ↦ key.length - 1) 0) 1 (by omega)
    rw [Nat.mod_eq_of_lt (by omega)] at hplace
    exact absurd hplace (Nat.lt_irrefl _)
  · intro hshort random seed
    apply sampled_of_places
    intro i hi
    obtain rfl : i = 0 := by omega
    exact Nat.mod_lt _ (by omega)

/-! ## The same with the storage of the vector -/

theorem length_eraseBit {storage : List α} {finish : ℕ} (hfinish : finish ≤ storage.length)
    (pos : ℕ) : (eraseBit storage finish pos).length = storage.length := by
  rw [eraseBit]
  split_ifs with hmove
  · simp only [List.length_append, List.length_take, List.length_drop]
    omega
  · rfl

/-- In front of the new end the storage is the key without the bit. -/
theorem take_eraseBit {storage : List α} {finish pos : ℕ} (hfinish : finish ≤ storage.length)
    (hpos : pos < finish) :
    (eraseBit storage finish pos).take (finish - 1) = (storage.take finish).eraseIdx pos := by
  have hfront : (storage.take finish).take pos = storage.take pos := by
    rw [List.take_take, Nat.min_eq_left (Nat.le_of_lt hpos)]
  rw [List.eraseIdx_eq_take_drop_succ, hfront, eraseBit]
  split_ifs with hmove
  · rw [← List.append_assoc]
    apply List.take_left'
    simp only [List.length_append, List.length_take, List.length_drop]
    omega
  · have hlast : finish - 1 = pos := by omega
    have hnil : (storage.take finish).drop (pos + 1) = [] := by
      rw [List.drop_eq_nil_iff, List.length_take]
      omega
    rw [hlast, hnil, List.append_nil]

/-- The two models of the loop agree as long as all places lie in the key. -/
theorem foldl_sampleBit_of_drawn {random : ℕ → ℕ} {key : List α} {n : ℕ} {s : List α × List α}
    (hn : n ≤ key.length)
    (h : (List.range n).foldlM (drawBit random key.length) ([], key) = some s) :
    ∃ storage, (List.range n).foldl (sampleBit random key.length) ([], key) = (s.1, storage) ∧
      storage.length = key.length ∧ storage.take (key.length - n) = s.2 := by
  induction n generalizing s with
  | zero =>
    cases h
    exact ⟨key, rfl, rfl, List.take_length⟩
  | succ n ih =>
    have hplace := lt_of_drawn h n (Nat.lt_succ_self n)
    rw [List.range_succ, List.foldlM_append] at h
    obtain ⟨middle, hmiddle, hlast⟩ := Option.bind_eq_some_iff.mp h
    obtain ⟨storage, hstorage, hlength, htake⟩ := ih (Nat.le_of_succ_le hn) hmiddle
    have hlt : random n % key.length < storage.length := by omega
    have hbit : middle.2[random n % key.length]? = some storage[random n % key.length] := by
      rw [← htake, List.getElem?_take_of_lt hplace, List.getElem?_eq_getElem hlt]
    have hfinish : key.length - n ≤ storage.length := hlength ▸ Nat.sub_le _ _
    rw [List.foldlM_cons, drawBit, hbit] at hlast
    cases hlast
    refine ⟨eraseBit storage (key.length - n) (random n % key.length), ?_, ?_, ?_⟩
    · rw [List.range_succ, List.foldl_append, hstorage, List.foldl_cons, List.foldl_nil, sampleBit,
        List.getElem?_eq_getElem hlt]
      rfl
    · rw [length_eraseBit hfinish, hlength]
    · rw [← Nat.sub_sub, take_eraseBit hfinish hplace, htake]

theorem getQberKey_of_drawn {random : UInt32 → ℕ → ℕ} {seed : UInt32} {key : List α}
    {s : List α × List α} (h : drawQberKey random seed key = some s) :
    getQberKey random seed key = s := by
  obtain ⟨storage, hloop, _, htake⟩ := foldl_sampleBit_of_drawn (by omega) h
  unfold getQberKey
  dsimp only
  rw [hloop, htake]

/-! ## The same places at both ends -/

section Ends

variable {α : Type}

/-- `get_qber_key` with its parameter `seed`: what the generator is started with, the sample, and
the rest of the key. -/
def getQberKeyAt (random : UInt32 → ℕ → ℕ) (time _seed : UInt32) (key : List α) :
    UInt32 × List α × List α :=
  let seed := time
  (seed, getQberKey random seed key)

/-- Alice takes her sample and sends the seed; Bob receives it and takes his. -/
def sampleBoth (random : UInt32 → ℕ → ℕ) (aliceTime bobTime seedQber : UInt32)
    (aliceKey bobKey : List α) : Option ((List α × List α) × (List α × List α)) := do
  let (seedQber, alice) := getQberKeyAt random aliceTime seedQber aliceKey
  let (received, _) ← recvInt (sendInt seedQber.toNat)
  let (_, bob) := getQberKeyAt random bobTime (UInt32.ofNat received) bobKey
  return (alice, bob)

/-- `pos` in each round. -/
def places (random : UInt32 → ℕ → ℕ) (seed : UInt32) (size : ℕ) : List ℕ :=
  (List.range ((size + 9) / 10)).map fun i ↦ random seed i % size

/-- If the bits of the keys are numbered, the two samples are the same numbers, and the two rests
are. -/
def Aligned (random : UInt32 → ℕ → ℕ) (aliceTime bobTime seedQber : UInt32)
    (aliceKey bobKey : List Bool) : Prop :=
  ∃ s, sampleBoth random aliceTime bobTime seedQber (List.range aliceKey.length)
    (List.range bobKey.length) = some (s, s)

theorem sampleBoth_eq (random : UInt32 → ℕ → ℕ) (aliceTime bobTime seedQber : UInt32)
    (aliceKey bobKey : List α) :
    sampleBoth random aliceTime bobTime seedQber aliceKey bobKey =
      some (getQberKey random aliceTime aliceKey, getQberKey random bobTime bobKey) := by
  have hseed := recvInt_sendInt aliceTime.toNat_lt []
  rw [List.append_nil] at hseed
  unfold sampleBoth getQberKeyAt
  dsimp only
  rw [hseed]
  rfl

/-- What numbered bits show is so for the keys themselves. -/
theorem Aligned.sampleBoth_eq {random : UInt32 → ℕ → ℕ} {aliceTime bobTime seedQber : UInt32}
    {aliceKey bobKey : List Bool}
    (h : Aligned random aliceTime bobTime seedQber aliceKey bobKey) :
    ∃ s : List ℕ × List ℕ, sampleBoth random aliceTime bobTime seedQber aliceKey bobKey =
      some ((s.1.map fun i ↦ aliceKey[i]?.getD false, s.2.map fun i ↦ aliceKey[i]?.getD false),
        (s.1.map fun i ↦ bobKey[i]?.getD false, s.2.map fun i ↦ bobKey[i]?.getD false)) := by
  obtain ⟨s, hs⟩ := h
  rw [QNet.Kks.sampleBoth_eq, Option.some_inj, Prod.mk.injEq] at hs
  refine ⟨s, ?_⟩
  rw [QNet.Kks.sampleBoth_eq, getQberKey_eq_map, getQberKey_eq_map random bobTime, hs.1, hs.2]

theorem getQberKey_of_places {random : UInt32 → ℕ → ℕ} {seed seed' : UInt32} {key : List α}
    (h : places random seed key.length = places random seed' key.length) :
    getQberKey random seed key = getQberKey random seed' key := by
  have hround (s : List α × List α) : ∀ i ∈ List.range ((key.length + 9) / 10),
      sampleBit (random seed) key.length s i = sampleBit (random seed') key.length s i := by
    intro i hi
    rw [sampleBit, sampleBit, List.map_inj_left.mp h i hi]
  unfold getQberKey
  dsimp only
  rw [List.foldl_ext _ _ _ fun s i hi ↦ hround s i hi]

/-- Rounds only append to the sample. -/
theorem prefix_foldl_sampleBit (random : ℕ → ℕ) (size : ℕ) (rounds : List ℕ)
    (s : List α × List α) : s.1 <+: (rounds.foldl (sampleBit random size) s).1 := by
  induction rounds generalizing s with
  | nil => exact List.prefix_rfl
  | cons i rounds ih => exact (List.prefix_append s.1 _).trans (ih (sampleBit random size s i))

/-- The sample begins with the bit of the first round. -/
theorem head?_getQberKey (random : UInt32 → ℕ → ℕ) (seed : UInt32) {key : List α}
    (hpos : 0 < key.length) :
    (getQberKey random seed key).1.head? = key[random seed 0 % key.length]? := by
  obtain ⟨n, hrounds⟩ : ∃ n, (key.length + 9) / 10 = n + 1 :=
    Nat.exists_eq_succ_of_ne_zero (by omega)
  have hfirst := prefix_foldl_sampleBit (random seed) key.length ((List.range n).map Nat.succ)
    (sampleBit (random seed) key.length ([], key) 0)
  have hlt : random seed 0 % key.length < key.length := Nat.mod_lt _ hpos
  unfold getQberKey
  dsimp only
  rw [hrounds, List.range_succ_eq_map, List.foldl_cons]
  simp only [sampleBit, List.getElem?_eq_getElem hlt, Option.toList_some,
    List.nil_append] at hfirst ⊢
  obtain ⟨rest, hrest⟩ := hfirst
  rw [← hrest]
  rfl

/-- The ends agree when they start their generators with the same number, or when there is one place
at most. -/
theorem aligned_of_times {random : UInt32 → ℕ → ℕ} {aliceTime bobTime seedQber : UInt32}
    {aliceKey bobKey : List Bool} (hlength : aliceKey.length = bobKey.length)
    (h : aliceTime = bobTime ∨ aliceKey.length ≤ 1) :
    Aligned random aliceTime bobTime seedQber aliceKey bobKey := by
  have hplaces : places random aliceTime (List.range aliceKey.length).length =
      places random bobTime (List.range aliceKey.length).length := by
    rcases h with rfl | hshort
    · rfl
    · rw [List.length_range, places, places, List.map_inj_left]
      intro i hi
      rw [List.mem_range] at hi
      obtain hone : aliceKey.length = 1 := by omega
      rw [hone, Nat.mod_one, Nat.mod_one]
  exact ⟨_, by rw [sampleBoth_eq, ← hlength, getQberKey_of_places hplaces]⟩

/-- For all keys of equal length, all times and all values of `seed_qber`: that the ends sample the
same places, whatever the generator is, is so if and only if the two clocks show the same second or
the keys have one bit at most. -/
theorem aligned_iff (aliceTime bobTime seedQber : UInt32) (aliceKey bobKey : List Bool)
    (hlength : aliceKey.length = bobKey.length) :
    (∀ random : UInt32 → ℕ → ℕ, Aligned random aliceTime bobTime seedQber aliceKey bobKey) ↔
      aliceTime = bobTime ∨ aliceKey.length ≤ 1 := by
  constructor
  · intro hall
    by_contra hother
    obtain ⟨htime, hlong⟩ := not_or.mp hother
    -- A generator that gives place 0 from Alice's seed and place 1 from all others.
    obtain ⟨s, hs⟩ := hall fun seed _ ↦ if seed = aliceTime then 0 else 1
    rw [sampleBoth_eq, Option.some_inj, Prod.mk.injEq, ← hlength] at hs
    have hheads := congrArg (fun s : List ℕ × List ℕ ↦ s.1.head?) (hs.1.trans hs.2.symm)
    have hpos : 0 < (List.range aliceKey.length).length := by
      rw [List.length_range]
      omega
    simp only [head?_getQberKey _ _ hpos, List.length_range, if_true, if_neg (Ne.symm htime),
      Nat.zero_mod, Nat.mod_eq_of_lt (not_le.mp hlong)] at hheads
    rw [List.getElem?_range (by omega), List.getElem?_range (by omega)] at hheads
    cases hheads
  · exact fun h random ↦ aligned_of_times hlength h

/-- Two keys of three bits, sampled in the same second and a second apart. -/
theorem aligned_iff_threeBits :
    (∀ random, Aligned random 7 7 0 [true, false, true] [true, true, true]) ∧
      ¬ ∀ random, Aligned random 7 8 0 [true, false, true] [true, true, true] :=
  ⟨(aligned_iff 7 7 0 [true, false, true] [true, true, true] rfl).mpr (.inl rfl),
    fun h ↦ absurd ((aligned_iff 7 8 0 [true, false, true] [true, true, true] rfl).mp h)
      (by decide)⟩

/-- A generator that counts on from its seed. -/
def countOn (seed : UInt32) (i : ℕ) : ℕ := seed.toNat + i

/-- A second makes a difference: Alice takes bit 1 and Bob bit 2. -/
theorem not_aligned_oneSecond :
    ¬ Aligned countOn 7 8 0 [true, false, true] [true, true, true] := by
  rintro ⟨s, hs⟩
  rw [sampleBoth_eq, Option.some_inj, Prod.mk.injEq] at hs
  exact absurd (hs.1.trans hs.2.symm) (by decide)

end Ends

end QNet.Kks
